import Ps2Ripper.Imaging.DeadSector
import Ps2Ripper.Imaging.DvdCoverage
import Ps2Ripper.Interactive.Endings
import Ps2Ripper.Windows.BlockStream

/-!
# The conversion of a CD data track

* `IsUserSector`, `payload`: the sectors that have user data, and where it lies;
* `Convertible`, `Converted`: when a track can be converted, and to what;
* `Op.Fine`: the answers after which a conversion may still return;
* `convertCdDataTrackToIso_exact`: all or nothing, and exact, as long as the ISO file can be
  measured and removed.
-/

namespace Ps2Ripper

open Interactive Prog

/-! ### User data -/

/-- The sector is Mode 1, or Mode 2 Form 1 with equal copies of its subheader. -/
def IsUserSector (sector : Bytes) : Prop :=
  slice sector 0 12 = sync ∧ (sector.getD 15 0 = 1 ∨
    sector.getD 15 0 = 2 ∧ slice sector 16 20 = slice sector 20 24 ∧ sector.getD 18 0 &&& 0x20 = 0)

/-- The 2048 bytes from offset 16 on in Mode 1, and from offset 24 on in Mode 2. -/
def payload (sector : Bytes) : Bytes :=
  if sector.getD 15 0 = 1 then slice sector 16 2064 else slice sector 24 2072

theorem extract2048UserData_eq_ok_iff {sector data : Bytes} (hlen : sector.length = 2352) :
    extract2048UserData sector = .ok data ↔ IsUserSector sector ∧ data = payload sector := by
  unfold extract2048UserData identifySectorForm IsUserSector payload
  rw [if_neg (by simp [hlen, rawSectorSize])]
  dsimp only
  generalize sector.getD 15 0 = mode
  generalize sector.getD 18 0 &&& 0x20 = form
  by_cases hsync : slice sector 0 12 = sync
  · rw [if_neg (not_not.2 hsync)]
    by_cases h1 : mode = 1
    · simp [hsync, h1, @eq_comm _ data]
    by_cases h2 : mode = 2
    · by_cases hsub : slice sector 16 20 = slice sector 20 24
      · by_cases hform : form = 0
        · simp [hsync, h2, hsub, hform, @eq_comm _ data]
        · simp [h2, hsub, hform]
      · simp [h2, hsub]
    · simp [h1, h2]
  · simp [hsync]

/-- The ISO file of a track. -/
def Disc.isoBytes (d : Disc) (track : CDTrack) : Bytes :=
  (List.range' track.startLba track.sectors).flatMap fun lba => payload (d.raw lba)

theorem Disc.userData_eq_some_iff (d : Disc) (lba n : ℕ) (data : Bytes) :
    d.userData lba n = some data ↔
      (∀ i < n, IsUserSector (d.raw (lba + i))) ∧
        data = (List.range' lba n).flatMap fun lba => payload (d.raw lba) := by
  induction n generalizing lba data with
  | zero => simp [Disc.userData, eq_comm]
  | succ n ih =>
    have hsector : ∀ u, (extract2048UserData (d.raw lba)).toOption = some u ↔
        IsUserSector (d.raw lba) ∧ u = payload (d.raw lba) := fun u => by
      rw [← extract2048UserData_eq_ok_iff (d.raw_length lba)]
      cases extract2048UserData (d.raw lba) <;> simp [Except.toOption]
    simp only [Disc.userData, Option.bind_eq_bind, Option.bind_eq_some_iff, Option.pure_def,
      Option.some.injEq, hsector, ih, List.range'_succ, List.flatMap_cons]
    constructor
    · rintro ⟨_, ⟨hfirst, rfl⟩, _, ⟨hrest, rfl⟩, rfl⟩
      refine ⟨fun i hi => ?_, rfl⟩
      cases i with
      | zero => exact hfirst
      | succ i =>
        have hi' := hrest i (by omega)
        rwa [Nat.add_assoc, Nat.add_comm 1] at hi'
    · rintro ⟨hall, rfl⟩
      refine ⟨_, ⟨hall 0 (by omega), rfl⟩, _, ⟨fun i hi => ?_, rfl⟩, rfl⟩
      have hi' := hall (i + 1) (by omega)
      rwa [Nat.add_assoc, Nat.add_comm 1]

/-! ### Truncated files -/

theorem convertBytes_eq_none {n : ℕ} {left : Bytes} (h : left.length < n * 2352) :
    convertBytes n left = none := by
  induction n generalizing left with
  | zero => omega
  | succ n ih =>
    rw [convertBytes]
    split
    · rfl
    · rw [ih (by rw [List.length_drop]; omega)]
      cases (extract2048UserData (left.take 2352)).toOption <;> rfl

theorem sectors_le_sub {n k size : ℕ} (h : (n + 1) * size ≤ k) : n * size ≤ k - size := by
  rw [Nat.succ_mul] at h
  omega

theorem convertBytes_take {n k : ℕ} {left : Bytes} (h : n * 2352 ≤ k) :
    convertBytes n (left.take k) = convertBytes n left := by
  induction n generalizing left k with
  | zero => rfl
  | succ n ih =>
    have htake : (left.take k).take 2352 = left.take 2352 := by
      rw [List.take_take, min_eq_left (by omega)]
    have hdrop : (left.take k).drop 2352 = (left.drop 2352).take (k - 2352) := List.drop_take
    have hlen : (left.take k).length < 2352 ↔ left.length < 2352 := by
      rw [List.length_take]
      omega
    have hdropped : convertBytes n ((left.take k).drop 2352) = convertBytes n (left.drop 2352) := by
      rw [hdrop, ih (sectors_le_sub h)]
    rw [convertBytes, convertBytes, htake, hdropped]
    by_cases hshort : left.length < 2352
    · rw [if_pos hshort, if_pos (hlen.2 hshort)]
    · rw [if_neg hshort, if_neg (mt hlen.1 hshort)]

/-! ### When a track can be converted -/

/-- The BIN file reaches to the end of the track, and all sectors of the track have user data. -/
structure Convertible (d : Disc) (tracks : List CDTrack) (track : CDTrack) (source : Bytes) :
    Prop where
  held : ∀ first ∈ tracks.head?, (track.endLba + 1 - first.startLba) * 2352 ≤ source.length
  sectors : ∀ i < track.sectors, IsUserSector (d.raw (track.startLba + i))

variable {m : Machine} {A : Op → Choice → Prop} {w : World} {tracks : List CDTrack}
  {track : CDTrack}
  {k : ℕ} {bin iso : Path} {progress : Bool}

theorem find_number_of_nodup (h : (tracks.map (·.number)).Nodup) (ht : track ∈ tracks) :
    tracks.find? (·.number = track.number) = some track := by
  induction tracks with
  | nil => cases ht
  | cons t rest ih =>
    obtain ⟨hnot, hrest⟩ := List.nodup_cons.1 h
    obtain rfl | ht := List.mem_cons.1 ht
    · simp
    · have hne : t.number ≠ track.number := fun heq =>
        hnot (List.mem_map.2 ⟨track, ht, heq.symm⟩)
      rw [List.find?_cons_of_neg (by simpa using hne)]
      exact ih hrest ht

/-- In a truncated BIN file the conversion finds the sectors of its track, or too few bytes. -/
theorem convertBytes_trackBytes (hcontiguous : Contiguous tracks) {first : CDTrack}
    (hfirst : tracks.head? = some first) (ht : track ∈ tracks) (data : Bytes) :
    first.startLba ≤ track.startLba ∧ convertBytes track.sectors
        (((m.disc.trackBytes tracks).take k).drop ((track.startLba - first.startLba) * 2352)) =
          some data ↔
      (track.endLba + 1 - first.startLba) * 2352 ≤ ((m.disc.trackBytes tracks).take k).length ∧
        m.disc.userData track.startLba track.sectors = some data := by
  obtain ⟨last, hlast⟩ := exists_last_of_first hfirst
  have hstart := (hcontiguous.bounds hfirst hlast ht).1
  obtain ⟨rest, hrest⟩ := m.disc.drop_trackBytes hcontiguous hfirst ht
  have hle := track.start_le_end
  have hsectors := track.sectors_eq
  -- the track ends after the sectors before it and its own
  have hend : track.endLba + 1 - first.startLba =
      track.startLba - first.startLba + track.sectors := by
    omega
  have hlength : (m.disc.trackBytes tracks).length =
      (track.startLba - first.startLba) * 2352 + (track.sectors * 2352 + rest.length) := by
    have hdrop := congrArg List.length hrest
    rw [List.length_drop, List.length_append, m.disc.length_raws] at hdrop
    omega
  rw [List.drop_take, hrest, List.length_take, hlength, hend, Nat.add_mul]
  obtain ⟨before, hbefore⟩ : ∃ n, n = (track.startLba - first.startLba) * 2352 := ⟨_, rfl⟩
  rw [← hbefore]
  by_cases hk : before + track.sectors * 2352 ≤ k
  · rw [convertBytes_take (Nat.le_sub_of_add_le' hk), convertBytes_raws]
    refine and_congr_left fun _ => iff_of_true hstart (le_min hk ?_)
    exact Nat.add_le_add_left (Nat.le_add_right ..) _
  · refine iff_of_false ?_ fun h => hk (h.1.trans (min_le_left ..))
    rintro ⟨-, hdata⟩
    have hshort : k - before < track.sectors * 2352 := by omega
    rw [convertBytes_eq_none] at hdata
    · cases hdata
    · rw [List.length_take]
      exact (min_le_left ..).trans_lt hshort

/-- In a truncated BIN file of contiguous tracks. -/
theorem convertsTo_iff (hcontiguous : Contiguous tracks) (hnumbers : (tracks.map (·.number)).Nodup)
    (ht : track ∈ tracks) (hkind : track.kind ≠ .audio) (volume : Volume) (data : Bytes) :
    ConvertsTo m volume tracks track.number ((m.disc.trackBytes tracks).take k) data ↔
      track.sectors * 2048 ≤ m.free volume ∧
        Convertible m.disc tracks track ((m.disc.trackBytes tracks).take k) ∧
        data = m.disc.isoBytes track := by
  obtain ⟨first, hfirst⟩ : ∃ first, tracks.head? = some first := by
    cases tracks with
    | nil => cases ht
    | cons t rest => exact ⟨t, rfl⟩
  have hconvert := convertBytes_trackBytes (m := m) (k := k) hcontiguous hfirst ht data
  rw [m.disc.userData_eq_some_iff] at hconvert
  constructor
  · rintro ⟨track', first', hfind, hfirst', -, hspace, hstart, hdata⟩
    rw [find_number_of_nodup hnumbers ht] at hfind
    rw [hfirst] at hfirst'
    cases hfind
    cases hfirst'
    obtain ⟨hheld, hall, hdata⟩ := hconvert.1 ⟨hstart, hdata⟩
    refine ⟨hspace, ⟨fun _ h => ?_, hall⟩, hdata⟩
    rw [hfirst] at h
    cases h
    exact hheld
  · rintro ⟨hspace, ⟨hheld, hall⟩, hdata⟩
    obtain ⟨hstart, hconverted⟩ := hconvert.2 ⟨hheld first hfirst, hall, hdata⟩
    exact ⟨track, first, find_number_of_nodup hnumbers ht, hfirst, hkind, hspace,
      hstart, hconverted⟩

/-! ### What a conversion that returns has seen -/

theorem strict_emitProgress {snapshot : ProgressSnapshot} :
    (emitProgress progress snapshot).Strict Op.Fine :=
  .ite (strict_call nofun) trivial

theorem strict_ensureTemporarySpace {d : Dir} {n : ℕ} :
    (ensureTemporarySpace d n).Strict Op.Fine :=
  .bind (strict_call nofun) fun _ => .bind (strict_call nofun) fun _ => .ite trivial trivial

theorem removeAndRaise_never {α : Type} (outputs : List Path) (e : PyError) :
    (removeAndRaise outputs e : Program α).Yields fun _ => False := by
  induction outputs with
  | nil => trivial
  | cons p rest ih => exact .bind (yields_true _) fun _ _ => ih

theorem strict_convertLoop {remaining : ℕ} {left digest : Bytes} :
    (convertLoop bin iso track progress remaining left digest).Strict Op.Fine := by
  induction remaining generalizing left digest with
  | zero => trivial
  | succ remaining ih =>
    exact .bind strict_checkpoint fun _ => .bind (strict_call nofun) fun _ => .ite trivial <|
      .bind (strict_lift _) fun _ => .bind (strict_call nofun) fun _ =>
        .bind strict_emitProgress fun _ => ih

theorem strict_convertCdDataTrackToIso {ext : Externals} {number : ℕ} :
    (convertCdDataTrackToIso ext bin iso tracks number progress).Strict Op.Fine := by
  unfold convertCdDataTrackToIso
  split
  · refine .ite trivial (.bind strict_ensureTemporarySpace fun _ => .bind (strict_call nofun)
      fun _ => .ite trivial (.bind (.tryCatch ?_ (removeAndRaise_never _))
        fun _ => .bind (strict_call nofun) fun _ => trivial))
    exact .bind (strict_call nofun) fun _ => .bind (strict_call nofun) fun _ => .ite trivial
      (.bind strict_convertLoop fun _ => .bind (strict_call nofun) fun _ => trivial)
  · trivial

/-! ### All or nothing -/

/-- If the ISO file can be measured and removed, nothing is left of a conversion that raises. -/
theorem wp_convert_absent {number : ℕ} {source : Bytes} {ext : Externals}
    (hbin : w.files bin = some source) (hwrite : Stores A iso)
    (hremove : ∀ c, A (.unlink iso) c → c.fault = none)
    (hstat : ∀ c, A (.stat iso) c → c.fault = none) (hnew : w.files iso = none) :
    wp (allowing m A) (convertCdDataTrackToIso ext bin iso tracks number progress)
      (fun _ _ => True) (fun _ w' => w'.files iso = none) w := by
  unfold convertCdDataTrackToIso
  split
  case h_2 => exact hnew
  case h_1 track first htrack hfirst =>
  by_cases hkind : track.kind = .audio
  · rw [if_pos hkind]
    exact hnew
  rw [if_neg hkind]
  have hspace : wp (allowing m A) (ensureTemporarySpace iso.dir (track.sectors * 2048))
      (fun _ w' => w' = w) (fun _ w' => w'.files iso = none) w :=
    wp_absent (R := ∅) ensureTemporarySpace_within hnew ensures_ensureTemporarySpace
  refine wp_seq hspace ?_ fun _ _ => id
  rintro _ w₁ rfl
  have hexists : wp (allowing m A) (call (.pathExists iso))
      (fun b w' => b = (w₁.files iso).isSome ∧ w' = w₁) (fun _ w' => w'.files iso = none) w₁ :=
    wp_absent (R := {iso}) (uses_of (by simp)) hnew ensures_pathExists
  refine wp_seq hexists ?_ fun _ _ => id
  rintro present w₂ ⟨rfl, rfl⟩
  rw [hnew, if_neg (by simp)]
  refine wp_bind.2 (wp_tryCatch.2 (wp_mono (ensures_convertBody hbin) ?_
    fun _ _ _ => wp_removeOutput hremove))
  rintro digest w₃ ⟨-, -, hfile⟩
  exact wp_seq (wp_measure hstat (hfile hwrite)) (fun _ _ _ => trivial) fun _ _ => id

/-- The result of a conversion: its bytes are what the drive presents for the track. -/
structure Converted (m : Machine) (iso : Path) (track : CDTrack) (image : ImageResult) (w : World) :
    Prop where
  file : w.files iso = some (m.disc.isoBytes track)
  size : image.size = track.sectors * 2048
  sha256 : image.sha256 = m.hexdigest (m.disc.isoBytes track)
  flat : m.disc.isoBytes track = m.disc.flat 0 (some track)
  stream : ByteSource.ofBytes (m.disc.isoBytes track) = .ofStream m.disc 0 (some track)

/-- The bytes that the drive presents are those of the ISO file. -/
theorem Disc.isoBytes_eq_flat (d : Disc) (h : ∀ i < track.sectors,
    IsUserSector (d.raw (track.startLba + i))) : d.isoBytes track = d.flat 0 (some track) := by
  refine List.flatMap_congr fun lba hm => ?_
  obtain ⟨i, hi, rfl⟩ := List.mem_range'.1 hm
  have hsector := h i hi
  rw [← Nat.one_mul i] at hsector
  rw [Disc.userSector, (extract2048UserData_eq_ok_iff (d.raw_length _)).2 ⟨hsector, rfl⟩]

theorem wp_convertCdDataTrackToIso (hcontiguous : Contiguous tracks)
    (hnumbers : (tracks.map (·.number)).Nodup) (ht : track ∈ tracks)
    (hbin : w.files bin = some ((m.disc.trackBytes tracks).take k)) (hwrite : Stores A iso) :
    ensures (allowing m A)
      (convertCdDataTrackToIso m.toExternals bin iso tracks track.number progress)
      (fun image w' => Convertible m.disc tracks track ((m.disc.trackBytes tracks).take k) ∧
        Converted m iso track image w') w := by
  refine ensures_mono (ensures_convertCdDataTrackToIso hbin) ?_
  rintro image w' ⟨-, track', first, data, hfind, hfirst, -, hstart, hdata, hsha, hstored⟩
  rw [find_number_of_nodup hnumbers ht] at hfind
  cases hfind
  obtain ⟨hheld, huser⟩ := (convertBytes_trackBytes hcontiguous hfirst ht data).1 ⟨hstart, hdata⟩
  obtain ⟨hall, rfl⟩ := (m.disc.userData_eq_some_iff _ _ _).1 huser
  obtain ⟨hfile, hsize⟩ := hstored hwrite
  refine ⟨⟨fun _ h => ?_, hall⟩, ⟨hfile, ?_, hsha, m.disc.isoBytes_eq_flat hall, ?_⟩⟩
  · rw [hfirst] at h
    cases h
    exact hheld
  · rw [hsize, m.disc.length_userData huser]
  · exact ofBytes_userData m.disc huser

/-- **All or nothing, and exact.** A conversion that returns has the user data of all sectors of the
track, and met no failure and no cancellation; it returns if nothing fails, there is space, and the
track can be converted; if it raises, there is no ISO file, provided that the removal goes through
and that the finished file can be measured. -/
theorem convertCdDataTrackToIso_exact {σ : Oracle} (hcontiguous : Contiguous tracks)
    (hnumbers : (tracks.map (·.number)).Nodup) (ht : track ∈ tracks) (hkind : track.kind ≠ .audio)
    (hbin : w.files bin = some ((m.disc.trackBytes tracks).take k)) (hiso : w.files iso = none) :
    let convert := convertCdDataTrackToIso m.toExternals bin iso tracks track.number progress
    let outcome := execute m σ convert w
    Stores (made (issued m σ convert w)) iso →
    (∀ s ∈ issued m σ convert w, s.op = .unlink iso ∨ s.op = .stat iso → s.choice.fault = none) →
    (∀ image, outcome.result = .ok image →
      Convertible m.disc tracks track ((m.disc.trackBytes tracks).take k) ∧
      Converted m iso track image outcome.world ∧
      ∀ x ∈ answers (handlers m σ) convert 0 w, x.1.Fine x.2) ∧
    (∀ e, outcome.result = .error e → outcome.world.files iso = none) ∧
    (σ = noFaults → ((∃ image, outcome.result = .ok image) ↔
      track.sectors * 2048 ≤ m.free iso.dir.volume ∧
      Convertible m.disc tracks track ((m.disc.trackBytes tracks).take k))) := by
  intro convert outcome hwrite hclean
  have hconverts : ensures (allowing m (made (issued m σ convert w))) convert _ w :=
    wp_convertCdDataTrackToIso hcontiguous hnumbers ht hbin hwrite
  have habsent : wp (allowing m (made (issued m σ convert w))) convert _ _ w :=
    wp_convert_absent hbin hwrite
      (by rintro c ⟨s, hs, hop, rfl⟩; exact hclean s hs (.inl hop))
      (by rintro c ⟨s, hs, hop, rfl⟩; exact hclean s hs (.inr hop)) hiso
  have hok := execute_of_wp_issued forall_made hconverts
  have hraise := execute_of_wp_issued forall_made habsent
  refine ⟨fun image himage => ?_, hraise.2, ?_⟩
  · obtain ⟨hconvertible, hconverted⟩ := hok.1 image himage
    exact ⟨hconvertible, hconverted, fine_of_run strict_convertCdDataTrackToIso himage⟩
  · rintro rfl
    have hconvert : wp (calm m) convert _ _ w := calm_convertCdDataTrackToIso hbin hiso
    have hcalm := execute_of_wp (σ := noFaults) (fun _ _ => rfl) hconvert
    -- Without failures the conversion returns exactly when there is something to convert to.
    have hiff : (∃ data, ConvertsTo m iso.dir.volume tracks track.number
        ((m.disc.trackBytes tracks).take k) data) ↔ track.sectors * 2048 ≤ m.free iso.dir.volume ∧
          Convertible m.disc tracks track ((m.disc.trackBytes tracks).take k) := by
      simp only [convertsTo_iff hcontiguous hnumbers ht hkind]
      exact ⟨fun ⟨_, hspace, h, _⟩ => ⟨hspace, h⟩, fun ⟨hspace, h⟩ => ⟨_, hspace, h, rfl⟩⟩
    rw [← hiff]
    constructor
    · rintro ⟨image, himage⟩
      obtain ⟨data, hdata, -⟩ := hcalm.1 image himage
      exact ⟨data, hdata⟩
    · intro hdata
      cases hr : outcome.result with
      | ok image => exact ⟨image, rfl⟩
      | error e => exact absurd hdata (hcalm.2 e hr)

/-! ### A finished file that cannot be measured -/

theorem isUserSector_rawSector (n : ℕ) : IsUserSector (rawSector n) := ⟨rfl, .inl rfl⟩

/-- The archive of the sample CD. -/
def archivedWorld : World :=
  World.blank.setFile deadBin (some ((sampleDisc 0x08).trackBytes [sampleTrack]))

theorem archivedWorld_bin : archivedWorld.files deadBin = some (((sampleDisc 0x08).trackBytes
    [sampleTrack]).take ((sampleDisc 0x08).trackBytes [sampleTrack]).length) := by
  rw [List.take_length]
  exact World.setFile_files_self ..

theorem archivedWorld_iso : archivedWorld.files sampleImage = none :=
  World.setFile_files_of_ne _ _ (by decide)

theorem convertible_sampleTrack : Convertible (sampleDisc 0x08) [sampleTrack] sampleTrack
    (((sampleDisc 0x08).trackBytes [sampleTrack]).take
      ((sampleDisc 0x08).trackBytes [sampleTrack]).length) := by
  refine ⟨fun first hfirst => ?_, fun i _ => isUserSector_rawSector _⟩
  cases hfirst
  rw [List.take_length, Disc.trackBytes, List.flatMap_singleton, Disc.length_raws]
  exact le_rfl

/-- The theorem for the archive of the sample CD. -/
theorem convertCdDataTrackToIso_exact_sample : ∃ image,
    (execute (sampleMachine 0x08) noFaults (convertCdDataTrackToIso (sampleMachine 0x08).toExternals
      deadBin sampleImage [sampleTrack] sampleTrack.number true) archivedWorld).result = .ok image ∧
    image.size = 24 * 2048 := by
  obtain ⟨hok, -, hcalm⟩ := @convertCdDataTrackToIso_exact (sampleMachine 0x08) archivedWorld
    [sampleTrack] sampleTrack _ deadBin sampleImage true noFaults (List.isChain_singleton _)
    (List.nodup_singleton _) (List.mem_singleton_self _) (by decide) archivedWorld_bin
    archivedWorld_iso (stores_issued _) fun _ hs _ => by rw [choice_of_mem_issued hs]
  obtain ⟨image, himage⟩ := (hcalm rfl).2 ⟨by decide, convertible_sampleTrack⟩
  exact ⟨image, himage, (hok image himage).2.1.size⟩

theorem convertLoop_notStat {remaining : ℕ} {left digest : Bytes} :
    (convertLoop bin iso track progress remaining left digest).Uses Op.NotStat := by
  induction remaining generalizing left digest with
  | zero => trivial
  | succ remaining ih =>
    have hcheckpoint : checkpoint.Uses (Op.Within ∅ ∅) := checkpoint_within
    have hprogress : ∀ b snapshot, (emitProgress b snapshot).Uses (Op.Within ∅ ∅) := fun _ _ =>
      emitProgress_within
    exact .bind (hcheckpoint.mono fun _ => Op.Within.notStat) fun _ =>
      .bind (uses_of nofun) fun _ =>
      .ite (fun _ => trivial) fun _ => .bind (uses_lift _) fun _ => .bind (uses_of nofun) fun _ =>
        .bind ((hprogress _ _).mono fun _ => Op.Within.notStat) fun _ => ih

theorem convertBody_notStat {firstLba : ℕ} :
    (convertBody bin iso track firstLba progress).Uses Op.NotStat :=
  .bind (uses_of nofun) fun _ => .bind (uses_of nofun) fun _ => .ite (fun _ => trivial)
    fun _ => .bind convertLoop_notStat fun _ => .bind (uses_of nofun) fun _ => trivial

/-- A complete ISO file stays when it cannot be measured. -/
theorem wp_convert_statFails {ext : Externals} {number : ℕ} {source data : Bytes}
    (hbin : w.files bin = some source) (hiso : w.files iso = none)
    (hdata : ConvertsTo m iso.dir.volume tracks number source data) :
    wp (allowing m fun o c => c = statFails 0 o)
      (convertCdDataTrackToIso ext bin iso tracks number progress) (fun _ _ => False)
      (fun _ w' => (w'.files iso).isSome) w := by
  obtain ⟨track, first, htrack, hfirst, hkind, hspace, hstart, hdata⟩ := hdata
  simp only [convertCdDataTrackToIso, htrack, hfirst]
  rw [if_neg hkind]
  refine wp_seq (wp_of_notStat ?_ calm_ensureTemporarySpace) ?_ fun _ _ h => absurd hspace h
  · exact .bind (uses_of nofun) fun _ => .bind (uses_of nofun) fun _ =>
      .ite (fun _ => trivial) fun _ => trivial
  rintro _ w₁ ⟨-, rfl⟩
  refine wp_seq (wp_of_notStat (uses_of nofun) calm_pathExists) ?_ fun _ _ => False.elim
  rintro b w₂ ⟨rfl, rfl⟩
  rw [hiso, if_neg (by simp)]
  refine wp_bind.2 (wp_tryCatch.2 (wp_mono (wp_of_notStat convertBody_notStat
    (wp_and (calm_convertBody hbin hiso)
      (ensures_convertBody (A := fun _ c => c = {}) hbin))) ?_ ?_))
  · rintro digest w₃ ⟨-, -, -, hfile⟩
    have hstored := hfile (stores_calm iso)
    refine wp_bind.2 (wp_call_iff.2 fun c hc => ⟨fun a w' h => ?_, fun e w' h => ?_⟩)
    · rw [hc] at h
      cases h
    · rw [hc] at h
      cases h
      simp [fail, hstored]
  · rintro e w₃ ⟨h, -⟩
    exact absurd ⟨hstart, data, hdata⟩ h

theorem not_convertCdDataTrackToIso_exact :
    ¬ ∀ (m : Machine) (σ : Oracle) (w : World) (tracks : List CDTrack) (track : CDTrack) (k : ℕ)
      (bin iso : Path) (progress : Bool), Contiguous tracks → (tracks.map (·.number)).Nodup →
      track ∈ tracks → track.kind ≠ .audio →
      w.files bin = some ((m.disc.trackBytes tracks).take k) → w.files iso = none →
      Stores σ.choices iso →
      ∀ e, (execute m σ (convertCdDataTrackToIso m.toExternals bin iso tracks track.number
          progress) w).result = .error e →
        (execute m σ (convertCdDataTrackToIso m.toExternals bin iso tracks track.number
          progress) w).world.files iso = none := by
  intro h
  have hdata : ConvertsTo (sampleMachine 0x08) sampleImage.dir.volume [sampleTrack]
      sampleTrack.number _ _ :=
    (convertsTo_iff (List.isChain_singleton _) (List.nodup_singleton _) (List.mem_singleton_self _)
      (by decide) _ _).2 ⟨by decide, convertible_sampleTrack, rfl⟩
  have hfails : wp (allowing (sampleMachine 0x08) fun o c => c = statFails 0 o)
      (convertCdDataTrackToIso (sampleMachine 0x08).toExternals deadBin sampleImage [sampleTrack]
        sampleTrack.number true) _ _ archivedWorld :=
    wp_convert_statFails archivedWorld_bin archivedWorld_iso hdata
  obtain ⟨e, he, hfile⟩ := execute_error_of_wp (σ := statFails) (fun _ _ => rfl) hfails
  have hstores : Stores statFails.choices sampleImage := by
    rintro data c (⟨n, rfl⟩ | ⟨n, rfl⟩) - <;> rfl
  have habsent := h (sampleMachine 0x08) statFails archivedWorld [sampleTrack] sampleTrack _ deadBin
    sampleImage true (List.isChain_singleton _) (List.nodup_singleton _) (List.mem_singleton_self _)
    (by decide) archivedWorld_bin archivedWorld_iso hstores e he
  rw [habsent] at hfile
  cases hfile

end Ps2Ripper
