import Ps2Ripper.Imaging.RipperSpec
import Ps2Ripper.Optical.MediaDetector

/-!
# What an inspected disc looks like

* inspecting a disc changes no file;
* the tracks that `readToc` returns lie one after the other, without gaps (`TrackLayout`);
* the raw bytes of such tracks are one range of sectors, and each track is found in them at the
  distance of its start from the first start.
-/

namespace Ps2Ripper

open Interactive Prog

variable {m : Machine} {A : Op → Choice → Prop} {w : World}

/-! ### Footprints -/

section Footprints

variable {R T : Set Path}

theorem testUnitReady_within : testUnitReady.Uses (Op.Within R T) := by
  refine ⟨by simp, ?_⟩
  rintro (e | a)
  · exact .ite (fun _ => trivial) fun _ => trivial
  · trivial

theorem readCapacity_within : readCapacity.Uses (Op.Within R T) :=
  .bind (uses_of (by simp)) fun _ => .ite (fun _ => trivial) fun _ => trivial

theorem readDvdLayerCount_within : readDvdLayerCount.Uses (Op.Within R T) := by
  refine ⟨by simp, ?_⟩
  rintro (e | a)
  · exact .ite (fun _ => trivial) fun _ => trivial
  · exact .ite (fun _ => trivial) fun _ => trivial

theorem entryKind_within {entry : TocEntry} : (entryKind entry).Uses (Op.Within R T) :=
  .ite (fun _ => .bind (uses_of (by simp)) fun _ => .bind (uses_lift _) fun _ => trivial)
    fun _ => trivial

theorem tocTracks_within {base leadout : ℕ} {entries : List TocEntry} :
    (tocTracks base leadout entries).Uses (Op.Within R T) := by
  induction entries with
  | nil => trivial
  | cons entry rest ih =>
    exact .bind entryKind_within fun _ => .bind (uses_lift _) fun _ => .bind ih fun _ => trivial

theorem readToc_within : readToc.Uses (Op.Within R T) := by
  refine .bind (.bind (uses_of (by simp)) fun data => ?_) fun sessions => ?_
  · exact .ite (fun _ => trivial) fun _ => .ite (fun _ => trivial) fun _ => trivial
  · refine .ite (fun _ => trivial) fun _ => .bind (uses_of (by simp)) fun data =>
      .ite (fun _ => trivial) fun _ => ?_
    dsimp only
    split
    · exact tocTracks_within
    · trivial

theorem systemCnfId_within {sectors : ℕ} {track : Option CDTrack} :
    (systemCnfId (.stream sectors track)).Uses (Op.Within R T) :=
  .bind (uses_of (by simp)) fun _ => .bind (uses_lift _) fun _ => trivial

theorem gameIdFromStream_within {sectors : ℕ} {track : Option CDTrack} :
    (gameIdFromStream (.stream sectors track)).Uses (Op.Within R T) :=
  .tryCatch systemCnfId_within fun _ => .ite (fun _ => trivial) fun _ => trivial

theorem classifyDvd_within {sectors : ℕ} : (classifyDvd sectors).Uses (Op.Within R T) := by
  refine .bind (.tryCatch (uses_of (by simp)) fun e => ?_) fun _ => .ite (fun _ => trivial) fun _ =>
    .bind (.ite (fun _ => uses_of (by simp)) fun _ => trivial) fun _ =>
      .ite (fun _ => trivial) fun _ => trivial
  cases e <;> trivial

theorem inspectDvd_within : inspectDvd.Uses (Op.Within R T) := by
  refine .bind readCapacity_within fun _ => .ite (fun _ => trivial) fun _ =>
    .bind readDvdLayerCount_within fun _ =>
      .tryCatch (.bind gameIdFromStream_within fun _ => trivial) fun e => ?_
  cases e <;> first | exact classifyDvd_within | trivial

theorem identifyCd_within {tracks candidates : List CDTrack} :
    (identifyCd tracks candidates).Uses (Op.Within R T) := by
  induction candidates with
  | nil => trivial
  | cons track rest ih =>
    refine .tryCatch (.bind gameIdFromStream_within fun _ => trivial) fun e => ?_
    cases e <;> first | exact ih | trivial

theorem inspectDisc_within : inspectDisc.Uses (Op.Within R T) :=
  .bind testUnitReady_within fun _ => .ite (fun _ => trivial) fun _ =>
    .bind (.bind (uses_of (by simp)) fun _ => .ite (fun _ => trivial) fun _ => trivial) fun _ =>
      .ite (fun _ => inspectDvd_within) fun _ => .ite (fun _ => .bind readToc_within fun _ =>
        .ite (fun _ => trivial) fun _ => identifyCd_within) fun _ => trivial

end Footprints

/-! ### The layout of the tracks -/

/-- Each track starts where the track before it ends. -/
def Contiguous (tracks : List CDTrack) : Prop :=
  tracks.IsChain fun a b => b.startLba = a.endLba + 1

/-- What `read_toc` guarantees about its tracks. -/
structure TrackLayout (tracks : List CDTrack) : Prop where
  contiguous : Contiguous tracks
  pregap : ∀ t ∈ tracks, t.pregapFrames = 0
  fileIndex : ∀ first ∈ tracks.head?, ∀ t ∈ tracks, t.fileIndexLba = t.startLba - first.startLba

theorem mkTrack_eq_ok {number start base : ℕ} {kind : TrackKind} {endLba : ℤ} {track : CDTrack}
    (h : mkTrack number kind start endLba base = .ok track) :
    track.number = number ∧ track.kind = kind ∧ track.startLba = start ∧
      (track.endLba : ℤ) = endLba ∧
      track.fileIndexLba = (start : ℤ) - base ∧ track.pregapFrames = 0 := by
  unfold mkTrack at h
  split at h
  · cases h
  · cases h
    exact ⟨rfl, rfl, rfl, Int.toNat_of_nonneg (by omega), rfl, rfl⟩

theorem ensures_tocTracks {base leadout : ℕ} {entries : List TocEntry} :
    ensures (allowing m A) (tocTracks base leadout entries) (fun tracks _ =>
      tracks.head?.map (·.startLba) = entries.head?.map (·.lba) ∧ Contiguous tracks ∧
        (∀ t ∈ tracks, t.pregapFrames = 0 ∧ t.fileIndexLba = t.startLba - base)) w := by
  induction entries generalizing w with
  | nil => exact ensures_return ⟨rfl, List.isChain_nil, by simp⟩
  | cons entry rest ih =>
    refine ensures_bind (ensures_true allowing_permissive _) fun kind w₁ _ => ?_
    refine ensures_bind (Q := fun track _ => mkTrack entry.number kind entry.lba _ base = .ok track)
      (ensures_lift fun _ h => h) fun track w₂ htrack => ?_
    obtain ⟨-, -, hstart, hend, hindex, hpre⟩ := mkTrack_eq_ok htrack
    refine ensures_bind ih ?_
    rintro tracks w₃ ⟨hhead, hchain, hall⟩
    refine ensures_return ⟨by simp [hstart], ?_, ?_⟩
    · cases tracks with
      | nil => exact List.isChain_singleton _
      | cons next others =>
        refine List.isChain_cons_cons.2 ⟨?_, hchain⟩
        cases rest with
        | nil => simp at hhead
        | cons after more =>
          simp only [List.head?_cons, Option.map_some, Option.some.injEq] at hhead
          simp only at hend
          omega
    · rintro t (_ | ⟨_, ht⟩)
      · exact ⟨hpre, by rw [hindex, hstart]⟩
      · exact hall t ht

/-- The tracks of a table of contents lie one after the other. -/
theorem ensures_readToc :
    ensures (allowing m A) readToc (fun tracks _ => TrackLayout tracks) w := by
  refine ensures_bind (ensures_true allowing_permissive _) fun sessions w₁ _ => ?_
  split
  · trivial
  refine ensures_bind (ensures_true allowing_permissive _) fun data w₂ _ => ?_
  split
  · trivial
  dsimp only
  split
  case h_2 => trivial
  case h_1 first rest leadout htracks hleadout =>
  refine ensures_mono ensures_tocTracks ?_
  rintro tracks w₃ ⟨hhead, hchain, hall⟩
  refine ⟨hchain, fun t ht => (hall t ht).1, fun head hh t ht => ?_⟩
  rw [htracks, hh] at hhead
  simp only [List.head?_cons, Option.map_some, Option.some.injEq] at hhead
  rw [(hall t ht).2, hhead]

theorem TrackLayout.nil : TrackLayout [] := ⟨List.isChain_nil, by simp, by simp⟩

theorem ensures_identifyCd {tracks candidates : List CDTrack} :
    ensures (allowing m A) (identifyCd tracks candidates)
      (fun disc _ => disc.tracks = tracks) w := by
  induction candidates generalizing w with
  | nil => exact ensures_return rfl
  | cons track rest ih =>
    refine ensures_tryCatch (ensures_bind (ensures_true allowing_permissive _) fun _ _ _ =>
      ensures_return rfl) fun e w' => ?_
    cases e <;> first | exact ih | trivial

theorem ensures_classifyDvd {sectors : ℕ} :
    ensures (allowing m A) (classifyDvd sectors) (fun disc _ => disc.tracks = []) w := by
  refine ensures_bind (ensures_true allowing_permissive _) fun video _ _ => ?_
  split
  · exact ensures_return rfl
  refine ensures_bind (ensures_true allowing_permissive _) fun signature _ _ => ?_
  split
  · exact ensures_return rfl
  · exact ensures_return rfl

theorem ensures_inspectDvd :
    ensures (allowing m A) inspectDvd (fun disc _ => disc.tracks = []) w := by
  refine ensures_bind (ensures_true allowing_permissive _) fun capacity _ _ => ?_
  dsimp only
  split
  · exact ensures_return rfl
  refine ensures_bind (ensures_true allowing_permissive _) fun layers _ _ => ?_
  refine ensures_tryCatch (ensures_bind (ensures_true allowing_permissive _) fun _ _ _ =>
    ensures_return rfl) fun e w' => ?_
  cases e <;> first | exact ensures_classifyDvd | trivial

/-- Every identity that `inspect_disc` returns carries the tracks of a table of contents. -/
theorem ensures_inspectDisc :
    ensures (allowing m A) inspectDisc (fun disc _ => TrackLayout disc.tracks) w := by
  refine ensures_bind (ensures_true allowing_permissive _) fun ready _ _ => ?_
  split
  · exact ensures_return TrackLayout.nil
  refine ensures_bind (ensures_true allowing_permissive _) fun profile _ _ => ?_
  split
  · refine ensures_mono ensures_inspectDvd fun disc _ h => ?_
    rw [h]
    exact TrackLayout.nil
  split
  · refine ensures_bind ensures_readToc fun tracks _ hlayout => ?_
    dsimp only
    split
    · exact ensures_return hlayout
    · refine ensures_mono ensures_identifyCd fun disc _ h => ?_
      rw [h]
      exact hlayout
  · exact ensures_return TrackLayout.nil

/-- An identity that some run of `inspect_disc` returned. -/
def Inspected (disc : DiscIdentity) : Prop :=
  ∃ m σ w, (execute m σ inspectDisc w).result = .ok disc

theorem Inspected.layout {disc : DiscIdentity} (h : Inspected disc) : TrackLayout disc.tracks := by
  obtain ⟨m, σ, w, h⟩ := h
  have hc : (allowing m fun _ _ => True).Admits (handlers m σ) := allowing_admits fun _ _ => trivial
  exact (run_of_wp hc ensures_inspectDisc).1 disc h

/-! ### The bytes of contiguous tracks -/

/-- The sectors from the first track to the last one are the sectors of the tracks. -/
theorem Disc.trackBytes_eq (d : Disc) {tracks : List CDTrack} (h : Contiguous tracks)
    {first last : CDTrack} (hfirst : tracks.head? = some first)
    (hlast : tracks.getLast? = some last) :
    first.startLba ≤ last.endLba ∧
      d.trackBytes tracks = d.raws first.startLba (last.endLba + 1 - first.startLba) := by
  induction tracks generalizing first with
  | nil => cases hfirst
  | cons track rest ih =>
    cases hfirst
    cases rest with
    | nil =>
      cases hlast
      exact ⟨track.start_le_end, by simp [Disc.trackBytes, track.sectors_eq]⟩
    | cons next others =>
      obtain ⟨hnext, hrest⟩ := List.isChain_cons_cons.1 h
      obtain ⟨hle, heq⟩ := ih hrest rfl (by simpa using hlast)
      have hle' := track.start_le_end
      refine ⟨by omega, ?_⟩
      rw [Disc.trackBytes, List.flatMap_cons, ← Disc.trackBytes, heq, hnext]
      have hsplit : track.startLba + track.sectors = track.endLba + 1 := by
        rw [← track.sectors_eq]
        omega
      rw [← hsplit, Disc.raws_append]
      congr 1
      rw [← track.sectors_eq]
      omega

/-- Of two contiguous tracks the earlier one ends before the later one starts. -/
theorem Contiguous.pairwise {tracks : List CDTrack} (h : Contiguous tracks) :
    tracks.Pairwise fun a b => a.endLba < b.startLba := by
  have htrans : IsTrans CDTrack fun a b => a.endLba < b.startLba :=
    ⟨fun _ b _ hab hbc => hab.trans (lt_of_le_of_lt b.start_le_end hbc)⟩
  exact List.isChain_iff_pairwise.1 (h.imp fun a b hab => by omega)

/-- A track of contiguous tracks lies between the first start and the last end. -/
theorem Contiguous.bounds {tracks : List CDTrack} (h : Contiguous tracks) {first last t : CDTrack}
    (hfirst : tracks.head? = some first) (hlast : tracks.getLast? = some last) (ht : t ∈ tracks) :
    first.startLba ≤ t.startLba ∧ t.endLba ≤ last.endLba := by
  induction tracks generalizing first t with
  | nil => cases hfirst
  | cons track rest ih =>
    cases hfirst
    cases rest with
    | nil =>
      cases hlast
      simp only [List.mem_singleton] at ht
      subst ht
      exact ⟨le_rfl, le_rfl⟩
    | cons next others =>
      obtain ⟨hnext, hrest⟩ := List.isChain_cons_cons.1 h
      have hle := track.start_le_end
      have hlast' : (next :: others).getLast? = some last := by simpa using hlast
      obtain rfl | ht := List.mem_cons.1 ht
      · have := ih hrest rfl hlast' (List.mem_cons_self ..)
        have := next.start_le_end
        exact ⟨le_rfl, by omega⟩
      · have := ih hrest rfl hlast' ht
        exact ⟨by omega, this.2⟩

/-- Where there is a first track there is a last one. -/
theorem exists_last_of_first {tracks : List CDTrack} {first : CDTrack}
    (hfirst : tracks.head? = some first) : ∃ last, tracks.getLast? = some last := by
  cases tracks with
  | nil => cases hfirst
  | cons track rest => exact ⟨_, List.getLast?_eq_getLast_of_ne_nil (by simp)⟩

theorem TrackLayout.first_le {tracks : List CDTrack} (h : TrackLayout tracks) {first t : CDTrack}
    (hfirst : tracks.head? = some first) (ht : t ∈ tracks) : first.startLba ≤ t.startLba := by
  obtain ⟨last, hlast⟩ := exists_last_of_first hfirst
  exact (h.contiguous.bounds hfirst hlast ht).1

/-- The bytes of a track inside the bytes of all tracks. -/
theorem Disc.drop_trackBytes (d : Disc) {tracks : List CDTrack} (h : Contiguous tracks)
    {first t : CDTrack} (hfirst : tracks.head? = some first) (ht : t ∈ tracks) :
    ∃ rest, (d.trackBytes tracks).drop ((t.startLba - first.startLba) * 2352) =
      d.raws t.startLba t.sectors ++ rest := by
  obtain ⟨last, hlast⟩ := exists_last_of_first hfirst
  obtain ⟨hstart, hend⟩ := h.bounds hfirst hlast ht
  obtain ⟨-, heq⟩ := d.trackBytes_eq h hfirst hlast
  have hle := t.start_le_end
  have hsect := t.sectors_eq
  have hsplit : last.endLba + 1 - first.startLba =
      (t.startLba - first.startLba) + (t.sectors + (last.endLba - t.endLba)) := by omega
  refine ⟨d.raws (t.startLba + t.sectors) (last.endLba - t.endLba), ?_⟩
  rw [heq, hsplit, ← Disc.raws_append, ← d.length_raws first.startLba, List.drop_left,
    Nat.add_sub_cancel' hstart, Disc.raws_append]

/-- The user data of the sectors `lba, …, lba + n - 1`, if all of them have some. -/
def Disc.userData (d : Disc) (lba : ℕ) : ℕ → Option Bytes
  | 0 => some []
  | n + 1 => do
    let data ← (extract2048UserData (d.raw lba)).toOption
    let rest ← d.userData (lba + 1) n
    return data ++ rest

theorem Disc.raws_succ (d : Disc) (lba n : ℕ) :
    d.raws lba (n + 1) = d.raw lba ++ d.raws (lba + 1) n := by
  simp [Disc.raws, List.range'_succ]

/-- Converting raw sectors gives their user data. -/
theorem convertBytes_raws (d : Disc) (lba n : ℕ) (rest : Bytes) :
    convertBytes n (d.raws lba n ++ rest) = d.userData lba n := by
  induction n generalizing lba with
  | zero => rfl
  | succ n ih =>
    have hlen := d.raw_length lba
    rw [Disc.raws_succ, List.append_assoc, convertBytes, Disc.userData, if_neg (by simp [hlen]),
      ← hlen, List.take_left, List.drop_left, ih]

theorem Disc.length_userData (d : Disc) {lba n : ℕ} {data : Bytes}
    (h : d.userData lba n = some data) : data.length = n * 2048 := by
  induction n generalizing lba data with
  | zero =>
    cases h
    rfl
  | succ n ih =>
    simp only [Disc.userData, Option.bind_eq_bind, Option.bind_eq_some_iff, Option.pure_def,
      Option.some.injEq] at h
    obtain ⟨first, hfirst, rest, hrest, rfl⟩ := h
    have h1 : first.length = 2048 := by
      cases hx : extract2048UserData (d.raw lba) with
      | error e => simp [hx, Except.toOption] at hfirst
      | ok x =>
        simp only [hx, Except.toOption, Option.some.injEq] at hfirst
        exact hfirst ▸ length_of_extract2048UserData hx
    rw [List.length_append, h1, ih hrest]
    omega

end Ps2Ripper
