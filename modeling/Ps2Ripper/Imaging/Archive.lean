import Ps2Ripper.Imaging.CueReader
import Ps2Ripper.Imaging.DvdCoverage

/-!
# The archive of a CD

A BIN/CUE pair that `rip_cd_bin_cue` leaves behind describes the disc: the BIN file is the range of
raw sectors from the first track to the last, and reading the CUE file gives every track and the
position in the BIN file at which it starts.  The positions come from differences of addresses and
the bytes from the loop over the tracks; they agree because the tracks of a table of contents are
contiguous.  When the call raises neither file stays, unless one of them cannot be removed or the
finished BIN file cannot be measured.
-/

namespace Ps2Ripper

open Interactive Prog

/-! ### Names of files -/

/-- A file name of Windows without a double quote. -/
structure IsFileName (name : List Char) : Prop where
  ne_nil : name ≠ []
  ne_dot : name ≠ ['.']
  allowed : ∀ c ∈ name, c ≠ '/' ∧ c ≠ '\\' ∧ c ≠ ':' ∧ c ≠ '"'

theorem IsFileName.pathName_eq {name : List Char} (h : IsFileName name) : pathName name = name := by
  have hsplit : name.splitOnP (fun c => c = '/' || c = '\\') = [name] :=
    List.splitOnP_eq_singleton fun c hc => by simp [(h.allowed c hc).1, (h.allowed c hc).2.1]
  unfold pathName
  split
  · rename_i drive rest
    exact absurd rfl (h.allowed ':' (by simp)).2.2.1
  · simp [hsplit, h.ne_nil, h.ne_dot]

theorem IsFileName.safeName_eq {name : List Char} (h : IsFileName name) : safeName name = name := by
  have hkeep : ∀ c ∈ name, (if c = '"' then '\'' else c) = id c := fun c hc =>
    if_neg (h.allowed c hc).2.2.2
  rw [safeName, h.pathName_eq, List.map_congr_left hkeep, List.map_id]

/-! ### Where a track lies in the archive -/

variable {m : Machine} {A : Op → Choice → Prop} {w : World}

theorem Disc.trackBytes_append (d : Disc) (tracks tracks' : List CDTrack) :
    d.trackBytes (tracks ++ tracks') = d.trackBytes tracks ++ d.trackBytes tracks' :=
  List.flatMap_append

/-- The bytes of the tracks around the `i`-th one. -/
theorem Disc.trackBytes_split (d : Disc) {tracks : List CDTrack} {i : ℕ} {track : CDTrack}
    (hi : tracks[i]? = some track) :
    d.trackBytes tracks = d.trackBytes (tracks.take i) ++ d.raws track.startLba track.sectors ++
      d.trackBytes (tracks.drop (i + 1)) := by
  obtain ⟨hlt, rfl⟩ := List.getElem?_eq_some_iff.1 hi
  conv_lhs => rw [← List.take_append_drop i tracks, List.drop_eq_getElem_cons hlt]
  rw [d.trackBytes_append, List.append_assoc]
  rfl

/-- The tracks before the `i`-th one fill the file up to its start. -/
theorem Disc.length_trackBytes_take (d : Disc) {tracks : List CDTrack} (h : Contiguous tracks)
    {first track : CDTrack} {i : ℕ} (hfirst : tracks.head? = some first)
    (hi : tracks[i]? = some track) :
    first.startLba ≤ track.startLba ∧
      (d.trackBytes (tracks.take i)).length = (track.startLba - first.startLba) * 2352 := by
  induction tracks generalizing first i with
  | nil => cases hfirst
  | cons head rest ih =>
    cases hfirst
    cases i with
    | zero =>
      cases hi
      exact ⟨le_rfl, by simp [Disc.trackBytes]⟩
    | succ i =>
      cases rest with
      | nil => simp at hi
      | cons next others =>
        obtain ⟨hnext, hrest⟩ := List.isChain_cons_cons.1 h
        obtain ⟨hle, hlen⟩ := ih hrest rfl (by simpa using hi)
        have hsect := head.sectors_eq
        have hhead := head.start_le_end
        refine ⟨by omega, ?_⟩
        rw [List.take_succ_cons, Disc.trackBytes, List.flatMap_cons, List.length_append,
          d.length_raws, ← Disc.trackBytes, hlen]
        omega

/-- The bytes of a BIN file and the sheet that was read from the CUE file describe the tracks. -/
structure Faithful (d : Disc) (tracks : List CDTrack) (name : List Char) (data : Bytes)
    (sheet : CueSheet) : Prop where
  bin : ∃ first last, tracks.head? = some first ∧ tracks.getLast? = some last ∧
    data = d.raws first.startLba (last.endLba + 1 - first.startLba)
  file : sheet.file = name
  entries : sheet.tracks.map (fun entry => (entry.number, entry.kind)) =
    tracks.map fun track => (track.number, track.kind)
  index : ∀ i track entry, tracks[i]? = some track → sheet.tracks[i]? = some entry →
    entry.index.seconds < 60 ∧ entry.index.frames < 75 ∧
      ∃ before after, data = before ++ d.raws track.startLba track.sectors ++ after ∧
        before = d.trackBytes (tracks.take i) ∧ entry.index.byteOffset = before.length

/-- The sheet of the adjusted tracks belongs to the bytes of the tracks. -/
theorem faithful_of_generateCue (d : Disc) {tracks : List CDTrack} (h : TrackLayout tracks)
    {first : CDTrack} (hfirst : tracks.head? = some first) {name text : List Char}
    (hname : IsFileName name)
    (htext : generateCue name (adjustTracks first.startLba tracks) = .ok text) :
    ∃ sheet, readCue (encodeUtf8 text) = some sheet ∧
      Faithful d tracks name (d.trackBytes tracks) sheet := by
  obtain ⟨last, hlast⟩ := exists_last_of_first hfirst
  refine ⟨_, readCue_generateCue htext, ?_, hname.safeName_eq, ?_, ?_⟩
  · exact ⟨first, last, hfirst, hlast, (d.trackBytes_eq h.contiguous hfirst hlast).2⟩
  · simp [adjustTracks, CueTrack.ofTrack, Function.comp_def]
  · intro i track entry htrack hentry
    obtain ⟨hle, hlen⟩ := d.length_trackBytes_take h.contiguous hfirst htrack
    have hindex : entry.index = Msf.ofFrames (track.startLba - first.startLba) := by
      simp only [adjustTracks, List.map_map, List.getElem?_map, htrack, Option.map_some,
        Option.some.injEq] at hentry
      subst hentry
      simp only [CueTrack.ofTrack, Function.comp_apply]
      congr 1
      omega
    rw [hindex]
    exact ⟨Msf.seconds_ofFrames_lt _, Msf.frames_ofFrames_lt _, _, _,
      d.trackBytes_split htrack, rfl,
      by rw [Msf.byteOffset_ofFrames, hlen]⟩

/-! ### Nothing is left behind -/

/-- Writes store all bytes or raise, and files can be measured and removed. -/
def StoresAndRemoves (o : Op) (c : Choice) : Prop :=
  match o with
  | .write .. | .writeText .. => c.fault = none → c.stored = none
  | .stat _ | .unlink _ => c.fault = none
  | _ => True

theorem stores_storesAndRemoves (p : Path) : Stores StoresAndRemoves p := by
  rintro data c (hc | hc) <;> exact hc

theorem wp_unlink {p : Path} {E : PyError → World → Prop} :
    wp (allowing m StoresAndRemoves) (call (.unlink p))
      (fun _ w' => w' = w.setFile p none) E w := by
  refine wp_call_iff.2 fun c hc => ⟨fun _ w' h => ?_, fun e w' h => ?_⟩
  · cases succeed_of_perform_ok h
    rfl
  · obtain h | ⟨hfault, -, -⟩ := cases_of_perform_error h
    · cases h
    · cases hfault.symm.trans hc

theorem wp_stat {p : Path} {data : Bytes} (hp : w.files p = some data)
    {E : PyError → World → Prop} :
    wp (allowing m StoresAndRemoves) (call (.stat p)) (fun _ w' => w' = w) E w := by
  refine wp_call_iff.2 fun c hc => ⟨fun _ w' h => ?_, fun e w' h => ?_⟩
  · have hs := succeed_of_perform_ok h
    simp only [succeed, hp] at hs
    cases hs
    rfl
  · obtain h | ⟨hfault, -, -⟩ := cases_of_perform_error h
    · simp only [succeed, hp] at h
      cases h
    · cases hfault.symm.trans hc

/-- The handler removes every output that was there, and no other file comes into being. -/
theorem wp_removeAndRaise {α : Type} {outputs : List Path} {e : PyError} {Q : α → World → Prop} :
    wp (allowing m StoresAndRemoves) (removeAndRaise outputs e) Q
      (fun _ w' => ∀ p, p ∈ outputs ∨ w.files p = none → w'.files p = none) w := by
  induction outputs generalizing w with
  | nil => exact fun p h => h.resolve_left (by simp)
  | cons q rest ih =>
    refine wp_seq wp_unlink (fun _ w₁ h₁ => ?_) fun _ _ => id
    subst h₁
    refine wp_mono ih (fun _ _ => id) fun _ w' h p hp => h p ?_
    by_cases hq : p = q
    · subst hq
      exact .inr (by simp)
    · refine hp.imp (fun hp => (List.mem_cons.1 hp).resolve_left hq) fun hp => ?_
      rw [World.setFile_files_of_ne _ _ hq, hp]

/-- When `rip_cd_bin_cue` raises, neither file is there. -/
theorem wp_ripCdBinCue_absent {ext : Externals} {bin cue : Path} (hne : bin ≠ cue)
    {tracks : List CDTrack} {progress : Bool} {chunk : ChunkSize} {maxRetries : ℕ}
    (hbin : w.files bin = none) (hcue : w.files cue = none) :
    wp (allowing m StoresAndRemoves) (ripCdBinCue ext bin cue tracks progress chunk maxRetries)
      (fun _ _ => True) (fun _ w' => w'.files bin = none ∧ w'.files cue = none) w := by
  unfold ripCdBinCue
  split
  case h_2 => exact ⟨hbin, hcue⟩
  case h_1 first last hfirst hlast =>
  have same : ∀ {w' : World}, Frame ∅ w w' → w'.files bin = none ∧ w'.files cue = none :=
    fun h => by rw [h.files_eq]; exact ⟨hbin, hcue⟩
  refine wp_seq (wp_frame (R := ∅) (T := ∅) ensureTemporarySpace_within) ?_ fun _ w' h => same h
  intro _ w₁ h₁
  refine wp_seq (wp_frame (R := {bin, cue}) (T := ∅) (eitherExists_within (by simp) (by simp)))
    ?_ fun _ w' h => same (h₁.trans h)
  intro present w₂ h₂
  split
  · refine wp_mono (wp_frame (R := {bin, cue}) (T := ∅) (raiseExisting_within (by simp)))
      (fun _ _ _ => trivial) fun _ w' h => same ((h₁.trans h₂).trans h)
  · refine wp_bind.2 (wp_mono
      (?_ : wp _ _ (fun _ w' => w'.files bin = some (m.disc.trackBytes tracks))
        (fun _ w' => w'.files bin = none ∧ w'.files cue = none) w₂) ?_ fun _ _ => id)
    · refine wp_tryCatch.2 (wp_mono (ensures_ripCdBody hne) ?_ fun e w' _ => ?_)
      · rintro s w' ⟨-, -, hfile, -⟩
        exact hfile (stores_storesAndRemoves bin)
      · exact wp_mono wp_removeAndRaise (fun _ _ h => h) fun _ w'' h =>
          ⟨h bin (by simp), h cue (by simp)⟩
    · intro s w₃ h₃
      exact wp_seq (wp_stat h₃) (fun _ _ _ => trivial) fun _ _ => id

/-- **The archive is faithful.** A BIN/CUE pair that is returned describes the disc, and when the
call raises neither of the two files is there, as long as every file that the run measures or
removes can be measured or removed. -/
theorem archive_faithful {tracks : List CDTrack}
    (htoc : ∃ m' σ' w', (execute m' σ' readToc w').result = .ok tracks) {ext : Externals}
    {bin cue : Path} (hne : bin ≠ cue) (hname : IsFileName bin.fileName)
    (hbin : w.files bin = none) (hcue : w.files cue = none) {σ : Oracle}
    (progress : Bool) (chunk : ChunkSize) (maxRetries : ℕ)
    (hσ : ∀ s ∈ issued m σ (ripCdBinCue ext bin cue tracks progress chunk maxRetries) w,
      StoresAndRemoves s.op s.choice) :
    let run := execute m σ (ripCdBinCue ext bin cue tracks progress chunk maxRetries) w
    (∀ image, run.result = .ok image → ∃ data sheetBytes sheet,
      run.world.files bin = some data ∧ run.world.files cue = some sheetBytes ∧
        readCue sheetBytes = some sheet ∧ Faithful m.disc tracks bin.fileName data sheet) ∧
    (∀ e, run.result = .error e → run.world.files bin = none ∧ run.world.files cue = none) := by
  obtain ⟨m', σ', w', htoc⟩ := htoc
  have hlayout : TrackLayout tracks :=
    (execute_of_wp (A := fun _ _ => True) (fun _ _ => trivial) ensures_readToc).1 tracks htoc
  refine ⟨fun image himage => ?_,
    (execute_of_wp_issued hσ (wp_ripCdBinCue_absent hne hbin hcue)).2⟩
  obtain ⟨-, -, -, hfile, first, text, hfirst, htext, -, hsheet⟩ :=
    (execute_of_wp_issued hσ (ensures_ripCdBinCue hne)).1 image himage
  obtain ⟨sheet, hread, hfaithful⟩ := faithful_of_generateCue m.disc hlayout hfirst hname htext
  exact ⟨_, _, sheet, (hfile (stores_storesAndRemoves bin)).1, hsheet (stores_storesAndRemoves cue),
    hread, hfaithful⟩

def sampleBin : Path := { dir := .task "C:\\Temp" 0, name := "SLUS_123.45.Sample.bin" }

def sampleCue : Path := { dir := .task "C:\\Temp" 0, name := "SLUS_123.45.Sample.cue" }

theorem isFileName_sampleBin : IsFileName sampleBin.fileName := by
  have hname : sampleBin.fileName = "SLUS_123.45.Sample.bin".toList := rfl
  rw [hname]
  exact ⟨by decide, by decide, by simp⟩

theorem archivable_sampleBin : Archivable (sampleMachine 0x08) sampleBin.dir.volume
    sampleBin.fileName [sampleTrack] :=
  ⟨sampleTrack, sampleTrack, rfl, rfl, by show 24 * 2352 ≤ 1000000; decide, _, rfl⟩

/-- The sample CD is archived. -/
theorem archive_faithful_sample :
    let run := execute (sampleMachine 0x08) noFaults (ripCdBinCue (sampleMachine 0x08).toExternals
      sampleBin sampleCue [sampleTrack] false ⟨16, by decide⟩ 8) World.blank
    ∃ data sheetBytes sheet,
      run.world.files sampleBin = some data ∧ run.world.files sampleCue = some sheetBytes ∧
        readCue sheetBytes = some sheet ∧
        Faithful (sampleDisc 0x08) [sampleTrack] sampleBin.fileName data sheet := by
  have hne : sampleBin ≠ sampleCue := by decide
  obtain ⟨hok, herror⟩ := @archive_faithful (sampleMachine 0x08) World.blank [sampleTrack]
    ⟨_, _, World.blank, result_of_consult readToc_within consult_readToc⟩
    (sampleMachine 0x08).toExternals sampleBin sampleCue hne isFileName_sampleBin rfl rfl noFaults
    false ⟨16, by decide⟩ 8
    (forall_issued fun _ o => by cases o <;> first | trivial | exact fun _ => rfl)
  have hrip : wp (calm (sampleMachine 0x08)) (ripCdBinCue (sampleMachine 0x08).toExternals sampleBin
    sampleCue [sampleTrack] false ⟨16, by decide⟩ 8) _ _ World.blank :=
    calm_ripCdBinCue hne rfl rfl
  have hcalm := run_of_wp (n := 0) (allowing_admits (σ := noFaults) (A := fun _ c => c = {})
    fun _ _ => rfl) hrip
  cases hresult : (execute (sampleMachine 0x08) noFaults (ripCdBinCue
      (sampleMachine 0x08).toExternals sampleBin sampleCue [sampleTrack] false ⟨16, by decide⟩ 8)
      World.blank).result with
  | ok image => exact hok image hresult
  | error e => exact absurd archivable_sampleBin (hcalm.2 e hresult)

/-! ### A BIN file that cannot be measured -/

theorem ripCdBody_notStat {bin cue : Path} {tracks : List CDTrack}
    {firstLba total maxRetries : ℕ} {progress : Bool} {chunk : ChunkSize} :
    (ripCdBody bin cue tracks firstLba total progress chunk maxRetries).Uses Op.NotStat := by
  have htracks : (ripCdTracks bin total progress chunk maxRetries tracks {}).Uses
      (Op.Within ∅ {bin}) := ripCdTracks_within rfl
  exact .bind (uses_of nofun) fun _ => .bind (htracks.mono fun _ => Op.Within.notStat) fun _ =>
    .bind (uses_of nofun) fun _ => .bind (uses_lift _) fun _ => .bind (uses_of nofun)
      fun _ => trivial

/-- A complete archive stays when its BIN file cannot be measured. -/
theorem wp_ripCdBinCue_statFails {ext : Externals} {bin cue : Path} {tracks : List CDTrack}
    {progress : Bool} {chunk : ChunkSize} {maxRetries : ℕ} (hne : bin ≠ cue)
    (hbin : w.files bin = none) (hcue : w.files cue = none)
    (harch : Archivable m bin.dir.volume bin.fileName tracks) :
    wp (allowing m fun o c => c = statFails 0 o)
      (ripCdBinCue ext bin cue tracks progress chunk maxRetries) (fun _ _ => False)
      (fun _ w' => (w'.files bin).isSome) w := by
  obtain ⟨first, last, hfirst, hlast, hfree, htext⟩ := harch
  simp only [ripCdBinCue, hfirst, hlast]
  refine wp_seq (wp_of_notStat ?_ calm_ensureTemporarySpace) ?_ fun _ _ h => absurd hfree h
  · exact .bind (uses_of nofun) fun _ => .bind (uses_of nofun) fun _ =>
      .ite (fun _ => trivial) fun _ => trivial
  rintro _ w₁ ⟨-, rfl⟩
  refine wp_seq (wp_of_notStat ?_ (calm_eitherExists hbin hcue)) ?_ fun _ _ => False.elim
  · exact .bind (uses_of nofun) fun _ => .ite (fun _ => trivial) fun _ => uses_of nofun
  rintro _ w₂ ⟨rfl, rfl⟩
  rw [if_neg (by simp)]
  refine wp_bind.2 (wp_tryCatch.2 (wp_mono (wp_of_notStat ripCdBody_notStat
    (wp_and (calm_ripCdBody hbin) (ensures_ripCdBody (A := fun _ c => c = {}) hne))) ?_ ?_))
  · rintro s w₃ ⟨-, -, -, hfile, -⟩
    have hstored := hfile (stores_calm bin)
    refine wp_bind.2 (wp_call_iff.2 fun c hc => ⟨fun a w' h => ?_, fun e w' h => ?_⟩)
    · rw [hc] at h
      cases h
    · rw [hc] at h
      cases h
      simp [fail, hstored]
  · rintro e w₃ ⟨h, -⟩
    exact absurd htext h

/-- An archive that is complete stays behind when the call raises because the BIN file cannot be
measured. -/
theorem not_archive_faithful :
    ¬ ∀ (m : Machine) (σ : Oracle) (w : World) (tracks : List CDTrack) (bin cue : Path)
      (progress : Bool) (chunk : ChunkSize) (maxRetries : ℕ),
      (∃ m' σ' w', (execute m' σ' readToc w').result = .ok tracks) → bin ≠ cue →
      IsFileName bin.fileName → w.files bin = none → w.files cue = none →
      Stores σ.choices bin → Stores σ.choices cue →
      let run := execute m σ
        (ripCdBinCue m.toExternals bin cue tracks progress chunk maxRetries) w
      (∀ image, run.result = .ok image → ∃ data sheetBytes sheet,
        run.world.files bin = some data ∧ run.world.files cue = some sheetBytes ∧
          readCue sheetBytes = some sheet ∧ Faithful m.disc tracks bin.fileName data sheet) ∧
      (∀ e, run.result = .error e → run.world.files bin = none ∧ run.world.files cue = none) := by
  intro h
  have hne : sampleBin ≠ sampleCue := by decide
  have hfails : wp (allowing (sampleMachine 0x08) fun o c => c = statFails 0 o)
      (ripCdBinCue (sampleMachine 0x08).toExternals sampleBin sampleCue [sampleTrack] false
        ⟨16, by decide⟩ 8) _ _ World.blank :=
    wp_ripCdBinCue_statFails hne rfl rfl archivable_sampleBin
  obtain ⟨e, he, hfile⟩ := execute_error_of_wp (σ := statFails) (fun _ _ => rfl) hfails
  have hstores : ∀ p, Stores statFails.choices p := by
    rintro p data c (⟨n, rfl⟩ | ⟨n, rfl⟩) - <;> rfl
  have habsent := (h (sampleMachine 0x08) statFails World.blank [sampleTrack] sampleBin sampleCue
    false ⟨16, by decide⟩ 8 ⟨_, _, World.blank, result_of_consult readToc_within consult_readToc⟩
    hne isFileName_sampleBin rfl rfl (hstores _) (hstores _)).2 e he
  rw [habsent.1] at hfile
  cases hfile

end Ps2Ripper
