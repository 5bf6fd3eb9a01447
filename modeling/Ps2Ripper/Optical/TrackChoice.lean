import Ps2Ripper.Core.Returns

/-!
# The track that identifies a CD and the track that is converted

`inspect_disc` stops at the first data track with a recognizable SYSTEM.CNF, `_find_ps2_cd_track` at
the first one that holds the game ID, and `convert_cd_data_track_to_iso` at the first track of a
given number.

* `RecognizedBy`: the track that identified the disc; the search finds its number;
* `ConvertsTrack`: a number makes the conversion convert a certain track.  It does so exactly when
  no earlier track has the number of that track.
-/

namespace Ps2Ripper

open Interactive Prog

variable {m : Machine} {w : World} {α β : Type}

/-! ### What the drive determines -/

theorem consult_bind {p : Program α} {f : α → Program β} :
    consult m (p >>= f) = consult m p >>= fun a => consult m (f a) := by
  induction p with
  | pure a => rfl
  | raise e => rfl
  | call o k ih => exact ih _

theorem consult_bind_eq_ok {p : Program α} {f : α → Program β} {b : β} :
    consult m (p >>= f) = .ok b ↔ ∃ a, consult m p = .ok a ∧ consult m (f a) = .ok b := by
  rw [consult_bind]
  cases consult m p with
  | ok a => simp [bind, Except.bind]
  | error e => simp [bind, Except.bind]

theorem consult_tryCatch {p : Program α} {h : PyError → Program α} :
    consult m (p.tryCatch h) = match consult m p with
      | .ok a => .ok a
      | .error e => consult m (h e) := by
  induction p with
  | pure a => rfl
  | raise e => rfl
  | call o k ih => exact ih _

theorem yields_of_consult {P : α → Prop} {p : Program α} (hp : p.Yields P) {a : α}
    (h : consult m p = .ok a) : P a := by
  induction p with
  | pure b =>
    cases h
    exact hp
  | raise e => cases h
  | call o k ih => exact ih _ (hp _) h

/-- Without failures a run that only talks to the drive has the result that the drive determines. -/
theorem consult_of_result {p : Program α} (hp : p.Uses (Op.Within ∅ ∅)) {a : α}
    (h : (execute m noFaults p w).result = .ok a) : consult m p = .ok a :=
  ((run_of_wp (n := 0) (allowing_admits (A := fun _ c => c = {}) fun _ _ => rfl)
    (calm_consult (m := m) (w := w) hp)).1 a h).1

/-! ### Recognizing and finding -/

/-- The game ID of the SYSTEM.CNF on a track, as `inspect_disc` determines it. -/
def trackGameId (m : Machine) (track : CDTrack) : Except PyError String :=
  consult m (gameIdFromStream (.stream 0 (some track)))

/-- Nothing on the track is recognized: it is an audio track, or its data is none of a game. -/
def Unrecognized (m : Machine) (track : CDTrack) : Prop :=
  track.kind = .audio ∨ ∃ message, trackGameId m track = .error (.validationError message)

/-- The `i`-th of the tracks is the first one on which a game is recognized. -/
structure RecognizedBy (m : Machine) (gameId : String) (tracks : List CDTrack) (i : ℕ)
    (track : CDTrack) : Prop where
  here : tracks[i]? = some track
  data : track.kind ≠ .audio
  game : trackGameId m track = .ok gameId
  earlier : ∀ j < i, ∀ t, tracks[j]? = some t → Unrecognized m t

namespace RecognizedBy

variable {gameId : String} {tracks : List CDTrack} {i : ℕ} {track first : CDTrack}

theorem head (hdata : first.kind ≠ .audio) (hgame : trackGameId m first = .ok gameId) :
    RecognizedBy m gameId (first :: tracks) 0 first :=
  ⟨rfl, hdata, hgame, by simp⟩

theorem cons (h : RecognizedBy m gameId tracks i track) (hfirst : Unrecognized m first) :
    RecognizedBy m gameId (first :: tracks) (i + 1) track := by
  refine ⟨h.here, h.data, h.game, fun j hj t ht => ?_⟩
  cases j with
  | zero =>
    cases ht
    exact hfirst
  | succ j => exact h.earlier j (by omega) t ht

end RecognizedBy

/-- A track whose data is not recognized raises an exception that the search passes over. -/
theorem systemCnfId_of_unrecognized {track : CDTrack} {message : String}
    (h : trackGameId m track = .error (.validationError message)) :
    ∃ e, consult m (systemCnfId (.stream 0 (some track))) = .error e ∧ e.isUnrecognized = true := by
  rw [trackGameId, gameIdFromStream, consult_tryCatch] at h
  split at h
  · cases h
  · rename_i e he
    refine ⟨e, he, ?_⟩
    by_contra hnot
    rw [if_neg hnot] at h
    cases h
    exact hnot rfl

theorem systemCnfId_of_recognized {track : CDTrack} {gameId : String}
    (h : trackGameId m track = .ok gameId) :
    consult m (systemCnfId (.stream 0 (some track))) = .ok gameId := by
  rw [trackGameId, gameIdFromStream, consult_tryCatch] at h
  split at h
  · rename_i a ha
    rw [ha, h]
  · split at h <;> cases h

/-- The loop of `inspect_disc` reports a CD because of the first data track with a game on it. -/
theorem recognizedBy_of_identifyCd {all tracks : List CDTrack} {disc : DiscIdentity}
    (h : consult m (identifyCd all (tracks.filter (·.kind ≠ .audio))) = .ok disc)
    (hcd : disc.mediaType = .ps2Cd) :
    disc.tracks = all ∧ ∃ i track, RecognizedBy m disc.gameId tracks i track := by
  induction tracks with
  | nil =>
    cases h
    cases hcd
  | cons first rest ih =>
    by_cases hkind : first.kind = .audio
    · rw [List.filter_cons_of_neg (by simpa using hkind)] at h
      obtain ⟨hall, i, track, hrec⟩ := ih h
      exact ⟨hall, i + 1, track, hrec.cons (.inl hkind)⟩
    · rw [List.filter_cons_of_pos (by simpa using hkind), identifyCd, consult_tryCatch,
        identifyTrack, consult_bind] at h
      cases hgame : trackGameId m first with
      | ok gameId =>
        rw [trackGameId] at hgame
        rw [hgame] at h
        cases h
        exact ⟨rfl, 0, first, .head hkind hgame⟩
      | error e =>
        have hsame := hgame
        rw [trackGameId] at hsame
        rw [hsame] at h
        cases e with
        | validationError message =>
          obtain ⟨hall, i, track, hrec⟩ := ih h
          exact ⟨hall, i + 1, track, hrec.cons (.inr ⟨message, hgame⟩)⟩
        | _ => cases h

theorem inspectDvd_yields : inspectDvd.Yields fun disc => disc.mediaType ≠ .ps2Cd := by
  refine .bind (yields_true _) fun (sectors, sectorSize) _ => .ite (by simp) ?_
  refine .bind (yields_true _) fun layers _ => .tryCatch ?_ fun e => ?_
  · refine .bind (yields_true _) fun gameId _ => ?_
    show ite _ _ _ ≠ _
    split <;> simp
  · cases e with
    | validationError message =>
      refine .bind (yields_true _) fun video _ => .ite (by simp) ?_
      exact .bind (yields_true _) fun signature _ => .ite (by simp) (by simp)
    | _ => trivial

/-- `inspect_disc` reports a PS2 CD because of one of its tracks. -/
theorem recognizedBy_of_inspectDisc {disc : DiscIdentity} (h : consult m inspectDisc = .ok disc)
    (hcd : disc.mediaType = .ps2Cd) :
    ∃ i track, RecognizedBy m disc.gameId disc.tracks i track := by
  obtain ⟨ready, -, h⟩ := consult_bind_eq_ok.1 h
  split at h
  · cases h
    cases hcd
  obtain ⟨profile, -, h⟩ := consult_bind_eq_ok.1 h
  split at h
  · exact absurd hcd (yields_of_consult inspectDvd_yields h)
  split at h
  · obtain ⟨tracks, -, h⟩ := consult_bind_eq_ok.1 h
    dsimp only at h
    split at h
    · cases h
      cases hcd
    · obtain ⟨htracks, hrec⟩ := recognizedBy_of_identifyCd h hcd
      rwa [htracks]
  · cases h
    cases hcd

/-- The search passes over the tracks without a game and stops at the track that has one. -/
theorem consult_find_of_recognizedBy {gameId : String} {tracks : List CDTrack} {i : ℕ}
    {track : CDTrack}
    (h : RecognizedBy m gameId tracks i track) :
    consult m (findPs2CdTrack gameId tracks) = .ok track.number := by
  induction tracks generalizing i with
  | nil => cases h.here
  | cons first rest ih =>
    rw [findPs2CdTrack]
    cases i with
    | zero =>
      cases h.here
      rw [if_neg h.data]
      refine consult_bind_eq_ok.2 ⟨true, ?_, rfl⟩
      rw [consult_tryCatch, trackHolds, consult_bind, systemCnfId_of_recognized h.game]
      exact congrArg Except.ok (decide_eq_true rfl)
    | succ i =>
      have hrest : RecognizedBy m gameId rest i track :=
        ⟨h.here, h.data, h.game, fun j hj t ht => h.earlier (j + 1) (by omega) t ht⟩
      split
      · exact ih hrest
      obtain hkind | ⟨message, hmessage⟩ := h.earlier 0 (by omega) first rfl
      · contradiction
      · obtain ⟨e, he, hun⟩ := systemCnfId_of_unrecognized hmessage
        refine consult_bind_eq_ok.2 ⟨false, ?_, ih hrest⟩
        rw [consult_tryCatch, trackHolds, consult_bind, he]
        exact congrArg (consult m) (if_pos hun)

/-! ### The conversion -/

/-- The conversion of one track, once it has been selected. -/
def convertTrack (ext : Externals) (binPath isoPath : Path) (firstLba : ℕ) (track : CDTrack)
    (progress : Bool) : Program ImageResult :=
  if track.kind = .audio then
    Prog.raise (.validationError "The selected CD track is not a data track.")
  else do
    ensureTemporarySpace isoPath.dir (track.sectors * 2048)
    let present ← call (.pathExists isoPath)
    if present then Prog.raise (.fileExistsError isoPath)
    else
      let digest ← (convertBody binPath isoPath track firstLba progress).tryCatch
        (removeAndRaise [isoPath])
      let size ← call (.stat isoPath)
      return { path := isoPath, size, sha256 := ext.hexdigest digest }

/-- Called with this number, the conversion converts the `i`-th of the tracks. -/
def ConvertsTrack (tracks : List CDTrack) (number i : ℕ) : Prop :=
  ∃ track first, tracks[i]? = some track ∧ tracks.head? = some first ∧
    ∀ ext binPath isoPath progress,
      convertCdDataTrackToIso ext binPath isoPath tracks number progress =
        convertTrack ext binPath isoPath first.startLba track progress

theorem convertCdDataTrackToIso_eq {tracks : List CDTrack} {number : ℕ} {track first : CDTrack}
    (htrack : tracks.find? (·.number = number) = some track) (hfirst : tracks.head? = some first)
    (ext : Externals) (binPath isoPath : Path) (progress : Bool) :
    convertCdDataTrackToIso ext binPath isoPath tracks number progress =
      convertTrack ext binPath isoPath first.startLba track progress := by
  simp only [convertCdDataTrackToIso, htrack, hfirst, convertTrack]

/-- The operations of a run in which every operation is answered in one fixed way. -/
def trace (answer : (o : Op) → Except PyError o.Answer) : Program α → List Op
  | .call o k => o :: trace answer (k (answer o))
  | _ => []

/-- The answers of a disk with `free` bytes left on which the BIN file has `n` bytes. -/
def ampleAnswers (free n : ℕ) : (o : Op) → Except PyError o.Answer
  | .isRequested | .pathExists _ => .ok false
  | .diskUsage _ => .ok free
  | .openRead _ => .ok (List.replicate n 0)
  | .mkdir _ | .openExclusive _ => .ok ()
  | _ => .error endOfData

/-- The conversion of a data track reads the BIN file from the start of that track on. -/
theorem trace_convertTrack {ext : Externals} {bin iso : Path} {firstLba free n : ℕ}
    {track : CDTrack} {progress : Bool} (hkind : track.kind ≠ .audio)
    (hstart : firstLba ≤ track.startLba) (hfree : track.sectors * 2048 ≤ free) :
    (trace (ampleAnswers free n) (convertTrack ext bin iso firstLba track progress))[6]? =
      some (.read bin (n - (track.startLba - firstLba) * 2352) 2352) := by
  rw [convertTrack, if_neg hkind, ensureTemporarySpace, convertBody]
  simp only [if_neg (not_lt.2 hstart)]
  show (trace _ (((if free < track.sectors * 2048 then _ else _) : Program Unit) >>= _))[4]? = _
  rw [if_neg (not_lt.2 hfree)]
  show some (Op.read bin ((List.replicate n (0 : UInt8)).drop _).length 2352) = _
  rw [List.length_drop, List.length_replicate]

/-- Of two tracks the earlier one starts first. -/
theorem Contiguous.start_lt {tracks : List CDTrack} (h : Contiguous tracks) {i j : ℕ}
    {t t' : CDTrack} (ht : tracks[i]? = some t) (ht' : tracks[j]? = some t') (hij : i < j) :
    t.startLba < t'.startLba := by
  obtain ⟨hi, rfl⟩ := List.getElem?_eq_some_iff.1 ht
  obtain ⟨hj, rfl⟩ := List.getElem?_eq_some_iff.1 ht'
  exact lt_of_le_of_lt tracks[i].start_le_end (List.pairwise_iff_getElem.1 h.pairwise i j hi hj hij)

/-- The number of a data track selects it exactly when no earlier track has this number. -/
theorem convertsTrack_iff {tracks : List CDTrack} (h : TrackLayout tracks) {i : ℕ} {track : CDTrack}
    (htrack : tracks[i]? = some track) (hkind : track.kind ≠ .audio) :
    ConvertsTrack tracks track.number i ↔
      ∀ j < i, ∀ t, tracks[j]? = some t → t.number ≠ track.number := by
  obtain ⟨hi, hget⟩ := List.getElem?_eq_some_iff.1 htrack
  obtain ⟨first, hfirst⟩ : ∃ first, tracks.head? = some first := by
    cases tracks with
    | nil => cases htrack
    | cons first rest => exact ⟨first, rfl⟩
  constructor
  · rintro ⟨track', first', htrack', hfirst', hsame⟩ j hj t ht hnumber
    rw [htrack] at htrack'
    rw [hfirst] at hfirst'
    cases htrack'
    cases hfirst'
    -- the first track with this number stands before the `i`-th one and starts before it
    obtain ⟨chosen, hchosen⟩ : ∃ chosen, tracks.find? (·.number = track.number) = some chosen :=
      Option.isSome_iff_exists.1 (List.find?_isSome.2 ⟨track, List.mem_of_getElem? htrack, by simp⟩)
    obtain ⟨-, k, hk, hkget, hbefore⟩ := List.find?_eq_some_iff_getElem.1 hchosen
    have hki : k < i := by
      by_contra hge
      obtain ⟨hj', rfl⟩ := List.getElem?_eq_some_iff.1 ht
      have := hbefore j (by omega)
      simp [hnumber] at this
    have hkget' : tracks[k]? = some chosen := List.getElem?_eq_some_iff.2 ⟨hk, hkget⟩
    have hlt := h.contiguous.start_lt hkget' htrack hki
    have hle := h.first_le hfirst (List.mem_of_getElem? hkget')
    have heq := hsame ⟨fun _ => "", fun _ => .error endOfData⟩ ⟨.temporary "", "", none⟩
      ⟨.temporary "", "", none⟩ false
    rw [convertCdDataTrackToIso_eq hchosen hfirst] at heq
    -- with this BIN file the two conversions would read from different places
    have hops := congrArg (fun p => (trace (ampleAnswers ((chosen.sectors + track.sectors) * 2048)
      ((track.startLba - first.startLba) * 2352)) p)[6]?) heq
    rw [trace_convertTrack hkind (by omega) (by omega)] at hops
    by_cases haudio : chosen.kind = .audio
    · rw [convertTrack, if_pos haudio] at hops
      cases hops
    · rw [trace_convertTrack haudio hle (by omega)] at hops
      simp only [Option.some.injEq, Op.read.injEq, and_true, true_and] at hops
      omega
  · intro hno
    refine ⟨track, first, htrack, hfirst, convertCdDataTrackToIso_eq ?_ hfirst⟩
    refine List.find?_eq_some_iff_getElem.2 ⟨by simp, i, hi, hget, fun j hj => ?_⟩
    simpa using hno j hj _ (List.getElem?_eq_getElem (by omega))

/-- **Choosing the track.** On a disc that does not change, the track that identifies a PS2 CD is
the one that the search finds; its number makes the conversion convert it exactly when no earlier
track has the same number. -/
theorem convertsTrack_of_inspectDisc_iff {disc : DiscIdentity}
    (h : (execute m noFaults inspectDisc w).result = .ok disc) (hcd : disc.mediaType = .ps2Cd) :
    ∃ i track, RecognizedBy m disc.gameId disc.tracks i track ∧
      (∀ w', (execute m noFaults (findPs2CdTrack disc.gameId disc.tracks) w').result =
        .ok track.number) ∧
      (ConvertsTrack disc.tracks track.number i ↔
        ∀ j < i, ∀ t, disc.tracks[j]? = some t → t.number ≠ track.number) := by
  obtain ⟨i, track, hrec⟩ :=
    recognizedBy_of_inspectDisc (consult_of_result inspectDisc_within h) hcd
  have hlayout : TrackLayout disc.tracks := Inspected.layout ⟨m, noFaults, w, h⟩
  exact ⟨i, track, hrec, fun w' => result_of_consult findPs2CdTrack_within
    (consult_find_of_recognizedBy hrec), convertsTrack_iff hlayout hrec.here hrec.data⟩

/-! ### A disc with two tracks of one number -/

/-- Ten sectors of sound and the sample track, both listed as track 1. -/
def doubledDisc : Disc where
  configuration := [0, 0, 0, 4, 0, 0, 0, 0x08]
  session := [0, 10, 1, 1, 0, 0x14, 1, 0, 0, 0, 0, 0]
  toc := [0, 26, 1, 1, 0, 0x10, 1, 0, 0, 0, 0, 0, 0, 0x14, 1, 0, 0, 0, 0, 10,
    0, 0x14, 0xAA, 0, 0, 0, 0, 34]
  block n := padTo 2048 0 (imageSector n)
  raw n := rawSector (n - 10)
  block_length := length_imageBlock
  raw_length n := (sampleDisc 0x08).raw_length (n - 10)

def doubledMachine : Machine := { sampleMachine 0x08 with disc := doubledDisc }

def soundTrack : CDTrack where
  number := 1
  kind := .audio
  startLba := 0
  endLba := 9
  fileIndexLba := 0
  number_pos := Nat.one_pos
  start_le_end := by decide

def laterTrack : CDTrack where
  number := 1
  kind := .mode1_2352
  startLba := 10
  endLba := 33
  fileIndexLba := 10
  number_pos := Nat.one_pos
  start_le_end := by decide

def doubledCd : DiscIdentity where
  gameId := "SLUS_123.45"
  mediaType := .ps2Cd
  totalSectors := 24
  tracks := [soundTrack, laterTrack]

theorem consult_inspectDisc_doubled : consult doubledMachine inspectDisc = .ok doubledCd := by
  decide +kernel

theorem result_inspectDisc_doubled :
    (execute doubledMachine noFaults inspectDisc World.blank).result = .ok doubledCd :=
  result_of_consult inspectDisc_within consult_inspectDisc_doubled

/-- The theorem for the disc on which two tracks have the number 1. -/
theorem convertsTrack_of_inspectDisc_iff_doubled :
    ∃ i track, RecognizedBy doubledMachine "SLUS_123.45" [soundTrack, laterTrack] i track ∧
      (∀ w', (execute doubledMachine noFaults
        (findPs2CdTrack "SLUS_123.45" [soundTrack, laterTrack]) w').result = .ok track.number) ∧
      (ConvertsTrack [soundTrack, laterTrack] track.number i ↔
        ∀ j < i, ∀ t, [soundTrack, laterTrack][j]? = some t → t.number ≠ track.number) :=
  convertsTrack_of_inspectDisc_iff result_inspectDisc_doubled rfl

/-- On the disc with two tracks of one number the identified track is not the converted one. -/
theorem not_convertsTrack_of_inspectDisc :
    ¬ ∀ (m : Machine) (w : World) (disc : DiscIdentity),
      (execute m noFaults inspectDisc w).result = .ok disc → disc.mediaType = .ps2Cd →
      ∃ i track, RecognizedBy m disc.gameId disc.tracks i track ∧
        (∀ w', (execute m noFaults (findPs2CdTrack disc.gameId disc.tracks) w').result =
          .ok track.number) ∧
        ConvertsTrack disc.tracks track.number i := by
  intro h
  obtain ⟨i, track, hrec, -, hconv⟩ := h _ _ _ result_inspectDisc_doubled rfl
  have hlayout : TrackLayout doubledCd.tracks :=
    Inspected.layout ⟨_, _, _, result_inspectDisc_doubled⟩
  have hno := (convertsTrack_iff hlayout hrec.here hrec.data).1 hconv
  match i, hrec, hno with
  | 0, hrec, _ =>
    cases hrec.here
    exact hrec.data rfl
  | 1, hrec, hno =>
    cases hrec.here
    exact hno 0 (by decide) soundTrack rfl rfl
  | i + 2, hrec, _ => exact absurd hrec.here (by simp [doubledCd])

end Ps2Ripper
