import Ps2Ripper.Imaging.Ripper

/-!
# Reading a CUE sheet

`readCue` is a reader for the sheets of `imaging/cue_writer.py`: the name between the quotes of the
`FILE` line, then for each track its `TRACK` line, an optional `PREGAP` line and its `INDEX 01`
line. The main result, `readCue_generateCue`, says that the reader gets back what `generateCue` was
given.
-/

namespace Ps2Ripper

/-- The inverse of `encodeUtf8`. -/
def decodeUtf8 (data : Bytes) : Option (List Char) :=
  (String.fromUTF8? ⟨data.toArray⟩).map String.toList

@[simp] theorem decodeUtf8_encodeUtf8 (text : List Char) :
    decodeUtf8 (encodeUtf8 text) = some text := by
  have hbytes : (⟨(encodeUtf8 text).toArray⟩ : ByteArray) = (String.ofList text).toByteArray := by
    rw [encodeUtf8, Array.toArray_toList]
    rfl
  have hvalid : ((String.ofList text).toByteArray).IsValidUTF8 := (String.ofList text).isValidUTF8
  rw [decodeUtf8, hbytes, String.fromUTF8?, dif_pos hvalid, Option.map_some]
  exact congrArg some String.toList_ofList

/-! ### Readers -/

/-- Read a fixed text. -/
def skip (expected text : List Char) : Option (List Char) :=
  if expected.isPrefixOf text then some (text.drop expected.length) else none

/-- Read a decimal number. -/
def readNat (text : List Char) : Option (ℕ × List Char) :=
  let digits := text.takeWhile Char.isDigit
  if digits = [] then none
  else some (Nat.ofDigitChars 10 digits 0, text.dropWhile Char.isDigit)

/-- A position `mm:ss:ff` in a track file. -/
structure Msf where
  minutes : ℕ
  seconds : ℕ
  frames : ℕ
  deriving DecidableEq

/-- The offset of a position in a file of raw sectors. -/
def Msf.byteOffset (t : Msf) : ℕ := ((t.minutes * 60 + t.seconds) * 75 + t.frames) * 2352

def readMsf (text : List Char) : Option (Msf × List Char) := do
  let (minutes, text) ← readNat text
  let text ← skip [':'] text
  let (seconds, text) ← readNat text
  let text ← skip [':'] text
  let (frames, text) ← readNat text
  return (⟨minutes, seconds, frames⟩, text)

def readKind (text : List Char) : Option (TrackKind × List Char) :=
  [TrackKind.mode1_2352, .mode2_2352, .audio].findSome? fun kind =>
    (skip kind.value.toList text).map fun rest => (kind, rest)

/-- The entry of a track in a sheet. -/
structure CueTrack where
  number : ℕ
  kind : TrackKind
  pregap : Option Msf
  index : Msf
  deriving DecidableEq

def readPregap (text : List Char) : Option (Option Msf × List Char) :=
  match skip "    PREGAP ".toList text with
  | some text => do
    let (time, text) ← readMsf text
    let text ← skip ['\r', '\n'] text
    return (some time, text)
  | none => some (none, text)

def readTrack (text : List Char) : Option (CueTrack × List Char) := do
  let text ← skip "  TRACK ".toList text
  let (number, text) ← readNat text
  let text ← skip [' '] text
  let (kind, text) ← readKind text
  let text ← skip ['\r', '\n'] text
  let (pregap, text) ← readPregap text
  let text ← skip "    INDEX 01 ".toList text
  let (index, text) ← readMsf text
  let text ← skip ['\r', '\n'] text
  return (⟨number, kind, pregap, index⟩, text)

/-- Read tracks up to the end of the text; the bound is met because a track is not empty. -/
def readTracks : (bound : ℕ) → List Char → Option (List CueTrack)
  | _, [] => some []
  | 0, _ :: _ => none
  | bound + 1, text => do
    let (track, text) ← readTrack text
    let tracks ← readTracks bound text
    return track :: tracks

structure CueSheet where
  file : List Char
  tracks : List CueTrack
  deriving DecidableEq

/-- Read the line of the BIN file; a quote ends its name. -/
def readFile (text : List Char) : Option (List Char × List Char) := do
  let text ← skip "FILE \"".toList text
  let rest ← skip "\" BINARY\r\n".toList (text.dropWhile (· ≠ '"'))
  return (text.takeWhile (· ≠ '"'), rest)

def readCue (data : Bytes) : Option CueSheet := do
  let text ← decodeUtf8 data
  let (file, text) ← readFile text
  let tracks ← readTracks text.length text
  return ⟨file, tracks⟩

/-! ### Reading what was written -/

/-- The text goes on with something else than a digit. -/
def EndsNumber (text : List Char) : Prop := ∀ c ∈ text.head?, c.isDigit = false

theorem endsNumber_cons {c : Char} {text : List Char} (h : c.isDigit = false) :
    EndsNumber (c :: text) := by
  simpa [EndsNumber] using h

@[simp] theorem skip_append (expected text : List Char) :
    skip expected (expected ++ text) = some text := by
  have hprefix : expected.isPrefixOf (expected ++ text) = true :=
    List.isPrefixOf_iff_prefix.2 (List.prefix_append ..)
  rw [skip, if_pos hprefix, List.drop_left]

theorem readNat_append {digits rest : List Char} (hne : digits ≠ [])
    (hdigits : ∀ c ∈ digits, c.isDigit = true) (hrest : EndsNumber rest) :
    readNat (digits ++ rest) = some (Nat.ofDigitChars 10 digits 0, rest) := by
  have htake : (digits ++ rest).takeWhile Char.isDigit = digits := by
    rw [List.takeWhile_append_of_pos hdigits]
    cases rest with
    | nil => simp
    | cons c text => simp [hrest c rfl]
  have hdrop : (digits ++ rest).dropWhile Char.isDigit = rest := by
    rw [List.dropWhile_append_of_pos hdigits]
    cases rest with
    | nil => rfl
    | cons c text => simp [hrest c rfl]
  simp only [readNat, htake, hdrop, if_neg hne]

theorem ofDigitChars_pad2 (n : ℕ) : Nat.ofDigitChars 10 (pad2 n) 0 = n := by
  unfold pad2
  split
  · rw [Nat.ofDigitChars_cons]
    exact Nat.ofDigitChars_ten_toDigits
  · exact Nat.ofDigitChars_ten_toDigits

theorem isDigit_of_mem_pad2 {n : ℕ} {c : Char} (h : c ∈ pad2 n) : c.isDigit = true := by
  have htoDigits : ∀ c ∈ Nat.toDigits 10 n, c.isDigit = true := fun c hc =>
    Nat.isDigit_of_mem_toDigits (by decide) (by decide) hc
  unfold pad2 at h
  split at h
  · obtain rfl | h := List.mem_cons.1 h
    · rfl
    · exact htoDigits c h
  · exact htoDigits c h

theorem pad2_ne_nil (n : ℕ) : pad2 n ≠ [] := by
  unfold pad2
  split
  · simp
  · exact Nat.toDigits_ne_nil

theorem readNat_pad2 {n : ℕ} {rest : List Char} (h : EndsNumber rest) :
    readNat (pad2 n ++ rest) = some (n, rest) := by
  rw [readNat_append (pad2_ne_nil n) (fun _ => isDigit_of_mem_pad2) h, ofDigitChars_pad2]

/-- The position of a number of frames. -/
def Msf.ofFrames (frames : ℕ) : Msf where
  minutes := frames / (75 * 60)
  seconds := frames % (75 * 60) / 75
  frames := frames % (75 * 60) % 75

theorem Msf.byteOffset_ofFrames (n : ℕ) : (Msf.ofFrames n).byteOffset = n * 2352 := by
  simp only [Msf.byteOffset, Msf.ofFrames]
  omega

theorem Msf.seconds_ofFrames_lt (n : ℕ) : (Msf.ofFrames n).seconds < 60 := by
  simp only [Msf.ofFrames]
  omega

theorem Msf.frames_ofFrames_lt (n : ℕ) : (Msf.ofFrames n).frames < 75 :=
  Nat.mod_lt _ (by decide)

theorem readMsf_msf {n : ℕ} {rest : List Char} (h : EndsNumber rest) :
    readMsf (msf n ++ rest) = some (Msf.ofFrames n, rest) := by
  have hcolon : ∀ text, EndsNumber (':' :: text) := fun _ => endsNumber_cons rfl
  have hskip : ∀ text : List Char, skip [':'] (':' :: text) = some text := fun text =>
    skip_append [':'] text
  simp only [readMsf, msf, List.append_assoc, List.cons_append, readNat_pad2 (hcolon _), hskip,
    readNat_pad2 h, Option.bind_eq_bind, Option.bind_some, Option.pure_def, Msf.ofFrames]

theorem readKind_value (kind : TrackKind) (rest : List Char) :
    readKind (kind.value.toList ++ rest) = some (kind, rest) := by
  cases kind <;> rfl

/-- The entry that `generateCue` writes for a track. -/
def CueTrack.ofTrack (track : CDTrack) : CueTrack where
  number := track.number
  kind := track.kind
  pregap := if track.pregapFrames ≠ 0 then some (.ofFrames track.pregapFrames.toNat) else none
  index := .ofFrames track.fileIndexLba.toNat

theorem framesToMsf_eq_ok {frames : ℤ} {time : List Char} (h : framesToMsf frames = .ok time) :
    time = msf frames.toNat := by
  unfold framesToMsf at h
  split at h
  · cases h
  · exact (Except.ok.inj h).symm

theorem cueTrackLines_eq_ok {track : CDTrack} {lines : List (List Char)}
    (h : cueTrackLines track = .ok lines) :
    lines = ("  TRACK ".toList ++ pad2 track.number ++ ' ' :: track.kind.value.toList) ::
      ((if track.pregapFrames ≠ 0 then ["    PREGAP ".toList ++ msf track.pregapFrames.toNat]
        else []) ++ ["    INDEX 01 ".toList ++ msf track.fileIndexLba.toNat]) := by
  unfold cueTrackLines at h
  cases hindex : framesToMsf track.fileIndexLba with
  | error e =>
    cases hpregap : framesToMsf track.pregapFrames <;> split at h <;>
      simp [hindex, hpregap, bind, Except.bind, pure, Except.pure] at h
  | ok index =>
    obtain rfl := framesToMsf_eq_ok hindex
    split at h
    · cases hpregap : framesToMsf track.pregapFrames with
      | error e => simp [hpregap, bind, Except.bind] at h
      | ok pregap =>
        obtain rfl := framesToMsf_eq_ok hpregap
        simp_all [bind, Except.bind, pure, Except.pure]
    · simp_all [bind, Except.bind, pure, Except.pure]

theorem readPregap_pregap (n : ℕ) (rest : List Char) :
    readPregap ("    PREGAP ".toList ++ (msf n ++ '\r' :: '\n' :: rest)) =
      some (some (Msf.ofFrames n), rest) := by
  have hcrlf : skip ['\r', '\n'] ('\r' :: '\n' :: rest) = some rest := skip_append ['\r', '\n'] rest
  have hend : EndsNumber ('\r' :: '\n' :: rest) := endsNumber_cons rfl
  rw [readPregap, skip_append]
  simp only [readMsf_msf hend, hcrlf, Option.bind_eq_bind, Option.bind_some, Option.pure_def]

theorem readPregap_index (rest : List Char) :
    readPregap ("    INDEX 01 ".toList ++ rest) = some (none, "    INDEX 01 ".toList ++ rest) := rfl

/-- The lines of a track, read together with whatever follows them. -/
theorem readTrack_cueTrackLines {track : CDTrack} {lines : List (List Char)} {rest : List Char}
    (h : cueTrackLines track = .ok lines) :
    readTrack (joinLines lines ++ rest) = some (CueTrack.ofTrack track, rest) := by
  have hcrlf : ∀ text : List Char, skip ['\r', '\n'] ('\r' :: '\n' :: text) = some text :=
    fun text => skip_append ['\r', '\n'] text
  have hspace : ∀ text : List Char, skip [' '] (' ' :: text) = some text := fun text =>
    skip_append [' '] text
  have hnumber : ∀ text : List Char, EndsNumber (' ' :: text) := fun _ => endsNumber_cons rfl
  have hend : ∀ text : List Char, EndsNumber ('\r' :: text) := fun _ => endsNumber_cons rfl
  obtain rfl := cueTrackLines_eq_ok h
  by_cases hp : track.pregapFrames = 0
  · simp only [joinLines, readTrack, readPregap_index, readNat_pad2, readKind_value,
      readMsf_msf, hp,
      hcrlf, hspace, hnumber, hend, CueTrack.ofTrack, List.flatMap_cons, List.flatMap_nil,
      List.append_assoc, List.cons_append, List.nil_append, List.append_nil, skip_append, ne_eq,
      not_true_eq_false, if_false, Option.bind_eq_bind, Option.bind_some, Option.pure_def]
  · simp only [joinLines, readTrack, readPregap_pregap, readNat_pad2, readKind_value,
      readMsf_msf, hp,
      hcrlf, hspace, hnumber, hend, CueTrack.ofTrack, List.flatMap_cons, List.flatMap_nil,
      List.append_assoc, List.cons_append, List.nil_append, List.append_nil, skip_append, ne_eq,
      not_false_eq_true, if_true, Option.bind_eq_bind, Option.bind_some, Option.pure_def]

theorem joinLines_append (lines lines' : List (List Char)) :
    joinLines (lines ++ lines') = joinLines lines ++ joinLines lines' :=
  List.flatMap_append

theorem joinLines_cueTrackLines_ne_nil {track : CDTrack} {lines : List (List Char)}
    (h : cueTrackLines track = .ok lines) : joinLines lines ≠ [] := by
  rw [cueTrackLines_eq_ok h, joinLines, List.flatMap_cons]
  exact List.append_ne_nil_of_left_ne_nil (List.append_ne_nil_of_right_ne_nil _ (by decide)) _

theorem cueLines_cons_eq_ok {track : CDTrack} {tracks : List CDTrack} {lines : List (List Char)}
    (h : cueLines (track :: tracks) = .ok lines) :
    ∃ first rest, cueTrackLines track = .ok first ∧ cueLines tracks = .ok rest ∧
      lines = first ++ rest := by
  cases hfirst : cueTrackLines track with
  | error e => simp [cueLines, hfirst, bind, Except.bind] at h
  | ok first =>
    cases hrest : cueLines tracks with
    | error e => simp [cueLines, hfirst, hrest, bind, Except.bind] at h
    | ok rest =>
      simp only [cueLines, hfirst, hrest, bind, Except.bind, pure, Except.pure,
        Except.ok.injEq] at h
      exact ⟨first, rest, rfl, rfl, h.symm⟩

theorem readTracks_cueLines {tracks : List CDTrack} {lines : List (List Char)} {bound : ℕ}
    (h : cueLines tracks = .ok lines) (hbound : (joinLines lines).length ≤ bound) :
    readTracks bound (joinLines lines) = some (tracks.map CueTrack.ofTrack) := by
  induction tracks generalizing lines bound with
  | nil =>
    cases h
    cases bound <;> rfl
  | cons track tracks ih =>
    obtain ⟨first, rest, hfirst, hrest, rfl⟩ := cueLines_cons_eq_ok h
    have hne : 0 < (joinLines first).length :=
      List.length_pos_iff.2 (joinLines_cueTrackLines_ne_nil hfirst)
    rw [joinLines_append] at hbound ⊢
    rw [List.length_append] at hbound
    cases bound with
    | zero => omega
    | succ bound =>
      have hcons : ∃ c text, joinLines first ++ joinLines rest = c :: text :=
        List.exists_cons_of_ne_nil fun h => by simp_all
      obtain ⟨c, text, htext⟩ := hcons
      have hread : readTrack (joinLines first ++ joinLines rest) =
          some (CueTrack.ofTrack track, joinLines rest) := readTrack_cueTrackLines hfirst
      rw [htext] at hread ⊢
      have hrest' : readTracks bound (joinLines rest) = some (tracks.map CueTrack.ofTrack) :=
        ih hrest (by omega)
      rw [readTracks, hread]
      · simp [hrest']
      · exact List.cons_ne_nil _ _

theorem quote_notMem_safeName (binFilename : List Char) : '"' ∉ safeName binFilename := by
  intro h
  obtain ⟨c, -, hc⟩ := List.mem_map.1 h
  split at hc
  · exact absurd hc (by decide)
  · exact absurd hc ‹_›

theorem readFile_cueFileLine (binFilename rest : List Char) :
    readFile (cueFileLine binFilename ++ '\r' :: '\n' :: rest) =
    some (safeName binFilename, rest) := by
  have hsafe : ∀ c ∈ safeName binFilename, decide (c ≠ '"') = true := fun c hc =>
    decide_eq_true fun h => quote_notMem_safeName binFilename (h ▸ hc)
  have hrest : skip "\" BINARY\r\n".toList ('"' :: (" BINARY\r\n".toList ++ rest)) = some rest :=
    skip_append "\" BINARY\r\n".toList rest
  have hend : "\" BINARY".toList ++ '\r' :: '\n' :: rest =
      '"' :: (" BINARY\r\n".toList ++ rest) := rfl
  delta cueFileLine
  rw [List.append_assoc, List.append_assoc, hend, readFile, skip_append, Option.bind_eq_bind,
    Option.bind_some,
    List.takeWhile_append_of_pos hsafe, List.dropWhile_append_of_pos hsafe,
    List.dropWhile_cons_of_neg (by decide), hrest, List.takeWhile_cons_of_neg (by decide),
    List.append_nil]
  rfl

/-- **Round trip.** The reader gets back the name of the BIN file and every track. -/
theorem readCue_generateCue {binFilename text : List Char} {tracks : List CDTrack}
    (h : generateCue binFilename tracks = .ok text) :
    readCue (encodeUtf8 text) = some ⟨safeName binFilename, tracks.map CueTrack.ofTrack⟩ := by
  unfold generateCue at h
  split at h
  · cases h
  cases hlines : cueLines tracks with
  | error e => simp [hlines, bind, Except.bind] at h
  | ok lines =>
    simp only [hlines, bind, Except.bind, pure, Except.pure, Except.ok.injEq] at h
    subst h
    have hjoin : joinLines (cueFileLine binFilename :: lines) =
        cueFileLine binFilename ++ '\r' :: '\n' :: joinLines lines := by
      rw [joinLines, List.flatMap_cons, List.append_assoc]
      rfl
    rw [readCue, decodeUtf8_encodeUtf8, hjoin, Option.bind_eq_bind, Option.bind_some,
      readFile_cueFileLine]
    simp only [Option.bind_some, readTracks_cueLines hlines le_rfl, Option.bind_eq_bind,
      Option.pure_def]

end Ps2Ripper
