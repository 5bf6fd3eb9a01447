import Ps2Ripper.Core.Models

/-!
# CUE sheets

`imaging/cue_writer.py`.  Text is a list of characters, as in `Ps2Ripper.Ps2.SystemCnf`.
-/

namespace Ps2Ripper

/-- The format `{n:02d}`. -/
def pad2 (n : ℕ) : List Char := if n < 10 then '0' :: Nat.toDigits 10 n else Nat.toDigits 10 n

/-- The text `mm:ss:ff` of a number of frames. -/
def msf (frames : ℕ) : List Char :=
  let minutes := frames / (75 * 60)
  let remainder := frames % (75 * 60)
  let seconds := remainder / 75
  let frame := remainder % 75
  pad2 minutes ++ ':' :: pad2 seconds ++ ':' :: pad2 frame

def framesToMsf (frames : ℤ) : Except PyError (List Char) :=
  if frames < 0 then .error (.valueError "CUE time cannot be negative") else .ok (msf frames.toNat)

/-- `Path(filename).name` for a relative Windows path: no drive, and the last real component. -/
def pathName (filename : List Char) : List Char :=
  let rest := match filename with
    | _ :: ':' :: rest => rest
    | other => other
  let parts := rest.splitOnP fun c => c = '/' || c = '\\'
  (parts.filter fun part => part ≠ [] ∧ part ≠ ['.']).getLastD []

/-- The lines of one track. -/
def cueTrackLines (track : CDTrack) : Except PyError (List (List Char)) := do
  let pregap ← if track.pregapFrames ≠ 0 then do
      let time ← framesToMsf track.pregapFrames
      pure ["    PREGAP ".toList ++ time]
    else pure []
  let time ← framesToMsf track.fileIndexLba
  return ("  TRACK ".toList ++ pad2 track.number ++ ' ' :: track.kind.value.toList) ::
    pregap ++ ["    INDEX 01 ".toList ++ time]

/-- The lines of all tracks, one track after the other. -/
def cueLines : List CDTrack → Except PyError (List (List Char))
  | [] => .ok []
  | track :: tracks => do
    let lines ← cueTrackLines track
    let rest ← cueLines tracks
    return lines ++ rest

/-- `Path(bin_filename).name.replace('"', "'")`. -/
def safeName (binFilename : List Char) : List Char :=
  (pathName binFilename).map fun c => if c = '"' then '\'' else c

/-- The `FILE` line. -/
def cueFileLine (binFilename : List Char) : List Char :=
  "FILE \"".toList ++ safeName binFilename ++ "\" BINARY".toList

/-- `"\r\n".join(lines) + "\r\n"`. -/
def joinLines (lines : List (List Char)) : List Char := lines.flatMap (· ++ ['\r', '\n'])

def generateCue (binFilename : List Char) (tracks : List CDTrack) : Except PyError (List Char) :=
  if tracks = [] then .error (.valueError "At least one track is required")
  else do
    let lines ← cueLines tracks
    return joinLines (cueFileLine binFilename :: lines)

example : framesToMsf (75 * 62 + 3) = .ok "01:02:03".toList := by decide

end Ps2Ripper
