import Ps2Ripper.Imaging.Ripper

/-!
# The optical drive

The part of `windows/optical_api.py` that interprets the answers of the drive: the profile, the
capacity, the layer count, the session information and the table of contents.
-/

namespace Ps2Ripper

open Interactive

/-- `int.from_bytes(data, "big")`. -/
def bigEndian (data : Bytes) : ℕ := data.foldl (fun n b => n * 256 + b.toNat) 0

/-- `test_unit_ready`: every failure of the command means that the drive is not ready. -/
def testUnitReady : Program Bool :=
  .call .testUnitReady fun
    | .ok _ => .pure true
    | .error e => if e.isOSError then .pure false else .raise e

def currentProfile : Program ℕ := do
  let data ← call .getConfiguration
  if data.length < 8 then Prog.raise (.osError "GET CONFIGURATION response was truncated")
  else return bigEndian (slice data 6 8)

def readCapacity : Program (ℕ × ℕ) := do
  let data ← call .readCapacity
  if data.length ≠ 8 then Prog.raise (.osError "READ CAPACITY response was truncated")
  else return (bigEndian (slice data 0 4) + 1, bigEndian (data.drop 4))

def readDvdLayerCount : Program (Option ℕ) :=
  .call .dvdReadStructure fun
    | .ok data =>
      if data.length < 21 then .pure none
      else .pure (some (((data.getD 6 0).toNat / 32) % 4 + 1))
    | .error e => if e.isOSError then .pure none else .raise e

/-! ### The table of contents -/

/-- One descriptor of READ TOC: track number, data bit, start address. -/
structure TocEntry where
  number : ℕ
  isData : Bool
  lba : ℕ
  deriving DecidableEq

/-- The descriptor at `offset`. -/
def tocEntry (data : Bytes) (offset : ℕ) : TocEntry where
  number := (data.getD (offset + 2) 0).toNat
  isData := (data.getD (offset + 1) 0).toNat / 4 % 2 = 1
  lba := bigEndian (slice data (offset + 4) (offset + 8))

/-- `for offset in range(4, total - 7, 8)`. -/
def tocEntries (data : Bytes) : List TocEntry :=
  let total := min (bigEndian (slice data 0 2) + 2) data.length
  (List.range ((total - 4) / 8)).map fun i => tocEntry data (4 + 8 * i)

/-- The number of a lead-out descriptor. -/
def leadOutNumber : ℕ := 0xAA

/-- `CDTrack(number, kind, start, end, start - base)`. -/
def mkTrack (number : ℕ) (kind : TrackKind) (start : ℕ) (endLba : ℤ) (base : ℕ) :
    Except PyError CDTrack :=
  if h : number < 1 ∨ endLba < start then .error (.valueError "Invalid CD track range")
  else .ok
    { number, kind, startLba := start, endLba := endLba.toNat
      fileIndexLba := (start : ℤ) - base
      number_pos := by omega
      start_le_end := by omega }

/-- The kind of a data track, from its first raw sector. -/
def dataTrackKind (start : ℕ) : Program TrackKind := do
  let raw ← call (.readCdRawAny start)
  let form ← Prog.lift (identifySectorForm raw)
  return if form = .mode1 then .mode1_2352 else .mode2_2352

/-- The kind of the track of a descriptor. -/
def entryKind (entry : TocEntry) : Program TrackKind :=
  if entry.isData then dataTrackKind entry.lba else return .audio

/-- The loop over the tracks: a track ends right before the next one or the lead-out. -/
def tocTracks (base leadout : ℕ) : List TocEntry → Program (List CDTrack)
  | [] => return []
  | entry :: rest => do
    let next := match rest with
      | [] => leadout
      | after :: _ => after.lba
    let kind ← entryKind entry
    let track ← Prog.lift (mkTrack entry.number kind entry.lba ((next : ℤ) - 1) base)
    let tracks ← tocTracks base leadout rest
    return track :: tracks

def readSessionCount : Program ℕ := do
  let data ← call .readSessionInfo
  if data.length < 4 then Prog.raise (.osError "Session information response was truncated")
  else
    let firstSession := (data.getD 2 0).toNat
    let lastSession := (data.getD 3 0).toNat
    if firstSession = 0 ∨ lastSession < firstSession then
      Prog.raise (.osError "Session information was invalid")
    else return lastSession - firstSession + 1

def readToc : Program (List CDTrack) := do
  let sessions ← readSessionCount
  if sessions ≠ 1 then
    Prog.raise (.validationError "Multi-session CDs are not supported by this release.")
  else
    let data ← call .readTocResponse
    if data.length < 4 then Prog.raise (.osError "READ TOC response was truncated")
    else
      let entries := tocEntries data
      let tracks := entries.filter (·.number ≠ leadOutNumber)
      match tracks, entries.find? (·.number = leadOutNumber) with
      | first :: _, some leadout => tocTracks first.lba leadout.lba tracks
      | _, _ => Prog.raise (.osError "TOC did not contain tracks and a lead-out address")

end Ps2Ripper
