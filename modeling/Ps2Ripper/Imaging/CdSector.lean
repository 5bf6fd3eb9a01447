import Ps2Ripper.Core.Models

/-!
# Raw CD sectors

`imaging/cd_sector.py`: the form of a 2352-byte raw sector and its 2048 bytes of user data.
-/

namespace Ps2Ripper

def rawSectorSize : ℕ := 2352

/-- The sync pattern that opens every raw data sector. -/
def sync : Bytes := 0x00 :: List.replicate 10 0xff ++ [0x00]

inductive SectorForm
  | mode1
  | mode2Form1
  | mode2Form2
  deriving DecidableEq

/-- `data[i:j]`. -/
def slice (data : Bytes) (i j : ℕ) : Bytes := (data.take j).drop i

def identifySectorForm (sector : Bytes) : Except PyError SectorForm :=
  if sector.length ≠ rawSectorSize then
    .error (.validationError
      s!"Expected a 2352-byte raw sector, received {sector.length} bytes.")
  else if slice sector 0 12 ≠ sync then
    .error (.validationError "Raw data sector has an invalid sync pattern.")
  else
    let mode := sector.getD 15 0
    if mode = 1 then .ok .mode1
    else if mode ≠ 2 then
      .error (.validationError s!"Unsupported CD sector mode {mode.toNat}.")
    else if slice sector 16 20 ≠ slice sector 20 24 then
      .error (.validationError "Mode 2 XA sector has mismatched subheader copies.")
    else if sector.getD 18 0 &&& 0x20 ≠ 0 then .ok .mode2Form2
    else .ok .mode2Form1

def extract2048UserData (sector : Bytes) : Except PyError Bytes :=
  match identifySectorForm sector with
  | .error e => .error e
  | .ok .mode1 => .ok (slice sector 16 2064)
  | .ok .mode2Form1 => .ok (slice sector 24 2072)
  | .ok .mode2Form2 => .error (.validationError
      "Mode 2 Form 2 sectors cannot be represented in a 2048-byte ISO.")

theorem length_of_identifySectorForm {sector : Bytes} {form : SectorForm}
    (h : identifySectorForm sector = .ok form) : sector.length = rawSectorSize := by
  unfold identifySectorForm at h
  split at h
  · cases h
  · omega

/-- Extracted user data has the size of a logical sector. -/
theorem length_of_extract2048UserData {sector data : Bytes}
    (h : extract2048UserData sector = .ok data) : data.length = 2048 := by
  unfold extract2048UserData at h
  split at h <;> cases h
  all_goals
    have hlen := length_of_identifySectorForm ‹_›
    simp [slice, hlen, rawSectorSize]

end Ps2Ripper
