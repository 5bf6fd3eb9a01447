import Mathlib.Tactic

/-!
# The data model

The records of `core/models.py`, the results of the imaging functions, the exceptions of
`core/exceptions.py` and of the Python runtime, and the places of the file system the program
works in.

A `Path` names its directory by the role it plays (`opl_root / folder`, the directory made by
`mkdtemp`, …) rather than by its text, so that two paths of different roles are different by
construction.  `hidden` marks the sibling `.name.<uuid>.partial` of a destination.
-/

namespace Ps2Ripper

/-- Python's `bytes`. -/
abbrev Bytes := List UInt8

/-! ### Places in the file system -/

/-- The directories of a run; `base` is `settings.temporary_directory`, `root` an OPL root. -/
inductive Dir
  | oplRoot (root : String)
  | opl (root folder : String)
  | temporary (base : String)
  | task (base : String) (id : ℕ)
  | archives (base stem : String)
  | retainedImages (base : String)
  deriving DecidableEq

/-- A file: its directory and its name, or the hidden partial file of that name. -/
structure Path where
  dir : Dir
  name : String
  hidden : Option ℕ := none
  deriving DecidableEq

/-- `path.with_name(f".{path.name}.{uuid}.partial")`. -/
def Path.partialOf (p : Path) (uuid : ℕ) : Path := { p with hidden := some uuid }

/-- The directory in Windows notation. -/
def Dir.str : Dir → String
  | .oplRoot root => root
  | .opl root folder => root ++ "\\" ++ folder
  | .temporary base => base
  | .task base id => base ++ "\\PS2OPLRipper-" ++ toString id
  | .archives base stem => base ++ "\\PS2 OPL Ripper Archives\\" ++ stem
  | .retainedImages base => base ++ "\\PS2 OPL Ripper Retained Images"

/-- `str(path)`. -/
def Path.str (p : Path) : String :=
  match p.hidden with
  | none => p.dir.str ++ "\\" ++ p.name
  | some uuid => p.dir.str ++ "\\." ++ p.name ++ "." ++ toString uuid ++ ".partial"

/-! ### Exceptions -/

/-- The format `{n:,}`. -/
def groupThousands (n : ℕ) : String :=
  let digits := (Nat.toDigits 10 n).reverse
  String.ofList ((digits.zipIdx.flatMap fun (d, i) =>
    if 0 < i ∧ i % 3 = 0 then [',', d] else [d]).reverse)

/-- The exceptions that the modelled code raises, catches or passes on. -/
inductive PyError
  | osError (message : String)
  | fileExistsError (path : Path)
  | opticalReadError (lba attempts : ℕ) (detail : String)
  | validationError (message : String)
  | cancelledError (message : String)
  | unsafeDeviceError (message : String)
  | runtimeError (message : String)
  | valueError (message : String)
  | pycdlibException (message : String)
  | otherError (message : String)
  deriving DecidableEq

/-- `NativeCallError(operation, error_code, message)`, an `OSError`. -/
def nativeCallError (operation : String) (code : ℕ) (message : String) : PyError :=
  .osError s!"{operation} failed (Win32 error {code}): {message}"

/-- `isinstance(exc, OSError)`. -/
def PyError.isOSError : PyError → Bool
  | .osError _ | .fileExistsError _ | .opticalReadError .. => true
  | _ => false

/-- `str(exc)`. -/
def PyError.str : PyError → String
  | .fileExistsError path => path.str
  | .opticalReadError lba attempts detail =>
      let suffix := if detail = "" then "" else " " ++ detail
      s!"Optical read failed at LBA {groupThousands lba} after {attempts} attempts.{suffix}"
  | .osError m | .validationError m | .cancelledError m | .unsafeDeviceError m | .runtimeError m
  | .valueError m | .pycdlibException m | .otherError m => m

/-! ### Discs and images -/

inductive MediaType
  | noMedia
  | ps2Cd
  | ps2Dvd5
  | ps2Dvd9
  | audioCd
  | dvdVideo
  | unsupportedData
  | unreadable
  | unknown
  deriving DecidableEq

inductive TrackKind
  | mode1_2352
  | mode2_2352
  | audio
  deriving DecidableEq

/-- The text of a track kind in a CUE sheet. -/
def TrackKind.value : TrackKind → String
  | .mode1_2352 => "MODE1/2352"
  | .mode2_2352 => "MODE2/2352"
  | .audio => "AUDIO"

/-- A track; `__post_init__` rejects every other combination of numbers. -/
structure CDTrack where
  number : ℕ
  kind : TrackKind
  startLba : ℕ
  endLba : ℕ
  fileIndexLba : ℤ
  pregapFrames : ℤ := 0
  number_pos : 1 ≤ number
  start_le_end : startLba ≤ endLba
  deriving DecidableEq

/-- The number of sectors of a track. -/
def CDTrack.sectors (t : CDTrack) : ℕ := t.endLba - t.startLba + 1

structure DiscIdentity where
  gameId : String
  mediaType : MediaType
  totalSectors : ℕ := 0
  sectorSize : ℕ := 2048
  tracks : List CDTrack := []
  deriving DecidableEq

structure ImageResult where
  path : Path
  size : ℕ
  sha256 : String
  damagedLbas : List ℕ := []
  retries : ℕ := 0

/-- `ImageResult.complete`. -/
def ImageResult.complete (r : ImageResult) : Bool := r.damagedLbas.isEmpty

structure ProgressSnapshot where
  operation : String
  completedBytes : ℕ
  totalBytes : ℕ
  currentLba : Option ℕ := none
  retries : ℕ := 0

/-! ### Disks -/

inductive PartitionStyle
  | raw
  | mbr
  | gpt
  | unknown
  deriving DecidableEq

/-- `PartitionStyle.name`. -/
def PartitionStyle.name : PartitionStyle → String
  | .raw => "RAW"
  | .mbr => "MBR"
  | .gpt => "GPT"
  | .unknown => "UNKNOWN"

structure VolumeInfo where
  guidPath : String
  mountPoints : List String := []
  filesystem : Option String := none
  writable : Bool := false
  diskNumbers : List ℕ := []
  deriving DecidableEq

structure PartitionInfo where
  number : ℕ
  isBoot : Bool := false
  isSystem : Bool := false
  isRecovery : Bool := false
  isEfi : Bool := false
  deriving DecidableEq

structure PhysicalDisk where
  number : ℕ
  devicePath : String
  instanceId : String
  model : String
  serial : String := ""
  capacity : ℕ := 0
  logicalSectorSize : ℕ := 512
  usb : Bool := false
  partitionStyle : PartitionStyle := .unknown
  partitions : List PartitionInfo := []
  volumes : List VolumeInfo := []
  safetyReasons : List String := []
  deriving DecidableEq

def PhysicalDisk.physicalName (d : PhysicalDisk) : String := s!"PhysicalDrive{d.number}"

/-- `PhysicalDisk.destructive_access_allowed`. -/
def PhysicalDisk.destructiveAccessAllowed (d : PhysicalDisk) : Bool :=
  d.usb && d.safetyReasons.isEmpty

def PhysicalDisk.identityTuple (d : PhysicalDisk) : String × String × String × ℕ × ℕ × Bool :=
  (d.instanceId, d.serial, d.model, d.capacity, d.logicalSectorSize, d.usb)

end Ps2Ripper
