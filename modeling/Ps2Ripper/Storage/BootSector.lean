import Ps2Ripper.Storage.DiskImage
import Ps2Ripper.Windows.DriveLayout

/-!
# The boot sector

The rest of `exfat_mkfs` of `FATtools/mkfat.py`, from the first entries of the FAT on, and
`independently_check_boot_regions` of `storage/exfat.py`.

* `ExfatBoot`: the boot sector, as a record and as the bytes that `pack` makes of it;
* `genUpcaseCompressed`, `DosTime`: the up-case table and the serial number of the volume;
* `VolumeCode`: the classes for bitmaps and directory tables, which are a parameter;
* `formatterTail`: what is written to the partition, and in which order;
* `independentlyCheckBootRegions`: the check.
-/

namespace Ps2Ripper

open Interactive Prog Binary

/-! ### The record -/

/-- `struct.pack` of one unsigned field. -/
def packField (width value : ℕ) : Except PyError Bytes :=
  if value < 256 ^ width then .ok (Binary.bytes width value)
  else .error (.otherError "argument out of range")

/-- `boot_exfat`.  Sizes and offsets count sectors, `dataRegionLength` counts clusters; the two
sizes at the end are exponents of two. -/
structure ExfatBoot where
  jumpInstruction : Field 3 := ⟨[0xEB, 0x76, 0x90], rfl⟩
  oemId : Field 8 := ⟨[69, 88, 70, 65, 84, 32, 32, 32], rfl⟩
  partOffset : ℕ
  volumeLength : ℕ
  fatOffset : ℕ
  fatLength : ℕ
  dataRegionOffset : ℕ
  dataRegionLength : ℕ
  rootCluster : ℕ
  volumeSerial : ℕ
  fsRevision : ℕ := 0x100
  flags : ℕ := 0
  bytesPerSector : ℕ
  sectorsPerCluster : ℕ
  fatCopies : ℕ := 1
  driveSelect : ℕ := 0x80
  percentInUse : ℕ := 0

/-- The code at 0x78: "NO DOS". -/
def nodosAsm78h : Bytes :=
  [0xB8, 0xC0, 0x07, 0x8E, 0xD8, 0xBE, 0x93, 0x00, 0xAC, 0x08, 0xC0, 0x74, 0x0A, 0xB4, 0x0E, 0xBB,
    0x07, 0x00, 0xCD, 0x10, 0xE9, 0xF1, 0xFF, 0xF4, 0xE9, 0xFC, 0xFF, 0x4E, 0x4F, 0x20, 0x44, 0x4F,
    0x53, 0x00]

namespace ExfatBoot

variable (boot : ExfatBoot)

/-- The numbers from 0x40 on: their widths and values. -/
def layout : List (ℕ × ℕ) :=
  [(8, boot.partOffset), (8, boot.volumeLength), (4, boot.fatOffset), (4, boot.fatLength),
    (4, boot.dataRegionOffset), (4, boot.dataRegionLength), (4, boot.rootCluster),
    (4, boot.volumeSerial), (2, boot.fsRevision), (2, boot.flags), (1, boot.bytesPerSector),
    (1, boot.sectorsPerCluster), (1, boot.fatCopies), (1, boot.driveSelect), (1, boot.percentInUse)]

/-- The sector around its numbers. -/
def assemble (fields : List Bytes) : Bytes :=
  ([boot.jumpInstruction.1, boot.oemId.1, zeros 53] ++ fields ++
    [zeros 7, nodosAsm78h, zeros 356, [0x55, 0xAA]]).flatten

def pack : Except PyError Bytes :=
  (boot.layout.mapM fun field => packField field.1 field.2).map boot.assemble

/-- The bytes of a cluster. -/
def cluster : ℕ := 2 ^ boot.bytesPerSector * 2 ^ boot.sectorsPerCluster

def fatoffs : ℕ := boot.fatOffset * 2 ^ boot.bytesPerSector

/-- The clusters are numbered from 2 on. -/
def cl2offset (cluster : ℕ) : ℕ :=
  boot.dataRegionOffset * 2 ^ boot.bytesPerSector + (cluster - 2) * boot.cluster

def root : ℕ := boot.cl2offset boot.rootCluster

/-- How many clusters hold that many bytes. -/
def clustersFor (length : ℕ) : ℕ := (length + boot.cluster - 1) / boot.cluster

/-- A bit for each cluster. -/
def bitmapLength : ℕ := (boot.dataRegionLength + 7) / 8

end ExfatBoot

/-- `GetChecksum` of the boot region or of the up-case table.  In the boot region the flags and the
percentage in use are left out. -/
def getChecksum (data : Bytes) (upCase : Bool) : ℕ :=
  data.zipIdx.foldl (fun hash (byte, i) =>
    if upCase = false ∧ (i = 106 ∨ i = 107 ∨ i = 112) then hash
    else (((hash <<< 31 ||| hash >>> 1) % 2 ^ 32) + byte.toNat) % 2 ^ 32) 0

/-! ### The up-case table and the serial number -/

/-- A round of the loop over the UTF-16 units; `run` is where units began that are their own upper
case.  A run of more than two of them is replaced by its length when it ends. -/
def compressUnit (upcase : ℕ → Field 2) : List Bytes × Option ℕ → ℕ → List Bytes × Option ℕ
  | (tab, run), i =>
    if Binary.bytes 2 i ≠ (upcase i).1 then
      match run with
      | some start =>
        if 2 < i - start then
          (tab.take (tab.length - (i - start)) ++ [[0xFF, 0xFF], Binary.bytes 2 (i - start)] ++
            [(upcase i).1], none)
        else (tab ++ [(upcase i).1], none)
      | none => (tab ++ [(upcase i).1], none)
    else (tab ++ [(upcase i).1], some (run.getD i))

/-- `upcase` is `gen_upcase(1)`, the upper case of each unit on this computer. -/
def genUpcaseCompressed (upcase : ℕ → Field 2) : Bytes :=
  ((List.range 65536).foldl (compressUnit upcase) ([], none)).1.flatten

/-- A local time that DOS can represent. -/
structure DosTime where
  year : ℕ
  month : ℕ
  day : ℕ
  hour : ℕ
  minute : ℕ
  second : ℕ
  year_le : 1980 ≤ year ∧ year < 2108
  month_le : month ≤ 12
  day_le : day ≤ 31
  hour_lt : hour < 24
  minute_lt : minute < 60
  second_lt : second < 60

/-- The first component of `GetDosDateTimeEx()`. -/
def DosTime.dosDateTime (t : DosTime) : ℕ :=
  let cdate := (t.year - 1980) <<< 9 ||| t.month <<< 5 ||| t.day
  let ctime := t.hour <<< 11 ||| t.minute <<< 5 ||| t.second / 2
  cdate <<< 16 ||| ctime

/-! ### The volume -/

/-- What the formatter takes from elsewhere: the upper case of the characters, the time, the classes
`Bitmap`, `Chain` and `Dirtable` in `exfat_mkfs`, with the up-case table whose slot they write, and
the directories. -/
structure VolumeCode where
  upcase : ℕ → Field 2
  now : DosTime
  bitmapAndRoot : DiskPartition → ExfatBoot → Bytes → RawProgram Unit
  directories : DiskPartition → RawProgram Unit

/-- The boot sector for a partition in sectors of 512 bytes, as far as it is known at first. -/
def exfatBoot (serial : ℕ) (stream : DiskPartition) (info : FsInfo) : ExfatBoot where
  partOffset := stream.offset / 512
  volumeLength := stream.size / 512
  fatOffset := (info.reservedSize / 512).toNat
  fatLength := (info.fatSize / 512).toNat
  dataRegionOffset := (info.reservedSize / 512).toNat + (info.fatSize / 512).toNat
  dataRegionLength := info.clusters.toNat
  rootCluster := 0
  volumeSerial := serial
  bytesPerSector := Nat.log2 512
  sectorsPerCluster := Nat.log2 (info.clusterSize / 512).toNat

/-- `count` times a blank cluster, or sector. -/
def writeBlank (size : ℕ) : ℕ → RawProgram Unit
  | 0 => return
  | count + 1 => do
    raw (.write (zeros size))
    writeBlank size count

/-- `empty`, a sector with nothing but its signature. -/
def emptySector : Bytes := zeros 510 ++ [0x55, 0xAA]

/-- The sectors behind the boot sector up to the checksum. -/
def writeEmptySectors : ℕ → RawProgram Unit
  | 0 => return
  | count + 1 => do
    raw (.write emptySector)
    writeEmptySectors count

/-- `FAT.mark_run` for exFAT: a chain of consecutive clusters.  For one cluster it does what the
assignment `fat[start] = fat.last` does. -/
def markRun (stream : DiskPartition) (boot : ExfatBoot) (start count : ℕ) : RawProgram Unit :=
  if count = 0 ∨ start < 2 ∨ min 0xFFFFFFF6 (boot.dataRegionLength + 1) < start then return
  else do
    stream.seek (boot.fatoffs + start * 32 / 8)
    let links ← lift ((List.range' (start + 1) (count - 1)).mapM packI)
    let last ← lift (packI 0xFFFFFFFF)
    raw (.write (links.flatten ++ last))

/-- The up-case table. -/
def VolumeCode.table (v : VolumeCode) : Bytes := genUpcaseCompressed v.upcase

/-- The boot sector, which names the cluster behind the up-case table as that of the root. -/
def VolumeCode.boot (v : VolumeCode) (stream : DiskPartition) (info : FsInfo) : ExfatBoot :=
  let boot := exfatBoot v.now.dosDateTime stream info
  { boot with
    rootCluster := 2 + boot.clustersFor boot.bitmapLength + boot.clustersFor v.table.length }

/-- The first 12 sectors of the partition, and their copy. -/
def writeBootRegion (stream : DiskPartition) (boot : ExfatBoot) : RawProgram Unit := do
  stream.seek 0
  let sector ← lift boot.pack
  raw (.write sector)
  writeEmptySectors 8
  raw (.write (zeros 512))
  raw (.write (zeros 512))
  stream.seek 0
  let vbr ← raw (.read (512 * 11 : ℕ))
  let checksum ← lift (packI (getChecksum vbr false))
  let checksums := (List.replicate 128 checksum).flatten
  raw (.write checksums)
  raw (.write vbr)
  raw (.write checksums)

/-- The bitmap is blanked, and the up-case table follows it. -/
def writeBitmapAndTable (v : VolumeCode) (stream : DiskPartition) (boot : ExfatBoot) :
    RawProgram Unit := do
  let bitmapClusters := boot.clustersFor boot.bitmapLength
  stream.seek (boot.cl2offset 2)
  writeBlank boot.cluster bitmapClusters
  stream.seek (boot.cl2offset (2 + bitmapClusters))
  raw (.write v.table)

/-- The root directory is blanked, and the chains of the three are marked. -/
def writeRootAndChains (v : VolumeCode) (stream : DiskPartition) (boot : ExfatBoot) :
    RawProgram Unit := do
  let bitmapClusters := boot.clustersFor boot.bitmapLength
  stream.seek boot.root
  raw (.write (zeros boot.cluster))
  markRun stream boot 2 bitmapClusters
  markRun stream boot (2 + bitmapClusters) (boot.clustersFor v.table.length)
  markRun stream boot boot.rootCluster 1

/-- `exfat_mkfs` from the first entries of the FAT on. -/
def writeVolume (v : VolumeCode) (stream : DiskPartition) (info : FsInfo) : RawProgram ℤ := do
  let boot := v.boot stream info
  writeBitmapAndTable v stream boot
  writeBootRegion stream boot
  writeRootAndChains v stream boot
  v.bitmapAndRoot stream boot v.table
  return 0

def formatterTail (v : VolumeCode) : FormatterTail := ⟨writeVolume v, v.directories⟩

/-! ### The check -/

/-- Indexing. -/
def byteAt (raw : Bytes) (i : ℕ) : Except PyError ℕ :=
  match raw[i]? with
  | some byte => .ok byte.toNat
  | none => .error (.otherError "index out of range")

/-- The format `02X`. -/
def hex02 (n : ℕ) : String :=
  String.ofList (List.leftpad 2 '0' ((Nat.toDigits 16 n).map Char.toUpper))

def independentlyCheckBootRegions (image : DiskImage) (expected : FormatResult) :
    Except PyError Unit := do
  let mbr := image.bytes 0 512
  if slice mbr 510 512 ≠ [0x55, 0xAA] then .error (.validationError "MBR signature is missing.")
  let status ← byteAt mbr 446
  let partitionType ← byteAt mbr 450
  let startLba ← unpackFrom mbr 454 4
  let sectors ← unpackFrom mbr 458 4
  if status ≠ 0 then
    .error (.validationError "OPL data partition was unexpectedly marked active.")
  if partitionType ≠ 0x07 then
    .error (.validationError s!"Unexpected MBR partition type 0x{hex02 partitionType}.")
  if startLba * 512 ≠ expected.partitionOffset ∨ sectors * 512 ≠ expected.partitionSize then
    .error (.validationError "MBR partition range does not match the formatter result.")
  let boot := image.bytes expected.partitionOffset 512
  if slice boot 3 11 ≠ [69, 88, 70, 65, 84, 32, 32, 32] then
    .error (.validationError "exFAT OEM signature is missing.")
  let partOffset ← unpackFrom boot 0x40 8
  if partOffset ≠ startLba then
    .error (.validationError
      s!"exFAT PartitionOffset is {partOffset} sectors; expected {startLba}.")
  let bytesPerSector ← byteAt boot 0x6C
  let sectorsPerCluster ← byteAt boot 0x6D
  if 2 ^ bytesPerSector * 2 ^ sectorsPerCluster ≠ expected.clusterSize then
    .error (.validationError "exFAT cluster size does not match the requested default.")

end Ps2Ripper
