import Ps2Ripper.Windows.StorageApi
import Ps2Ripper.Windows.RawDisk

/-!
# Partitioning a disk

`partition(disk, "mbr", …)` of `FATtools/partutils.py` with the options that the formatter passes,
and its run over a raw disk stream whose native calls all succeed.

* `RawDisk.perform`, `runRaw`: the stream as the environment of a program;
* `DiskType`, `getGeometry`, `mkPart`, `MbrPartition`: the only partition of the disk;
* `partitionMbr`: what is written to the disk;
* `mkPart_fits`: the partition starts at 1 MiB, ends inside the disk and leaves little of it free.
-/

namespace Ps2Ripper

open Interactive Prog

def mib : ℕ := 1048576

def zeros (count : ℕ) : Bytes := List.replicate count 0

/-! ### The stream -/

/-- Carry out one call; the device transfers everything that it is asked to. -/
def RawDisk.perform (d : RawDisk) (s : DiskState) :
    (o : RawOp) → Except PyError o.Answer × DiskState
  | .seek offset whence => s.seek d offset whence ⟨0, none⟩
  | .tell => (.ok s.tell, s)
  | .read size => s.read d size ⟨size.toNat, none⟩
  | .write data => s.write d data ⟨data.length, none⟩
  | .flush => (.ok (), s)

def runRaw (d : RawDisk) {α : Type} (p : RawProgram α) (s : DiskState) :
    Outcome PyError α DiskState :=
  run (fun _ s o => d.perform s o) p 0 s

def raw (o : RawOp) : RawProgram o.Answer := Prog.perform (S := rawInterface) o

/-! ### The partition table -/

/-- The sizes of floppy disks and of three hard disks, in sectors, with their geometry. -/
def geometries : List (ℕ × ℕ × ℕ × ℕ) :=
  [(320, 40, 1, 8), (360, 40, 1, 9), (640, 80, 1, 8), (720, 80, 1, 9), (1280, 80, 2, 8),
    (1440, 80, 2, 9), (2400, 80, 2, 15), (2880, 80, 2, 18), (3360, 80, 2, 21), (3444, 82, 2, 21),
    (3680, 80, 2, 23), (5760, 80, 2, 36), (10404, 306, 2, 17), (41820, 615, 4, 17),
    (83640, 820, 6, 17)]

/-- The loop over the heads: the cylinders and the heads it ends with. -/
def fitHeads (ch : ℕ) : List ℕ → ℕ × ℕ → ℕ × ℕ
  | [], found => found
  | h :: heads, _ => if 1024 < ch / h then fitHeads ch heads (ch / h, h) else (ch / h, h)

/-- The loop over the sectors of a cylinder; it has no `break`, so the last round decides. -/
def fitSectors (sectors : ℕ) : List ℕ → ℕ × ℕ → ℕ × ℕ
  | [], found => found
  | s :: rest, found =>
    if 1024 * 255 < sectors / s then fitSectors sectors rest found
    else fitSectors sectors rest
      (fitHeads (sectors / s) [2, 4, 6, 8, 9, 10, 16, 32, 64, 128, 240, 255] found)

/-- Cylinders, heads and sectors; the list of the loop over the sectors ends with 63. -/
def getGeometry (size sector : ℕ) : ℕ × ℕ × ℕ :=
  let sectors := size / sector
  match geometries.find? (·.1 = sectors) with
  | some (_, geometry) => geometry
  | none =>
    let (c, h) := fitSectors sectors [17, 36, 48, 52, 63] (0, 0)
    if h = 0 then (sectors / (255 * 63), 255, 63) else (c, h, 63)

def lba2chs (lba hpc spc : ℕ) : Option (ℕ × ℕ × ℕ) :=
  if hpc = 0 ∨ 255 < hpc ∨ spc = 0 ∨ 63 < spc then none
  else some (lba / (hpc * spc), lba / spc % hpc, lba % spc + 1)

def chs2raw : ℕ × ℕ × ℕ → Bytes
  | (c, h, s) =>
    if 1023 < c then [254, 255, 255]
    else [UInt8.ofNat h, UInt8.ofNat (((c &&& 768) >>> 2) ||| s), UInt8.ofNat (c &&& 255)]

/-- What `mkpart` returns. -/
structure PartitionExtent where
  firstSectorLba : ℕ
  totalSectors : ℕ
  firstSectorChs : Option (ℕ × ℕ × ℕ)
  lastSectorChs : Option (ℕ × ℕ × ℕ)

/-- The heads and the sectors of a cylinder that `mkpart` uses, with the cylinders: those of the
disk, or those of the partition if these are too many. -/
def partGeometry (heads sectorsPerCyl size sector : ℕ) : ℕ × ℕ × ℕ :=
  let c := size / sector / (heads * sectorsPerCyl)
  if heads = 0 ∨ 1024 < c then getGeometry size sector else (c, heads, sectorsPerCyl)

def partitionExtent (offset partsize h s sector : ℕ) : PartitionExtent :=
  let first := offset / sector
  let total := partsize / sector
  ⟨first, total, lba2chs first h s,
    if 1024 * 255 * 63 * sector < partsize then some (1023, 254, 63)
    else lba2chs (first + total - 1) h s⟩

/-- The end of the partition is that of a cylinder, or if it is too large of a megabyte. -/
def mkPart (heads sectorsPerCyl offset size sector : ℕ) : PartitionExtent :=
  let (c, h, s) := partGeometry heads sectorsPerCyl size sector
  let cylSize := h * s * sector
  let partsize := (offset + c * cylSize) / cylSize * cylSize - offset
  if 1024 * 255 * 63 * sector < partsize then
    partitionExtent offset (size / mib * mib) 255 63 sector
  else partitionExtent offset partsize h s sector

/-- An entry of the partition table. -/
structure MbrPartition where
  status : UInt8
  firstSectorChs : Bytes
  type : UInt8
  lastSectorChs : Bytes
  firstSectorLba : ℕ
  totalSectors : ℕ

/-- `setpart(0, start, size)`, for the type that the caller sets afterwards. -/
def setPart (heads sectorsPerCyl start size sector : ℕ) (type : UInt8) :
    Except PyError MbrPartition :=
  let extent := mkPart heads sectorsPerCyl start size sector
  match extent.firstSectorChs, extent.lastSectorChs with
  | some first, some last =>
    .ok {
      status := 0
      firstSectorChs := chs2raw (if 1023 < first.1 then (0, 0, 1) else first)
      type := type
      lastSectorChs := chs2raw (if 1023 < last.1 then (1023, 254, 63) else last)
      firstSectorLba := extent.firstSectorLba
      totalSectors := extent.totalSectors }
  | _, _ => .error (.otherError "'NoneType' object is not subscriptable")

/-- `struct.pack('<I', n)`. -/
def packI (n : ℕ) : Except PyError Bytes :=
  if n < 2 ^ 32 then
    .ok [UInt8.ofNat n, UInt8.ofNat (n >>> 8), UInt8.ofNat (n >>> 16), UInt8.ofNat (n >>> 24)]
  else .error (.otherError "argument out of range")

def bootCode : Bytes :=
  [49, 201, 250, 142, 209, 188, 0, 124, 142, 217, 142, 193, 251, 137, 227, 137, 222, 191, 0, 6,
    185, 0, 1, 252, 243, 165, 234, 31, 6, 0, 0, 190, 190, 7, 128, 60, 128, 116, 28, 131, 198,
    16, 129, 254, 254, 7, 124, 242, 190, 140, 6, 172, 60, 0, 116, 8, 49, 219, 180, 14, 205, 16,
    235, 243, 244, 235, 253, 178, 128, 180, 66, 135, 247, 190, 124, 6, 139, 77, 8, 137, 76, 8,
    139, 77, 10, 137, 76, 12, 205, 19, 135, 247, 115, 17, 48, 228, 205, 19, 184, 1, 2, 139, 76,
    2, 138, 116, 1, 205, 19, 114, 193, 129, 62, 254, 7, 85, 170, 117, 185, 234, 0, 124, 0, 0,
    16, 0, 1, 0, 0, 124, 0, 0, 0, 0, 0, 0, 0, 0, 0, 0, 78, 111, 116, 104, 105, 110, 103, 32,
    116, 111, 32, 98, 111, 111, 116, 46, 0]

/-- `MBR.pack(512)` with the boot code and one partition. -/
def packMbr (entry : MbrPartition) : Except PyError Bytes := do
  let first ← packI entry.firstSectorLba
  let total ← packI entry.totalSectors
  return bootCode ++ zeros (0x1BE - bootCode.length) ++
    ([entry.status] ++ entry.firstSectorChs ++ [entry.type] ++ entry.lastSectorChs ++
      first ++ total) ++
    zeros 48 ++ [0x55, 0xAA]

/-- The `type()` of a stream that the formatter is given, with what `partition` looks up for it: the
geometry in the footer of a VHD. -/
inductive DiskType where
  | disk
  | vhd (geometry : ℕ × ℕ × ℕ)

/-- Cylinders, heads and sectors that `partition` starts from. -/
def DiskType.geometry (diskSize : ℕ) : DiskType → ℕ × ℕ × ℕ
  | disk => getGeometry diskSize 512
  | vhd geometry => geometry

/-- `partition(disk, "mbr", {"phys_sector": 512, "lba_mode": 1, "mbr_type": 0x07})`: the old table,
the new one, the boot sector of the partition, and the last sector.  The first partition is
returned. -/
def partitionMbr (type : DiskType) (diskSize : ℕ) : RawProgram MbrPartition := do
  raw (.seek 0 0)
  let (_, heads, sectorsPerCyl) := type.geometry diskSize
  let entry ← lift (setPart heads sectorsPerCyl mib (diskSize - mib - 33 * 512) 512 7)
  raw (.write (zeros 32768))
  raw (.seek 0 0)
  let sector ← lift (packMbr entry)
  raw (.write sector)
  raw (.seek (entry.firstSectorLba * 512 : ℕ) 0)
  raw (.write (zeros 512))
  raw (.seek (diskSize - 512 : ℕ) 0)
  raw (.write (zeros 512))
  raw .flush
  return entry

/-! ### The partition -/

theorem fitHeads_cons (ch h : ℕ) (heads : List ℕ) (found : ℕ × ℕ) :
    ∃ h' ∈ h :: heads, fitHeads ch (h :: heads) found = (ch / h', h') := by
  induction heads generalizing h found with
  | nil =>
    refine ⟨h, List.mem_cons_self, ?_⟩
    rw [fitHeads]
    split <;> rfl
  | cons next heads ih =>
    rw [fitHeads]
    split
    · obtain ⟨h', hmem, heq⟩ := ih next (ch / h, h)
      exact ⟨h', List.mem_cons_of_mem h hmem, heq⟩
    · exact ⟨h, List.mem_cons_self, rfl⟩

theorem fitSectors_append (sectors : ℕ) (xs ys : List ℕ) (found : ℕ × ℕ) :
    fitSectors sectors (xs ++ ys) found = fitSectors sectors ys (fitSectors sectors xs found) := by
  induction xs generalizing found with
  | nil => rfl
  | cons s xs ih =>
    rw [List.cons_append, fitSectors, fitSectors]
    split
    · exact ih found
    · exact ih _

/-- A geometry with full cylinders of at most 255 heads and 63 sectors each. -/
theorem getGeometry_eq (size : ℕ) (hsize : 83640 < size / 512) :
    ∃ h, 0 < h ∧ h ≤ 255 ∧ getGeometry size 512 = (size / 512 / (h * 63), h, 63) := by
  have hnone : geometries.find? (·.1 = size / 512) = none := by
    rw [List.find?_eq_none]
    have hsmall : ∀ geometry ∈ geometries, geometry.1 ≤ 83640 := by decide
    intro geometry hmem
    have := hsmall geometry hmem
    simp only [decide_eq_true_eq]
    omega
  rw [getGeometry, hnone]
  by_cases hlarge : 1024 * 255 < size / 512 / 63
  · -- Every round of the loop is skipped.
    have hzero : fitSectors (size / 512) [17, 36, 48, 52, 63] (0, 0) = (0, 0) := by
      have h17 : 1024 * 255 < size / 512 / 17 := by omega
      have h36 : 1024 * 255 < size / 512 / 36 := by omega
      have h48 : 1024 * 255 < size / 512 / 48 := by omega
      have h52 : 1024 * 255 < size / 512 / 52 := by omega
      simp only [fitSectors, if_pos h17, if_pos h36, if_pos h48, if_pos h52, if_pos hlarge]
    exact ⟨255, by decide, le_rfl, by rw [hzero]; rfl⟩
  · have hlast := fitSectors_append (size / 512) [17, 36, 48, 52] [63] (0, 0)
    rw [fitSectors, if_neg hlarge, fitSectors] at hlast
    obtain ⟨h, hmem, heq⟩ := fitHeads_cons (size / 512 / 63) 2
      [4, 6, 8, 9, 10, 16, 32, 64, 128, 240, 255] (fitSectors (size / 512) [17, 36, 48, 52] (0, 0))
    have hbounds : ∀ h ∈ [2, 4, 6, 8, 9, 10, 16, 32, 64, 128, 240, 255], 0 < h ∧ h ≤ 255 := by
      decide
    obtain ⟨hpos, hle⟩ := hbounds h hmem
    rw [heq] at hlast
    refine ⟨h, hpos, hle, ?_⟩
    change (match fitSectors (size / 512) ([17, 36, 48, 52] ++ [63]) (0, 0) with
      | (c, h) => if h = 0 then _ else (c, h, 63)) = _
    rw [hlast]
    simp only [if_neg hpos.ne']
    rw [Nat.div_div_eq_div_mul _ 63, Nat.mul_comm 63]

/-- Heads and sectors of a cylinder that an entry of the table can name. -/
structure Addressable (heads sectorsPerCyl : ℕ) : Prop where
  heads_pos : 0 < heads
  heads_le : heads ≤ 255
  sectors_pos : 0 < sectorsPerCyl
  sectors_le : sectorsPerCyl ≤ 63

theorem Addressable.cylinder_pos {h s : ℕ} (hs : Addressable h s) : 0 < h * s :=
  Nat.mul_pos hs.heads_pos hs.sectors_pos

theorem Addressable.cylinder_le {h s : ℕ} (hs : Addressable h s) : h * s ≤ 16065 :=
  Nat.mul_le_mul hs.heads_le hs.sectors_le

/-- The heads and sectors can be used for a partition of that size, or `mkpart` takes others. -/
def Usable (heads sectorsPerCyl size : ℕ) : Prop :=
  Addressable heads sectorsPerCyl ∨ 1024 < size / 512 / (heads * sectorsPerCyl)

theorem partGeometry_eq {heads sectorsPerCyl : ℕ} (size : ℕ) (hsize : 83640 < size / 512)
    (husable : Usable heads sectorsPerCyl size) :
    ∃ h s, Addressable h s ∧
      partGeometry heads sectorsPerCyl size 512 = (size / 512 / (h * s), h, s) := by
  rw [partGeometry]
  split
  · obtain ⟨h, hpos, hle, hgeometry⟩ := getGeometry_eq size hsize
    exact ⟨h, 63, ⟨hpos, hle, by decide, le_rfl⟩, hgeometry⟩
  · rename_i hkept
    rw [not_or] at hkept
    exact ⟨heads, sectorsPerCyl, husable.resolve_right hkept.2, rfl⟩

theorem lba2chs_isSome (lba : ℕ) {h s : ℕ} (hs : Addressable h s) : (lba2chs lba h s).isSome := by
  obtain ⟨hpos, hle, hpos', hle'⟩ := hs
  rw [lba2chs, if_neg (by omega)]
  rfl

theorem length_packI {n : ℕ} {bytes : Bytes} (h : packI n = .ok bytes) : bytes.length = 4 := by
  rw [packI] at h
  split at h
  · cases h
    rfl
  · cases h

theorem length_chs2raw (chs : ℕ × ℕ × ℕ) : (chs2raw chs).length = 3 := by
  rw [chs2raw]
  split <;> rfl

/-- Full cylinders of the disk, from 1 MiB on, that a partition of `size` bytes takes up. -/
theorem cylinders_bounds (size cylinder : ℕ) (hpos : 0 < cylinder) (hle : cylinder ≤ 16065)
    (hsize : 66043392 ≤ size) :
    (mib + size / 512 / cylinder * (cylinder * 512)) / (cylinder * 512) * (cylinder * 512) - mib
        ≤ size ∧
      49265664 ≤ (mib + size / 512 / cylinder * (cylinder * 512)) / (cylinder * 512) *
        (cylinder * 512) - mib := by
  have hq : 0 < cylinder * 512 := by omega
  have hc : size / 512 / cylinder * cylinder ≤ size / 512 := Nat.div_mul_le_self ..
  have hc' : size / 512 < size / 512 / cylinder * cylinder + cylinder :=
    Nat.lt_div_mul_add hpos
  have hmul : size / 512 / cylinder * (cylinder * 512) = size / 512 / cylinder * cylinder * 512 :=
    (mul_assoc ..).symm
  rw [hmul]
  generalize size / 512 / cylinder * cylinder = whole at hc hc'
  have hd : (mib + whole * 512) / (cylinder * 512) * (cylinder * 512) ≤ mib + whole * 512 :=
    Nat.div_mul_le_self ..
  have hd' : mib + whole * 512 <
      (mib + whole * 512) / (cylinder * 512) * (cylinder * 512) + cylinder * 512 :=
    Nat.lt_div_mul_add hq
  generalize (mib + whole * 512) / (cylinder * 512) * (cylinder * 512) = full at hd hd'
  rw [mib] at *
  omega

/-- A partition at 1 MiB of a disk: where it starts, how long it is, and that its entry is built. -/
structure PartitionExtent.Fits (extent : PartitionExtent) (size : ℕ) : Prop where
  first : extent.firstSectorLba = 2048
  total_le : extent.totalSectors * 512 ≤ size
  le_total : 49265152 ≤ extent.totalSectors * 512
  firstChs : extent.firstSectorChs.isSome
  lastChs : extent.lastSectorChs.isSome

theorem partitionExtent_fits {partsize size h s : ℕ} (hs : Addressable h s)
    (hsize : partsize ≤ size) (hpart : 49265664 ≤ partsize) :
    (partitionExtent mib partsize h s 512).Fits size where
  first := rfl
  total_le := (Nat.div_mul_le_self ..).trans hsize
  le_total := by
    change 49265152 ≤ partsize / 512 * 512
    omega
  firstChs := lba2chs_isSome _ hs
  lastChs := by
    rw [partitionExtent]
    split
    · rfl
    · exact lba2chs_isSome _ hs

theorem mkPart_eq {heads sectorsPerCyl offset size sector c h s : ℕ}
    (hgeometry : partGeometry heads sectorsPerCyl size sector = (c, h, s)) :
    mkPart heads sectorsPerCyl offset size sector =
      if 1024 * 255 * 63 * sector <
          (offset + c * (h * s * sector)) / (h * s * sector) * (h * s * sector) - offset then
        partitionExtent offset (size / mib * mib) 255 63 sector
      else partitionExtent offset
        ((offset + c * (h * s * sector)) / (h * s * sector) * (h * s * sector) - offset)
        h s sector := by
  rw [mkPart, hgeometry]

theorem mkPart_fits {heads sectorsPerCyl : ℕ} (size : ℕ) (hsize : 66043392 ≤ size)
    (husable : Usable heads sectorsPerCyl size) :
    (mkPart heads sectorsPerCyl mib size 512).Fits size := by
  obtain ⟨h, s, hs, hgeometry⟩ := partGeometry_eq size (by omega) husable
  have hcylinders := cylinders_bounds size (h * s) hs.cylinder_pos hs.cylinder_le hsize
  rw [mkPart_eq hgeometry]
  split
  · -- Too large for cylinders: the partition is rounded to megabytes.
    have hrounded : size / mib * mib ≤ size ∧ 49265664 ≤ size / mib * mib := by
      rw [mib]
      omega
    have hlargest : Addressable 255 63 := by constructor <;> decide
    exact partitionExtent_fits hlargest hrounded.1 hrounded.2
  · exact partitionExtent_fits hs hcylinders.1 hcylinders.2

theorem setPart_of_fits {heads sectorsPerCyl start size sector limit : ℕ} (type : UInt8)
    (h : (mkPart heads sectorsPerCyl start size sector).Fits limit) :
    ∃ entry, setPart heads sectorsPerCyl start size sector type = .ok entry ∧
      entry.firstSectorLba = 2048 ∧ entry.totalSectors * 512 ≤ limit ∧
      49265152 ≤ entry.totalSectors * 512 ∧ entry.firstSectorChs.length = 3 ∧
      entry.lastSectorChs.length = 3 ∧ entry.status = 0 ∧ entry.type = type := by
  obtain ⟨first, hfirst⟩ := Option.isSome_iff_exists.1 h.firstChs
  obtain ⟨last, hlast⟩ := Option.isSome_iff_exists.1 h.lastChs
  rw [setPart, hfirst, hlast]
  exact ⟨_, rfl, h.first, h.total_le, h.le_total, length_chs2raw _, length_chs2raw _, rfl, rfl⟩

/-- What is left of a disk for its partition, behind the first MiB and before 33 sectors. -/
def roomFor (diskSize : ℕ) : ℕ := diskSize - mib - 33 * 512

/-- The geometry of the disk leads to a partition that fits. -/
def DiskType.Suits (type : DiskType) (diskSize : ℕ) : Prop :=
  let (_, heads, sectorsPerCyl) := type.geometry diskSize
  Usable heads sectorsPerCyl (roomFor diskSize)

theorem DiskType.suits_disk {diskSize : ℕ} (h : 67108864 ≤ diskSize) : disk.Suits diskSize := by
  obtain ⟨heads, hpos, hle, hgeometry⟩ := getGeometry_eq diskSize (by omega)
  rw [Suits, geometry, hgeometry]
  exact .inl ⟨hpos, hle, by decide, le_rfl⟩

theorem packMbr_eq_ok (entry : MbrPartition) (hlba : entry.firstSectorLba < 2 ^ 32)
    (htotal : entry.totalSectors < 2 ^ 32) (hfirst : entry.firstSectorChs.length = 3)
    (hlast : entry.lastSectorChs.length = 3) :
    ∃ sector, packMbr entry = .ok sector ∧ sector.length = 512 := by
  obtain ⟨first, hfirstBytes⟩ : ∃ bytes, packI entry.firstSectorLba = .ok bytes :=
    ⟨_, by rw [packI, if_pos hlba]⟩
  obtain ⟨total, htotalBytes⟩ : ∃ bytes, packI entry.totalSectors = .ok bytes :=
    ⟨_, by rw [packI, if_pos htotal]⟩
  have hcode : bootCode.length = 157 := rfl
  refine ⟨_, by rw [packMbr, hfirstBytes, htotalBytes]; rfl, ?_⟩
  simp only [List.length_append, hcode, zeros, List.length_replicate, hfirst, hlast,
    length_packI hfirstBytes, length_packI htotalBytes, List.length_cons,
    List.length_nil]

/-- The accesses of `partition`, for an entry that can be built and the sector that describes it. -/
theorem partitionMbr_eq {type : DiskType} {diskSize : ℕ} (htype : type.Suits diskSize)
    (hmin : 67108864 ≤ diskSize) (hmax : diskSize ≤ 2199023255040) :
    ∃ entry table, packMbr entry = .ok table ∧ table.length = 512 ∧ entry.status = 0 ∧
      entry.type = 7 ∧ entry.firstSectorChs.length = 3 ∧ entry.lastSectorChs.length = 3 ∧
      entry.firstSectorLba = 2048 ∧ entry.totalSectors * 512 ≤ roomFor diskSize ∧
      49265152 ≤ entry.totalSectors * 512 ∧
      partitionMbr type diskSize = (do
        raw (.seek 0 0)
        raw (.write (zeros 32768))
        raw (.seek 0 0)
        raw (.write table)
        raw (.seek (entry.firstSectorLba * 512 : ℕ) 0)
        raw (.write (zeros 512))
        raw (.seek (diskSize - 512 : ℕ) 0)
        raw (.write (zeros 512))
        raw .flush
        return entry) := by
  have hmib : mib = 1048576 := rfl
  have hroom : roomFor diskSize = diskSize - mib - 33 * 512 := rfl
  rcases hgeometry : type.geometry diskSize with ⟨c, heads, sectorsPerCyl⟩
  rw [DiskType.Suits, hgeometry] at htype
  obtain ⟨entry, hentry, hfirst, htotal, hleTotal, hfirstChs, hlastChs, hstatus, hkind⟩ :=
    setPart_of_fits 7 (mkPart_fits (roomFor diskSize) (by omega) htype)
  obtain ⟨table, htable, hlength⟩ :=
    packMbr_eq_ok entry (by omega) (by omega) hfirstChs hlastChs
  refine ⟨entry, table, htable, hlength, hstatus, hkind, hfirstChs, hlastChs, hfirst, htotal,
    hleTotal, ?_⟩
  rw [partitionMbr, hgeometry]
  simp only [← hroom, hentry, htable, lift_ok, Prog.pure_bind]

/-! ### What the stream accepts -/

def rawContract (d : RawDisk) : Contract rawInterface PyError DiskState where
  may _ _ := True
  answers s o r s' := d.perform s o = (r, s')

theorem rawContract_admits (d : RawDisk) : (rawContract d).Admits fun _ s o => d.perform s o :=
  fun _ _ _ => rfl

/-- The stream stands at `position`, in step with its handle, after the writes of the log. -/
structure Stands (s : DiskState) (position : ℕ) (log : List Transfer) : Prop where
  told : s.position = position
  pointer : s.pointer = position
  writes : s.writes = log

variable {d : RawDisk} {s : DiskState} {position : ℕ} {log : List Transfer}
  {E : PyError → DiskState → Prop}

theorem wp_raw_of_ok {o : RawOp} {a : o.Answer} {Q : o.Answer → DiskState → Prop}
    (s' : DiskState) (h : d.perform s o = (.ok a, s')) (hQ : Q a s') :
    wp (rawContract d) (raw o) Q E s := by
  refine wp_perform.2 ⟨trivial, fun b t hb => ?_, fun e t he => ?_⟩
  · obtain ⟨⟨⟩, rfl⟩ := Prod.mk.inj (h.symm.trans hb)
    exact hQ
  · obtain ⟨⟨⟩, -⟩ := Prod.mk.inj (h.symm.trans he)

theorem wp_raw_of_error {o : RawOp} {e : PyError} {s' : DiskState}
    {Q : o.Answer → DiskState → Prop} (h : d.perform s o = (.error e, s')) (hE : E e s') :
    wp (rawContract d) (raw o) Q E s := by
  refine wp_perform.2 ⟨trivial, fun b t hb => ?_, fun e' t he => ?_⟩
  · obtain ⟨⟨⟩, -⟩ := Prod.mk.inj (h.symm.trans hb)
  · obtain ⟨⟨⟩, rfl⟩ := Prod.mk.inj (h.symm.trans he)
    exact hE

theorem wp_seek (target : ℕ) {Q : Unit → DiskState → Prop} (hs : Stands s position log)
    (htarget : target ≤ d.size) (hQ : ∀ s', Stands s' target log → Q () s') :
    wp (rawContract d) (raw (.seek target 0)) Q E s := by
  refine wp_raw_of_ok { s with position := target, pointer := target } ?_
    (hQ _ ⟨rfl, rfl, hs.writes⟩)
  have hin : ¬((target : ℤ) < 0 ∨ (d.size : ℤ) < target) := by omega
  rw [RawDisk.perform, DiskState.seek, DiskState.seekTarget, if_pos rfl]
  simp only [if_neg hin, Int.toNat_natCast]

theorem wp_flush {Q : Unit → DiskState → Prop} (hQ : Q () s) :
    wp (rawContract d) (raw .flush) Q E s :=
  wp_raw_of_ok _ rfl hQ

theorem wp_rawWrite {data : Bytes} {Q : Unit → DiskState → Prop} (hsector : d.sectorSize = 512)
    (hs : Stands s position log) (hposition : 512 ∣ position) (hdata : 512 ∣ data.length)
    (hlength : data.length < 2 ^ 32) (hin : position + data.length ≤ d.size)
    (hQ : ∀ s', Stands s' (position + data.length) (log ++ [⟨position, position, data⟩]) →
      Q () s') :
    wp (rawContract d) (raw (.write data)) Q E s := by
  obtain ⟨rfl, hpointer, rfl⟩ := hs
  have haligned :
      s.checkAligned d data.length "Raw disk writes must be sector aligned" = .ok () := by
    rw [DiskState.checkAligned, hsector, if_neg (by decide), if_neg]
    omega
  have hcheck : s.checkWrite d data = .ok () := by
    rw [DiskState.checkWrite, haligned]
    exact if_neg (Nat.not_lt.2 hin)
  have hbytes : DiskState.writtenBytes data ⟨data.length, none⟩ = data := by
    rw [DiskState.writtenBytes, dword, Nat.mod_eq_of_lt hlength, min_self, List.take_length]
  refine wp_raw_of_ok { s.writeFile data with position := s.position + data.length } ?_
    (hQ _ ⟨rfl, by rw [DiskState.writeFile, hpointer], by rw [DiskState.writeFile, hpointer]⟩)
  rw [RawDisk.perform, DiskState.write, hcheck]
  simp only [hbytes, ne_eq, not_true_eq_false, if_false]

/-- A write that is no whole number of sectors is refused, wherever the stream stands. -/
theorem wp_unalignedWrite {data : Bytes} {Q : Unit → DiskState → Prop}
    (hsector : d.sectorSize = 512)
    (hdata : ¬512 ∣ data.length)
    (hE : E (.valueError "Raw disk writes must be sector aligned") s) :
    wp (rawContract d) (raw (.write data)) Q E s := by
  refine wp_raw_of_error ?_ hE
  have haligned : s.checkAligned d data.length "Raw disk writes must be sector aligned" =
      .error (.valueError "Raw disk writes must be sector aligned") := by
    rw [DiskState.checkAligned, hsector, if_neg (by decide), if_pos]
    omega
  have hcheck : s.checkWrite d data =
      .error (.valueError "Raw disk writes must be sector aligned") := by
    rw [DiskState.checkWrite, haligned]
    rfl
  rw [RawDisk.perform, DiskState.write, hcheck]

@[simp] theorem length_zeros (count : ℕ) : (zeros count).length = count := List.length_replicate

/-- The partition of a formatted disk, and the sector of its table. -/
structure Partitioned (d : RawDisk) (entry : MbrPartition) (table : Bytes) : Prop where
  packed : packMbr entry = .ok table
  first : entry.firstSectorLba = 2048
  inside : 1048576 + entry.totalSectors * 512 ≤ d.size
  le_total : 49265152 ≤ entry.totalSectors * 512

/-- Partitioning goes through, and the table has been written. -/
theorem wp_partitionMbr {type : DiskType} (htype : type.Suits d.size) (hsector : d.sectorSize = 512)
    (hmin : 67108864 ≤ d.size) (hmax : d.size ≤ 2199023255040) (hsize : 512 ∣ d.size)
    (hs : Stands s 0 [])
    {Q : MbrPartition → DiskState → Prop}
    (hQ : ∀ entry table s' log, Partitioned d entry table → Stands s' d.size log →
      ⟨0, 0, table⟩ ∈ log → Q entry s') :
    wp (rawContract d) (partitionMbr type d.size) Q E s := by
  obtain ⟨entry, table, htable, htableLength, -, -, -, -, hfirst, htotal, hleTotal, heq⟩ :=
    partitionMbr_eq htype hmin hmax
  rw [heq]
  have hmib : mib = 1048576 := rfl
  have hroom : roomFor d.size = d.size - mib - 33 * 512 := rfl
  refine wp_bind.2 (wp_seek 0 hs (Nat.zero_le _) fun s hs => ?_)
  refine wp_bind.2 (wp_rawWrite hsector hs (by decide) (by simp) (by simp)
    (by rw [length_zeros]; omega) fun s hs => ?_)
  refine wp_bind.2 (wp_seek 0 hs (Nat.zero_le _) fun s hs => ?_)
  refine wp_bind.2 (wp_rawWrite hsector hs (by decide) (by simp [htableLength]) (by omega)
    (by omega) fun s hs => ?_)
  have hstart : entry.firstSectorLba * 512 = 1048576 := by rw [hfirst]
  rw [hstart]
  refine wp_bind.2 (wp_seek _ hs (by omega) fun s hs => ?_)
  refine wp_bind.2 (wp_rawWrite hsector hs (by decide) (by simp) (by simp)
    (by rw [length_zeros]; omega) fun s hs => ?_)
  refine wp_bind.2 (wp_seek _ hs (by omega) fun s hs => ?_)
  refine wp_bind.2 (wp_rawWrite hsector hs (by omega) (by simp) (by simp)
    (by rw [length_zeros]; omega) fun s hs => ?_)
  refine wp_bind.2 (wp_flush ?_)
  rw [length_zeros, Nat.sub_add_cancel (by omega)] at hs
  exact hQ entry table s _ ⟨htable, hfirst, by omega, hleTotal⟩ hs (by simp)

end Ps2Ripper
