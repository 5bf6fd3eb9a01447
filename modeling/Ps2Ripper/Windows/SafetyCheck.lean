import Ps2Ripper.Core.Models
import Ps2Ripper.Ps2.SystemCnf

/-!
# Whether a disk may be erased

`enumerate_physical_disks` of `windows/device_enumeration.py`, for hardware of any kind and for
native queries of which any may fail.

* `Hardware`, `Failures`: the devices, and the queries that fail or answer in part;
* `safetyReasons`, `offered`, `enumeratePhysicalDisks`: the enumeration;
* `failsClosed_iff`: a failure never lets a disk be erased exactly if, for the disks that show no
  reason, every failed query had nothing to tell;
* `not_failsClosed`: a failed query can hide the running Windows.
-/

namespace Ps2Ripper

structure HardwareVolume where
  guidPath : String
  mountPoints : List String := []
  filesystem : Option String := none
  writable : Bool := false
  extents : List ℕ

structure Pagefile where
  path : String
  volume : String

/-- A disk device, with what the queries on its handle would answer. -/
structure DiskInterface where
  path : String
  instanceId : String
  model : String
  serial : String
  busNumber : ℕ
  number : ℕ
  capacity : ℕ
  logicalSectorSize : ℕ
  partitionStyle : PartitionStyle
  partitions : List PartitionInfo

structure Hardware where
  volumes : List HardwareVolume
  disks : List DiskInterface
  windowsVolume : String
  pagefiles : List Pagefile

/-- The layout query raises, returns less than its header, or fewer entries than there are. -/
inductive LayoutFailure
  | raises
  | truncated
  | entries (count : ℕ)

/-- The queries that fail: the extents of a volume (how many come back), the lookup of the Windows
directory or of a pagefile, `EnumPageFilesW` (after how many callbacks), the layout and the
alignment of a disk. -/
structure Failures where
  extents : String → Option ℕ := fun _ => none
  windowsVolume : Bool := false
  pagefile : String → Bool := fun _ => false
  enumPageFiles : Option ℕ := none
  layout : String → Option LayoutFailure := fun _ => none
  alignment : String → Bool := fun _ => false

def noFailures : Failures := {}

/-- A list of which possibly only the beginning comes back. -/
def comesBack {α : Type} (count : Option ℕ) (xs : List α) : List α :=
  match count with
  | none => xs
  | some n => xs.take n

variable (casefold : String → String) (f : Failures) (hw : Hardware)

def volumeExtents (v : HardwareVolume) : List ℕ := comesBack (f.extents v.guidPath) v.extents

def enumerateVolumes : List VolumeInfo :=
  hw.volumes.map fun v => ⟨v.guidPath, v.mountPoints, v.filesystem, v.writable, volumeExtents f v⟩

def windowsVolumeName : Option String :=
  if f.windowsVolume then none else some (casefold hw.windowsVolume)

/-- The volumes that were found, and whether all pagefiles were looked at. -/
def activePagefileVolumes : List String × Bool :=
  let found := (comesBack f.enumPageFiles hw.pagefiles).filter fun p =>
    !f.pagefile p.path && casefold p.volume ≠ ""
  (found.map fun p => casefold p.volume, f.enumPageFiles.isNone)

def queryLogicalSectorSize (i : DiskInterface) : ℕ :=
  if f.alignment i.path || i.logicalSectorSize = 0 then 512 else i.logicalSectorSize

/-- `none` if the query raises. -/
def queryLayout (i : DiskInterface) : Option (PartitionStyle × List PartitionInfo) :=
  match f.layout i.path with
  | none => some (i.partitionStyle, i.partitions)
  | some .raises => none
  | some .truncated => some (.unknown, [])
  | some (.entries count) => some (i.partitionStyle, i.partitions.take count)

def mbrMax512Bytes : ℕ := 0xFFFFFFFF * 512

def volumeSafetyReasons (windowsVolume : Option String) (pagefileVolumes : List String)
    (volume : VolumeInfo) : List String :=
  let normalized := casefold volume.guidPath
  (if windowsVolume.getD "" ≠ "" ∧ some normalized = windowsVolume then
    ["The device contains the running Windows installation."] else []) ++
  (if normalized ∈ pagefileVolumes then ["The device contains an active pagefile."] else []) ++
  (if volume.diskNumbers.length ≠ 1 then ["A volume has ambiguous or multi-disk extents."] else [])

def partitionSafetyReasons (p : PartitionInfo) : List String :=
  (if p.isBoot then [s!"Partition {p.number} is marked boot/active."] else []) ++
  (if p.isSystem then [s!"Partition {p.number} is a system or reserved partition."] else []) ++
  (if p.isEfi then [s!"Partition {p.number} is an EFI system partition."] else []) ++
  (if p.isRecovery then [s!"Partition {p.number} is a recovery partition."] else [])

def safetyReasons (disk : PhysicalDisk) (windowsVolume : Option String)
    (pagefileVolumes : List String) (pagefileCheckSucceeded : Bool) : List String :=
  ((if !disk.usb then ["The device is not reported as USB storage."] else []) ++
    (if disk.instanceId = "" then
      ["Windows did not provide a stable device instance identity."] else []) ++
    (if !pagefileCheckSucceeded then
      ["Windows did not allow active-pagefile safety verification."] else []) ++
    (if disk.logicalSectorSize ≠ 512 then
      [s!"The device uses {disk.logicalSectorSize}-byte logical sectors; " ++
        "physical initialization is not verified."] else []) ++
    (if mbrMax512Bytes < disk.capacity then
      ["The device is too large for a fully addressable 512-byte-sector MBR partition."] else []) ++
    disk.volumes.flatMap (volumeSafetyReasons casefold windowsVolume pagefileVolumes) ++
    disk.partitions.flatMap partitionSafetyReasons).eraseDups

def isUsb (i : DiskInterface) : Bool :=
  i.busNumber = 7 || "USBSTOR\\".toList.isPrefixOf (upper i.instanceId.toList)

/-- The disk that one device is listed as, if it is. -/
def offered (usbOnly : Bool) (i : DiskInterface) : Option PhysicalDisk :=
  match queryLayout f i with
  | none => none
  | some (style, partitions) =>
    if usbOnly && !isUsb i then none
    else
      let disk : PhysicalDisk := {
        number := i.number
        devicePath := s!"\\\\.\\PhysicalDrive{i.number}"
        instanceId := i.instanceId
        model := i.model
        serial := i.serial
        capacity := i.capacity
        logicalSectorSize := queryLogicalSectorSize f i
        usb := isUsb i
        partitionStyle := style
        partitions := partitions
        volumes := (enumerateVolumes f hw).filter (i.number ∈ ·.diskNumbers) }
      let (pagefiles, succeeded) := activePagefileVolumes casefold f hw
      some { disk with
        safetyReasons := safetyReasons casefold disk (windowsVolumeName casefold f hw) pagefiles
          succeeded }

def enumeratePhysicalDisks (usbOnly : Bool) : List PhysicalDisk :=
  (hw.disks.filterMap (offered casefold f hw usbOnly)).mergeSort (·.number ≤ ·.number)

/-- A device that is listed as a disk that may be erased, although queries have failed, is listed as
one that may be erased when none fails. -/
def FailsClosed (usbOnly : Bool) : Prop :=
  ∀ i ∈ hw.disks, ∀ disk ∈ enumeratePhysicalDisks casefold f hw usbOnly,
    offered casefold f hw usbOnly i = some disk → disk.destructiveAccessAllowed = true →
    ∃ disk' ∈ enumeratePhysicalDisks casefold noFailures hw usbOnly,
      offered casefold noFailures hw usbOnly i = some disk' ∧
        disk'.destructiveAccessAllowed = true

/-- What is on a volume is no reason against erasing: it is neither the volume of Windows nor that
of a pagefile, and it has one extent. -/
structure VolumeClear (v : HardwareVolume) : Prop where
  windows : ∀ name, windowsVolumeName casefold f hw = some name → name ≠ "" →
    casefold v.guidPath ≠ name
  pagefiles : casefold v.guidPath ∉ (activePagefileVolumes casefold f hw).1
  extents : (volumeExtents f v).length = 1

/-- The answers give no reason against erasing a disk. -/
structure Clear (i : DiskInterface) : Prop where
  usb : isUsb i = true
  instanceId : i.instanceId ≠ ""
  capacity : i.capacity ≤ mbrMax512Bytes
  enumPageFiles : f.enumPageFiles = none
  sector : queryLogicalSectorSize f i = 512
  volumes : ∀ v ∈ hw.volumes, i.number ∈ volumeExtents f v → VolumeClear casefold f hw v
  partitions : ∃ layout, queryLayout f i = some layout ∧
    ∀ p ∈ layout.2, partitionSafetyReasons p = []

/-- Every query that failed had nothing to tell against erasing a disk: its sectors have 512 bytes
(or no size is known, which is taken for 512), no partition is special, it holds neither Windows nor
the pagefiles that were not found, and the volumes on it whose extents did not come back are
clear. -/
structure Harmless (i : DiskInterface) : Prop where
  alignment : f.alignment i.path = true → i.logicalSectorSize = 0 ∨ i.logicalSectorSize = 512
  layout : f.layout i.path ≠ none → ∀ p ∈ i.partitions, partitionSafetyReasons p = []
  windows : f.windowsVolume = true → casefold hw.windowsVolume ≠ "" →
    ∀ v ∈ hw.volumes, i.number ∈ v.extents → casefold v.guidPath ≠ casefold hw.windowsVolume
  pagefiles : ∀ p ∈ hw.pagefiles, f.pagefile p.path = true → casefold p.volume ≠ "" →
    ∀ v ∈ hw.volumes, i.number ∈ v.extents → casefold v.guidPath ≠ casefold p.volume
  extents : ∀ v ∈ hw.volumes, f.extents v.guidPath ≠ none → i.number ∈ v.extents →
    VolumeClear casefold noFailures hw v

variable {casefold} {f} {hw} {i : DiskInterface} {v : HardwareVolume}

/-- The disks of the enumeration are those that are offered for one of the devices. -/
theorem mem_enumeratePhysicalDisks {usbOnly : Bool} {disk : PhysicalDisk} :
    disk ∈ enumeratePhysicalDisks casefold f hw usbOnly ↔
      ∃ i ∈ hw.disks, offered casefold f hw usbOnly i = some disk := by
  rw [enumeratePhysicalDisks, List.mem_mergeSort, List.mem_filterMap]

theorem eraseDups_eq_nil {xs : List String} : xs.eraseDups = [] ↔ xs = [] := by
  cases xs with
  | nil => rfl
  | cons x xs => simp [List.eraseDups_cons]

theorem volumeSafetyReasons_eq_nil :
    volumeSafetyReasons casefold (windowsVolumeName casefold f hw)
        (activePagefileVolumes casefold f hw).1
        ⟨v.guidPath, v.mountPoints, v.filesystem, v.writable, volumeExtents f v⟩ = [] ↔
      VolumeClear casefold f hw v := by
  simp only [volumeSafetyReasons, List.append_eq_nil_iff, ite_eq_right_iff, List.cons_ne_nil,
    imp_false, not_not, and_assoc]
  constructor
  · rintro ⟨hwindows, hpagefiles, hextents⟩
    refine ⟨fun name hname hne heq => hwindows ⟨?_, ?_⟩, hpagefiles, hextents⟩
    · rwa [hname]
    · rw [hname, heq]
  · intro h
    refine ⟨?_, h.pagefiles, h.extents⟩
    rintro ⟨hne, heq⟩
    rw [← heq] at hne
    exact h.windows _ heq.symm hne rfl

theorem safetyReasons_eq_nil {disk : PhysicalDisk} {windows : Option String}
    {pagefiles : List String}
    {succeeded : Bool} :
    safetyReasons casefold disk windows pagefiles succeeded = [] ↔
      disk.usb = true ∧ disk.instanceId ≠ "" ∧ succeeded = true ∧ disk.logicalSectorSize = 512 ∧
        disk.capacity ≤ mbrMax512Bytes ∧
        (∀ v ∈ disk.volumes, volumeSafetyReasons casefold windows pagefiles v = []) ∧
        ∀ p ∈ disk.partitions, partitionSafetyReasons p = [] := by
  simp only [safetyReasons, eraseDups_eq_nil, List.append_eq_nil_iff, ite_eq_right_iff,
    List.cons_ne_nil, imp_false, not_not, List.flatMap_eq_nil_iff, Bool.not_eq_true',
    Bool.not_eq_false, not_lt, and_assoc, ne_eq]

/-- The volumes of a disk are those of which an extent on it came back. -/
theorem volumes_clear_iff :
    (∀ info ∈ (enumerateVolumes f hw).filter fun info => decide (i.number ∈ info.diskNumbers),
      volumeSafetyReasons casefold (windowsVolumeName casefold f hw)
        (activePagefileVolumes casefold f hw).1 info = []) ↔
    ∀ v ∈ hw.volumes, i.number ∈ volumeExtents f v → VolumeClear casefold f hw v := by
  constructor
  · intro h v hv hnumber
    refine volumeSafetyReasons_eq_nil.1 (h _ (List.mem_filter.2 ⟨List.mem_map.2 ⟨v, hv, rfl⟩, ?_⟩))
    exact decide_eq_true hnumber
  · intro h info hinfo
    obtain ⟨hmem, hnumber⟩ := List.mem_filter.1 hinfo
    obtain ⟨v, hv, rfl⟩ := List.mem_map.1 hmem
    exact volumeSafetyReasons_eq_nil.2 (h v hv (of_decide_eq_true hnumber))

/-- A disk may be erased if the answers are clear, whether or not other disks are listed. -/
theorem allowed_iff_clear {usbOnly : Bool} :
    (∃ disk, offered casefold f hw usbOnly i = some disk ∧
      disk.destructiveAccessAllowed = true) ↔ Clear casefold f hw i := by
  rw [offered]
  cases hlayout : queryLayout f i with
  | none =>
    refine ⟨?_, fun h => ?_⟩
    · rintro ⟨disk, ⟨⟩, -⟩
    · obtain ⟨layout, heq, -⟩ := h.partitions
      cases hlayout.symm.trans heq
  | some layout =>
    by_cases husb : isUsb i = true
    swap
    · -- A disk that is not on the USB is left out, or listed and never offered for erasing.
      refine ⟨?_, fun h => absurd h.usb husb⟩
      rintro ⟨disk, hdisk, hallowed⟩
      dsimp only at hdisk
      split at hdisk
      · cases hdisk
      · cases hdisk
        rw [PhysicalDisk.destructiveAccessAllowed, Bool.and_eq_true] at hallowed
        exact absurd hallowed.1 husb
    · simp only [husb, Bool.not_true, Bool.and_false, Bool.false_eq_true, if_false,
        Option.some.injEq, exists_eq_left', PhysicalDisk.destructiveAccessAllowed, Bool.true_and,
        List.isEmpty_iff, safetyReasons_eq_nil, volumes_clear_iff]
      constructor
      · rintro ⟨-, hinstance, hpagefiles, hsector, hcapacity, hvolumes, hpartitions⟩
        exact ⟨husb, hinstance, hcapacity, Option.isNone_iff_eq_none.1 hpagefiles,
          hsector, hvolumes,
          layout, hlayout, hpartitions⟩
      · intro h
        obtain ⟨layout', heq, hpartitions⟩ := h.partitions
        cases hlayout.symm.trans heq
        exact ⟨trivial, h.instanceId, Option.isNone_iff_eq_none.2 h.enumPageFiles, h.sector,
          h.capacity, h.volumes, hpartitions⟩

theorem harmless_of_clear (h : Clear casefold noFailures hw i) :
    Harmless casefold f hw i where
  alignment _ := by
    have hsector := h.sector
    by_cases hzero : i.logicalSectorSize = 0
    · exact .inl hzero
    · exact .inr (by simpa [queryLogicalSectorSize, noFailures, hzero] using hsector)
  layout _ := by
    obtain ⟨layout, hlayout, hpartitions⟩ := h.partitions
    cases hlayout
    exact hpartitions
  windows _ hne v hv hnumber := (h.volumes v hv hnumber).windows _ rfl hne
  pagefiles p hp _ hne v hv hnumber heq := by
    refine (h.volumes v hv hnumber).pagefiles ?_
    rw [heq]
    exact List.mem_map.2 ⟨p, List.mem_filter.2 ⟨hp, by simpa [noFailures] using hne⟩, rfl⟩
  extents v hv _ hnumber := h.volumes v hv hnumber

theorem volumeExtents_of_none (h : f.extents v.guidPath = none) :
    volumeExtents f v = v.extents := by
  rw [volumeExtents, h]
  rfl

/-- A volume that is clear by the answers is clear if the failed queries had nothing to tell. -/
theorem volumeClear_of_harmless (h : Clear casefold f hw i) (hf : Harmless casefold f hw i)
    (hv : v ∈ hw.volumes) (hnumber : i.number ∈ v.extents) :
    VolumeClear casefold noFailures hw v := by
  by_cases hextents : f.extents v.guidPath = none
  · have hall := volumeExtents_of_none hextents
    have hclear := h.volumes v hv (hall ▸ hnumber)
    refine ⟨?_, ?_, (congrArg List.length hall).symm.trans hclear.extents⟩
    · rintro _ ⟨⟩ hne
      by_cases hwindows : f.windowsVolume = true
      · exact hf.windows hwindows hne v hv hnumber
      · exact hclear.windows _ (if_neg hwindows) hne
    · intro hmem
      obtain ⟨p, hp, heq⟩ := List.mem_map.1 hmem
      obtain ⟨hp, hne⟩ := List.mem_filter.1 hp
      have hne' : casefold p.volume ≠ "" := by simpa [noFailures] using hne
      by_cases hpagefile : f.pagefile p.path = true
      · exact hf.pagefiles p hp hpagefile hne' v hv hnumber heq.symm
      · refine hclear.pagefiles ?_
        rw [← heq]
        refine List.mem_map.2 ⟨p, List.mem_filter.2 ⟨?_, by simp [hpagefile, hne']⟩, rfl⟩
        rw [h.enumPageFiles]
        exact hp
  · exact hf.extents v hv hextents hnumber

theorem clear_of_harmless (h : Clear casefold f hw i) (hf : Harmless casefold f hw i) :
    Clear casefold noFailures hw i where
  usb := h.usb
  instanceId := h.instanceId
  capacity := h.capacity
  enumPageFiles := rfl
  sector := by
    by_cases halignment : f.alignment i.path = true
    · obtain hzero | hsize := hf.alignment halignment
      · simp [queryLogicalSectorSize, hzero]
      · simp [queryLogicalSectorSize, noFailures, hsize]
    · have hsector := h.sector
      simpa [queryLogicalSectorSize, halignment, noFailures] using hsector
  volumes v hv hnumber := volumeClear_of_harmless h hf hv hnumber
  partitions := by
    refine ⟨(i.partitionStyle, i.partitions), rfl, ?_⟩
    by_cases hlayout : f.layout i.path = none
    · obtain ⟨layout, heq, hpartitions⟩ := h.partitions
      rw [queryLayout, hlayout] at heq
      cases heq
      exact hpartitions
    · exact hf.layout hlayout

/-- The check fails closed exactly if, for every disk against which the answers give no reason, the
failed queries had none to tell. -/
theorem failsClosed_iff (casefold : String → String) (f : Failures) (hw : Hardware)
    (usbOnly : Bool) :
    FailsClosed casefold f hw usbOnly ↔
      ∀ i ∈ hw.disks, Clear casefold f hw i → Harmless casefold f hw i := by
  constructor
  · intro h i hi hclear
    obtain ⟨disk, hdisk, hallowed⟩ := allowed_iff_clear.2 hclear
    obtain ⟨disk', -, hdisk', hallowed'⟩ :=
      h i hi disk (mem_enumeratePhysicalDisks.2 ⟨i, hi, hdisk⟩) hdisk hallowed
    exact harmless_of_clear (allowed_iff_clear.1 ⟨disk', hdisk', hallowed'⟩)
  · intro h i hi disk _ hdisk hallowed
    have hclear := allowed_iff_clear.1 ⟨disk, hdisk, hallowed⟩
    obtain ⟨disk', hdisk', hallowed'⟩ :=
      allowed_iff_clear.2 (clear_of_harmless hclear (h i hi hclear))
    exact ⟨disk', mem_enumeratePhysicalDisks.2 ⟨i, hi, hdisk'⟩, hdisk', hallowed'⟩

/-! ### A disk that holds Windows -/

/-- A USB disk with one partition and one volume, the one that Windows runs from. -/
def portableWindows : Hardware where
  volumes := [⟨"volume{1}", ["C:"], some "NTFS", true, [1]⟩]
  disks := [⟨"usb", "USBSTOR", "Disk", "1", 7, 1, 64000000000, 512, .mbr,
    [⟨1, false, false, false, false⟩]⟩]
  windowsVolume := "volume{1}"
  pagefiles := []

/-- The extents of the volume do not come back. -/
def lostExtents : Failures := { extents := fun _ => some 0 }

theorem clear_portableWindows (i : DiskInterface) (hi : i ∈ portableWindows.disks) :
    Clear id lostExtents portableWindows i := by
  obtain rfl := List.mem_singleton.1 hi
  refine ⟨rfl, by decide, by decide, rfl, rfl, ?_, _, rfl, ?_⟩
  · intro v hv hnumber
    exact absurd hnumber (by simp [volumeExtents, comesBack, lostExtents])
  · intro p hp
    obtain rfl := List.mem_singleton.1 hp
    rfl

/-- The running Windows is offered for erasing. -/
theorem not_failsClosed :
    ¬∀ (casefold : String → String) (f : Failures) (hw : Hardware) (usbOnly : Bool),
      FailsClosed casefold f hw usbOnly := by
  intro h
  have hmem := List.mem_singleton_self (portableWindows.disks.head (by decide))
  obtain ⟨disk, hdisk, hallowed⟩ :=
    allowed_iff_clear.2 (clear_portableWindows _ hmem)
  obtain ⟨disk', -, hdisk', hallowed'⟩ := h id lostExtents portableWindows true _ hmem disk
    (mem_enumeratePhysicalDisks.2 ⟨_, hmem, hdisk⟩) hdisk hallowed
  have hclear := allowed_iff_clear.1 ⟨disk', hdisk', hallowed'⟩
  have hvolume := List.mem_singleton_self (portableWindows.volumes.head (by decide))
  exact (hclear.volumes _ hvolume (by decide)).windows _ rfl (by decide) rfl

end Ps2Ripper
