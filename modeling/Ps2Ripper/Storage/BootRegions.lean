import Ps2Ripper.Storage.BootSector

/-!
# The boot regions

What the formatter leaves on an image: the partition table, and the boot sector of the partition.

* `MbrPartition.InDisk`, `ExfatBoot.Describes`: the partition of the table lies in the disk, and the
  FAT and the clusters of the boot sector lie in the partition;
* `DiskImage.Carries`: the image carries a table and a boot sector, and the check accepts them;
* `describes_boot`: the sizes that the formatter computes fit, for every size of a disk;
* `bootRegions_accepted`: no image that the formatter leaves is rejected by the check.
-/

namespace Ps2Ripper

open Interactive Prog Binary

/-! ### What is described -/

/-- The partition that an entry of the table describes. -/
def MbrPartition.partition (entry : MbrPartition) : DiskPartition :=
  ⟨entry.firstSectorLba * 512, entry.totalSectors * 512⟩

/-- The entry of a data partition of a disk of `size` bytes. -/
structure MbrPartition.InDisk (entry : MbrPartition) (size : ℕ) : Prop where
  status : entry.status = 0
  type : entry.type = 7
  firstChs : entry.firstSectorChs.length = 3
  lastChs : entry.lastSectorChs.length = 3
  first : entry.firstSectorLba = 2048
  pos : 0 < entry.totalSectors
  lt : entry.totalSectors < 2 ^ 32
  inside : entry.firstSectorLba + entry.totalSectors + 33 ≤ size / 512

/-- The boot sector describes a file system in the partition: there is room for the boot region and
its copy, every cluster has an entry in the FAT, and all of them are in the partition. -/
structure ExfatBoot.Describes (boot : ExfatBoot) (p : DiskPartition) : Prop where
  oemId : boot.oemId.1 = [69, 88, 70, 65, 84, 32, 32, 32]
  partOffset : boot.partOffset * 512 = p.offset
  volumeLength : boot.volumeLength * 512 = p.size
  sector : boot.bytesPerSector = 9
  reserved : 24 ≤ boot.fatOffset
  entries : 4 * (boot.dataRegionLength + 2) ≤ boot.fatLength * 512
  fat : boot.fatOffset + boot.fatLength ≤ boot.dataRegionOffset
  clusters : boot.dataRegionOffset * 512 + boot.dataRegionLength * boot.cluster ≤ p.size
  pos : 1 ≤ boot.dataRegionLength

/-- The image carries the table with that entry, and the boot sector at the start of the
partition. -/
structure DiskImage.Carries (s : DiskImage) (entry : MbrPartition) (boot : ExfatBoot) : Prop where
  table : packMbr entry = .ok (s.bytes 0 512)
  sector : boot.pack = .ok (s.bytes entry.partition.offset 512)

/-- What `exfat_mkfs` works with: the counts of the loop, for the partition and its cluster size. -/
structure FsInfo.Suits (info : FsInfo) (p : DiskPartition) : Prop where
  recommended : Recommended p.size info.clusterSize
  reserved : info.reservedSize = 65536
  fat : info.fatSize = Ps2Ripper.fatSize info.clusters 512
  pos : 1 ≤ info.clusters
  inside : info.clusterSize * info.clusters + info.fatSize + 65536 ≤ p.size

/-- The accesses of `exfat_mkfs` before it uses the classes that are not embedded. -/
def prepareVolume (v : VolumeCode) (p : DiskPartition) (info : FsInfo) : RawProgram Unit := do
  p.seek (fatOffset info 512)
  blankFat info.fatSize.toNat
  p.seek (fatOffset info 512)
  raw (.write clus02)
  writeBitmapAndTable v p (v.boot p info)
  writeBootRegion p (v.boot p info)
  writeRootAndChains v p (v.boot p info)

/-- The image as `exfat_mkfs` prepares it for these classes. -/
structure Prepared (v : VolumeCode) (p : DiskPartition) (info : FsInfo) (s : DiskImage) : Prop where
  inside : p.offset + p.size ≤ s.size
  ran : ∃ s₀, (runImage (prepareVolume v p info) s₀).result = .ok () ∧
    (runImage (prepareVolume v p info) s₀).world = s

/-- On a prepared volume the code that is not embedded writes to the FAT and to clusters, and so
nothing before the FAT: first for the bitmap and the root directory, then for the directories. -/
def VolumeCode.StaysInVolume (v : VolumeCode) : Prop :=
  ∀ (p : DiskPartition) (info : FsInfo) (s : DiskImage), info.Suits p → Prepared v p info s →
    let boot := v.boot p info
    let kept := KeptBelow (p.offset + boot.fatoffs) s
    wp imageContract (v.bitmapAndRoot p boot v.table)
      (fun _ s' => kept s' ∧ wp imageContract (v.directories p) (fun _ => kept) (fun _ => kept) s')
      (fun _ => kept) s

/-! ### The sectors and the check -/

theorem packI_eq_ok {n : ℕ} (h : n < 2 ^ 32) : packI n = .ok (Binary.bytes 4 n) := by
  rw [packI, if_pos h]
  simp only [Binary.bytes, Nat.shiftRight_eq_div_pow, Nat.div_div_eq_div_mul]

theorem mapM_eq_ok {α β : Type} {f : α → Except PyError β} {g : α → β} {l : List α}
    (h : ∀ a ∈ l, f a = .ok (g a)) : l.mapM f = .ok (l.map g) := by
  induction l with
  | nil => rfl
  | cons a l ih =>
    have htail := ih fun b hb => h b (List.mem_cons_of_mem a hb)
    rw [List.mapM_cons, h a List.mem_cons_self, htail]
    rfl

/-- The fields of the sector with the partition table. -/
def mbrParts (entry : MbrPartition) : List Bytes :=
  [bootCode, zeros 289, [entry.status], entry.firstSectorChs, [entry.type], entry.lastSectorChs,
    Binary.bytes 4 entry.firstSectorLba, Binary.bytes 4 entry.totalSectors, zeros 48, [0x55, 0xAA]]

theorem packMbr_eq_parts {entry : MbrPartition} {table : Bytes} (h : packMbr entry = .ok table) :
    table = (mbrParts entry).flatten := by
  by_cases hfirst : entry.firstSectorLba < 2 ^ 32
  · by_cases htotal : entry.totalSectors < 2 ^ 32
    · rw [packMbr, packI_eq_ok hfirst, packI_eq_ok htotal] at h
      obtain rfl := Except.ok.inj h
      have hcode : bootCode.length = 157 := rfl
      simp only [mbrParts, hcode, Nat.reduceSub, List.flatten_cons, List.flatten_nil,
        List.append_assoc,
        List.append_nil]
    · rw [packMbr, packI_eq_ok hfirst, packI, if_neg htotal] at h
      cases h
  · rw [packMbr, packI, if_neg hfirst] at h
    cases h

/-- The bytes of the sector. -/
def ExfatBoot.parts (boot : ExfatBoot) : List Bytes :=
  [boot.jumpInstruction.1, boot.oemId.1, zeros 53] ++
    (boot.layout.map fun field => Binary.bytes field.1 field.2) ++
      [zeros 7, nodosAsm78h, zeros 356, [0x55, 0xAA]]

/-- Every number fits its field. -/
def ExfatBoot.Packs (boot : ExfatBoot) : Prop := ∀ field ∈ boot.layout, field.2 < 256 ^ field.1

theorem ExfatBoot.pack_eq_ok {boot : ExfatBoot} (h : boot.Packs) :
    boot.pack = .ok boot.parts.flatten := by
  have hfields : (boot.layout.mapM fun field => packField field.1 field.2) =
      .ok (boot.layout.map fun field => Binary.bytes field.1 field.2) :=
    mapM_eq_ok fun field hfield => if_pos (h field hfield)
  rw [ExfatBoot.pack, hfields]
  rfl

theorem ExfatBoot.length_parts (boot : ExfatBoot) : boot.parts.flatten.length = 512 := by
  have hjump := boot.jumpInstruction.2
  have hoem := boot.oemId.2
  have hcode : nodosAsm78h.length = 34 := rfl
  simp [ExfatBoot.parts, ExfatBoot.layout, hjump, hoem, hcode]

theorem byteAt_of_region {raw : Bytes} {byte : UInt8} {i : ℕ} (h : region raw i 1 = some [byte]) :
    byteAt raw i = .ok byte.toNat := by
  rw [byteAt, getElem?_of_region h]

section Check

variable {entry : MbrPartition} {boot : ExfatBoot} {size : ℕ}

/-- A field of the sector with the partition table. -/
theorem region_mbr (h : entry.InDisk size) {offset width k : ℕ} {field : Bytes}
    (hfield : (mbrParts entry)[k]? = some field)
    (hoffset : (([157, 289, 1, 3, 1, 3, 4, 4, 48, 2] : List ℕ).take k).sum = offset)
    (hwidth : field.length = width) :
    region (mbrParts entry).flatten offset width = some field := by
  refine region_flatten hfield ?_ hwidth
  have hlengths : (mbrParts entry).map List.length = [157, 289, 1, 3, 1, 3, 4, 4, 48, 2] := by
    have hcode : bootCode.length = 157 := rfl
    simp [mbrParts, hcode, h.firstChs, h.lastChs]
  rw [List.map_take, hlengths, hoffset]

/-- A field of the boot sector. -/
theorem region_boot {offset width k : ℕ} {field : Bytes} (hfield : boot.parts[k]? = some field)
    (hoffset : (([3, 8, 53, 8, 8, 4, 4, 4, 4, 4, 4, 2, 2, 1, 1, 1, 1, 1, 7, 34, 356, 2] :
      List ℕ).take k).sum = offset)
    (hwidth : field.length = width) : region boot.parts.flatten offset width = some field := by
  refine region_flatten hfield ?_ hwidth
  have hlengths : boot.parts.map List.length =
      [3, 8, 53, 8, 8, 4, 4, 4, 4, 4, 4, 2, 2, 1, 1, 1, 1, 1, 7, 34, 356, 2] := by
    have hcode : nodosAsm78h.length = 34 := rfl
    simp [ExfatBoot.parts, ExfatBoot.layout, hcode, boot.jumpInstruction.2, boot.oemId.2]
  rw [List.map_take, hlengths, hoffset]

/-- What the check reads from the table. -/
theorem mbr_fields (h : entry.InDisk size) {table : Bytes} (htable : packMbr entry = .ok table) :
    slice table 510 512 = [0x55, 0xAA] ∧ byteAt table 446 = .ok 0 ∧ byteAt table 450 = .ok 7 ∧
      unpackFrom table 454 4 = .ok entry.firstSectorLba ∧
      unpackFrom table 458 4 = .ok entry.totalSectors := by
  obtain rfl := packMbr_eq_parts htable
  have hfirst : entry.firstSectorLba < 256 ^ 4 := by
    rw [h.first]
    decide
  have hstatus : region (mbrParts entry).flatten 446 1 = some [entry.status] :=
    region_mbr h (k := 2) rfl rfl rfl
  have htype : region (mbrParts entry).flatten 450 1 = some [entry.type] :=
    region_mbr h (k := 4) rfl rfl rfl
  have hstart : region (mbrParts entry).flatten 454 4 =
      some (Binary.bytes 4 entry.firstSectorLba) := region_mbr h (k := 6) rfl rfl rfl
  have htotal : region (mbrParts entry).flatten 458 4 =
      some (Binary.bytes 4 entry.totalSectors) := region_mbr h (k := 7) rfl rfl rfl
  refine ⟨slice_of_region (region_mbr h (k := 9) rfl rfl rfl), ?_, ?_, ?_, ?_⟩
  · rw [byteAt_of_region hstatus, h.status]
    rfl
  · rw [byteAt_of_region htype, h.type]
    rfl
  · rw [unpackFrom_of_region hstart, value_bytes_of_lt hfirst]
  · rw [unpackFrom_of_region htotal, value_bytes_of_lt h.lt]

/-- What the check reads from the boot sector. -/
theorem boot_fields (h : boot.Packs) {sector : Bytes} (hsector : boot.pack = .ok sector) :
    slice sector 3 11 = boot.oemId.1 ∧ unpackFrom sector 0x40 8 = .ok boot.partOffset ∧
      byteAt sector 0x6C = .ok boot.bytesPerSector ∧
      byteAt sector 0x6D = .ok boot.sectorsPerCluster := by
  obtain rfl := Except.ok.inj ((ExfatBoot.pack_eq_ok h).symm.trans hsector)
  have hbyte : ∀ n, (1, n) ∈ boot.layout → (UInt8.ofNat n).toNat = n := fun n hn =>
    Nat.mod_eq_of_lt (h _ hn)
  have hoffset : region boot.parts.flatten 0x40 8 = some (Binary.bytes 8 boot.partOffset) :=
    region_boot (k := 3) rfl rfl rfl
  have hbytes : region boot.parts.flatten 0x6C 1 = some [UInt8.ofNat boot.bytesPerSector] :=
    region_boot (k := 13) rfl rfl rfl
  have hsectors : region boot.parts.flatten 0x6D 1 = some [UInt8.ofNat boot.sectorsPerCluster] :=
    region_boot (k := 14) rfl rfl rfl
  refine ⟨slice_of_region (region_boot (k := 1) rfl rfl boot.oemId.2), ?_, ?_, ?_⟩
  · rw [unpackFrom_of_region hoffset,
      value_bytes_of_lt (h (8, boot.partOffset) (by simp [ExfatBoot.layout]))]
  · rw [byteAt_of_region hbytes, hbyte _ (by simp [ExfatBoot.layout])]
  · rw [byteAt_of_region hsectors, hbyte _ (by simp [ExfatBoot.layout])]

/-- **The check accepts** what describes a file system in a partition of the disk. -/
theorem independentlyCheck_of_carries {image : DiskImage} (hentry : entry.InDisk size)
    (hboot : boot.Describes entry.partition) (hpacks : boot.Packs)
    (hcarries : image.Carries entry boot) :
    independentlyCheckBootRegions image
      ⟨entry.partition.offset, entry.partition.size, boot.cluster⟩ = .ok () := by
  obtain ⟨hsignature, hstatus, htype, hfirst, htotal⟩ := mbr_fields hentry hcarries.table
  obtain ⟨hoem, hoffset, hsector, hcluster⟩ := boot_fields hpacks hcarries.sector
  have hpart : boot.partOffset = entry.firstSectorLba :=
    Nat.eq_of_mul_eq_mul_right (by decide) hboot.partOffset
  rw [hboot.oemId] at hoem
  rw [hpart] at hoffset
  rw [independentlyCheckBootRegions]
  simp only [hsignature, hstatus, htype, hfirst, htotal, hoem, hoffset, hsector, hcluster]
  simp [MbrPartition.partition, ExfatBoot.cluster, bind, Except.bind, Pure.pure, Except.pure]

end Check

/-! ### The sizes -/

/-- Combining fields that lie beside one another stays below the next power of two. -/
theorem DosTime.dosDateTime_lt (t : DosTime) : t.dosDateTime < 2 ^ 32 := by
  obtain ⟨hyear, hyear'⟩ := t.year_le
  have hmonth := t.month_le
  have hday := t.day_le
  have hhour := t.hour_lt
  have hminute := t.minute_lt
  have hsecond := t.second_lt
  have hdate : (t.year - 1980) <<< 9 ||| t.month <<< 5 ||| t.day < 2 ^ 16 := by
    refine Nat.or_lt_two_pow (Nat.or_lt_two_pow ?_ ?_) (by omega)
    all_goals
      rw [Nat.shiftLeft_eq]
      omega
  have htime : t.hour <<< 11 ||| t.minute <<< 5 ||| t.second / 2 < 2 ^ 16 := by
    refine Nat.or_lt_two_pow (Nat.or_lt_two_pow ?_ ?_) (by omega)
    all_goals
      rw [Nat.shiftLeft_eq]
      omega
  refine Nat.or_lt_two_pow ?_ (htime.trans (by decide))
  rw [Nat.shiftLeft_eq]
  omega

/-- A table of at most `n` entries, of two bytes each. -/
def Units (n : ℕ) (tab : List Bytes) : Prop := tab.length ≤ n ∧ ∀ entry ∈ tab, entry.length = 2

theorem Units.push {n : ℕ} {tab : List Bytes} (h : Units n tab) (unit : Field 2) :
    Units (n + 1) (tab ++ [unit.1]) := by
  constructor
  · have hlength := h.1
    rw [List.length_append, List.length_singleton]
    omega
  · intro entry hentry
    rcases List.mem_append.1 hentry with hold | hnew
    · exact h.2 entry hold
    · rw [List.mem_singleton.1 hnew]
      exact unit.2

theorem compressUnit_units (upcase : ℕ → Field 2) {n : ℕ} {tab : List Bytes} (h : Units n tab)
    (run : Option ℕ) : Units (n + 1) (compressUnit upcase (tab, run) n).1 := by
  rw [compressUnit.eq_def]
  dsimp only
  split
  · rcases run with _ | start
    · exact h.push (upcase n)
    · dsimp only
      split
      · -- The run goes, two entries and the unit come.
        constructor
        · have hlength := h.1
          simp only [List.length_append, List.length_take, List.length_cons, List.length_nil]
          omega
        · intro entry hentry
          simp only [List.mem_append, List.mem_cons, List.not_mem_nil, or_false] at hentry
          rcases hentry with (hold | rfl | rfl) | rfl
          · exact h.2 entry (List.mem_of_mem_take hold)
          · rfl
          · exact length_bytes 2 _
          · exact (upcase n).2
      · exact h.push (upcase n)
  · exact h.push (upcase n)

theorem compressUnits_units (upcase : ℕ → Field 2) (n : ℕ) :
    Units n ((List.range n).foldl (compressUnit upcase) ([], none)).1 := by
  induction n with
  | zero => exact ⟨le_rfl, fun _ h => absurd h List.not_mem_nil⟩
  | succ n ih =>
    rw [List.range_succ, List.foldl_concat]
    exact compressUnit_units upcase ih _

theorem length_genUpcaseCompressed (upcase : ℕ → Field 2) :
    (genUpcaseCompressed upcase).length ≤ 131072 := by
  obtain ⟨hlength, hentries⟩ := compressUnits_units upcase 65536
  rw [genUpcaseCompressed, List.length_flatten]
  generalize ((List.range 65536).foldl (compressUnit upcase) ([], none)).1 = tab at hlength hentries
  have hsum : (tab.map List.length).sum = 2 * tab.length := by
    rw [List.map_congr_left hentries, List.map_const', List.sum_replicate, smul_eq_mul,
      Nat.mul_comm]
  omega

theorem exists_suits {p : DiskPartition} {clusterSize : ℕ} (h : Recommended p.size clusterSize)
    (hmax : p.size ≤ 2199023255040) :
    ∃ info, (allowed p.size 512).find? (·.clusterSize = (clusterSize : ℤ)) = some info ∧
      info.clusterSize = clusterSize ∧ info.Suits p := by
  have hmax' : (p.size : ℤ) ≤ 2199023255040 := by exact_mod_cast hmax
  obtain ⟨info, hfind, hinfo, hfits⟩ := find_allowed h hmax'
  obtain ⟨hcluster, hclusters, hfat⟩ := fsInfo?_eq_some hinfo
  obtain ⟨hpos, -, hrequired⟩ := roundClusters_spec h hmax'
  rw [← hclusters] at hpos hrequired
  refine ⟨info, hfind, hcluster, ?_, hfits.reserved, hfat, hpos, ?_⟩
  · rwa [hcluster]
  · rw [hcluster, hfat]
    exact hrequired

section Sizes

variable {v : VolumeCode} {p : DiskPartition} {info : FsInfo}

/-- The exponents of the boot sector give the cluster size back. -/
theorem cluster_boot (h : info.Suits p) : ((v.boot p info).cluster : ℤ) = info.clusterSize := by
  have hsector : Nat.log2 512 = 9 := by decide
  have h4096 : Nat.log2 ((4096 : ℤ) / 512).toNat = 3 := by decide
  have h32768 : Nat.log2 ((32768 : ℤ) / 512).toNat = 6 := by decide
  have h131072 : Nat.log2 ((131072 : ℤ) / 512).toNat = 8 := by decide
  rw [ExfatBoot.cluster, VolumeCode.boot, exfatBoot, hsector]
  obtain ⟨hsize | hsize | hsize, -⟩ := h.recommended
  · rw [hsize, h4096]
    norm_num
  · rw [hsize, h32768]
    norm_num
  · rw [hsize, h131072]
    norm_num

theorem describes_boot (h : info.Suits p) (hoffset : 512 ∣ p.offset) (hsize : 512 ∣ p.size) :
    (v.boot p info).Describes p := by
  have hcluster := cluster_boot (v := v) h
  have hinside := h.inside
  have hfat := h.fat
  have hpos := h.pos
  have hreserved : (info.reservedSize / 512).toNat = 128 := by
    rw [h.reserved]
    rfl
  have hfatOffset : (v.boot p info).fatOffset = 128 := hreserved
  have hfatLength : (v.boot p info).fatLength = (info.fatSize / 512).toNat := rfl
  have hdata : (v.boot p info).dataRegionOffset = 128 + (info.fatSize / 512).toNat := by
    show (info.reservedSize / 512).toNat + _ = _
    rw [hreserved]
  have hlength : ((v.boot p info).dataRegionLength : ℤ) = info.clusters :=
    Int.toNat_of_nonneg (by omega)
  -- The FAT is rounded up to whole sectors, so that it has an entry for every cluster and two more.
  rw [fatSize] at hfat
  refine ⟨rfl, Nat.div_mul_cancel hoffset, Nat.div_mul_cancel hsize, rfl, ?_, ?_, ?_, ?_, ?_⟩
  · omega
  · omega
  · omega
  · have hdataSize : (((v.boot p info).dataRegionLength * (v.boot p info).cluster : ℕ) : ℤ) =
        info.clusterSize * info.clusters := by
      rw [Nat.cast_mul, hlength, hcluster, mul_comm]
    omega
  · omega

theorem clustersFor_le {boot : ExfatBoot} (h : 1 ≤ boot.cluster) (length : ℕ) :
    boot.clustersFor length ≤ length := by
  rcases length with _ | length
  · rw [ExfatBoot.clustersFor, Nat.div_eq_of_lt (by omega)]
  · have hadd : length + 1 + boot.cluster - 1 = length + boot.cluster := by omega
    have hdiv := Nat.div_le_self length boot.cluster
    rw [ExfatBoot.clustersFor, hadd, Nat.add_div_right _ h]
    omega

theorem one_le_cluster (boot : ExfatBoot) : 1 ≤ boot.cluster :=
  Nat.mul_pos (by positivity) (by positivity)

/-- The root cluster lies behind the bitmap and the table, which are short. -/
theorem rootCluster_lt (h : info.Suits p) (hmax : p.size ≤ 2199023255040) :
    (v.boot p info).rootCluster < 2 ^ 32 := by
  have htable : v.table.length ≤ 131072 := length_genUpcaseCompressed v.upcase
  have hinside := h.inside
  have hfat := h.fat
  have hclusters : info.clusters ≤ 536870912 := by
    rw [fatSize] at hfat
    obtain ⟨hsize | hsize | hsize, -⟩ := h.recommended
    all_goals
      rw [hsize] at hinside
      omega
  have hbitmap := clustersFor_le (one_le_cluster (exfatBoot v.now.dosDateTime p info))
    ((info.clusters.toNat + 7) / 8)
  have hupcase := clustersFor_le (one_le_cluster (exfatBoot v.now.dosDateTime p info))
    v.table.length
  have hlength : (exfatBoot v.now.dosDateTime p info).bitmapLength =
      (info.clusters.toNat + 7) / 8 := rfl
  simp only [VolumeCode.boot, hlength]
  omega

theorem packs_boot (h : info.Suits p) (hoffset : p.offset = 1048576) (hsize : 512 ∣ p.size)
    (hmax : p.size ≤ 2199023255040) : (v.boot p info).Packs := by
  have hdescribes := describes_boot (v := v) h (by rw [hoffset]; decide) hsize
  have hoff := hdescribes.partOffset
  have hvolume := hdescribes.volumeLength
  have hfat := hdescribes.fat
  have hclusters := hdescribes.clusters
  have hroot := rootCluster_lt (v := v) h hmax
  have hserial : (v.boot p info).volumeSerial < 2 ^ 32 := v.now.dosDateTime_lt
  have hlength : (v.boot p info).dataRegionLength * 512 ≤
      (v.boot p info).dataRegionLength * (v.boot p info).cluster :=
    Nat.mul_le_mul_left _ (Nat.le_mul_of_pos_right _ (by positivity))
  have hsectors : (v.boot p info).sectorsPerCluster < 256 := by
    have hlog : (v.boot p info).sectorsPerCluster = Nat.log2 (info.clusterSize / 512).toNat := rfl
    rw [hlog]
    obtain ⟨hsize | hsize | hsize, -⟩ := h.recommended
    all_goals
      rw [hsize]
      decide
  obtain ⟨hrevision, hflags, hcopies, hdrive, hpercent⟩ : (v.boot p info).fsRevision = 0x100 ∧
      (v.boot p info).flags = 0 ∧ (v.boot p info).fatCopies = 1 ∧
        (v.boot p info).driveSelect = 0x80 ∧ (v.boot p info).percentInUse = 0 :=
    ⟨rfl, rfl, rfl, rfl, rfl⟩
  have hsector := hdescribes.sector
  intro field hfield
  simp only [ExfatBoot.layout, List.mem_cons, List.not_mem_nil, or_false] at hfield
  rcases hfield with rfl | rfl | rfl | rfl | rfl | rfl | rfl | rfl | rfl | rfl | rfl | rfl | rfl |
    rfl | rfl
  all_goals
    dsimp only
    omega

end Sizes

/-! ### The writes to the partition -/

variable {p : DiskPartition} {boot : ExfatBoot} {limit : ℕ} {raises : Prop} {s s' s'' : DiskImage}

theorem writesAbove_writeBlank (size count : ℕ) :
    WritesAbove limit raises (writeBlank size count) := by
  induction count with
  | zero => exact .return ()
  | succ count ih => exact (WritesAbove.write _).bind fun _ => ih

theorem writesAbove_writeEmptySectors (count : ℕ) :
    WritesAbove limit raises (writeEmptySectors count) := by
  induction count with
  | zero => exact .return ()
  | succ count ih => exact (WritesAbove.write _).bind fun _ => ih

theorem writesAbove_blankFat (toBlank : ℕ) : WritesAbove limit raises (blankFat toBlank) := by
  induction toBlank using Nat.strong_induction_on with
  | _ toBlank ih =>
    rw [blankFat]
    split
    · exact .return ()
    · rename_i hne
      have hmib : mib = 1048576 := rfl
      exact (WritesAbove.write _).bind fun _ => ih _ (by omega)

theorem writesAbove_markRun {start count : ℕ}
    (h : limit ≤ p.offset + min (boot.fatoffs + start * 32 / 8) p.size) :
    WritesAbove limit True (markRun p boot start count) := by
  rw [markRun]
  split
  · exact .return ()
  · refine (WritesAbove.partitionSeek h).bind fun _ => ?_
    refine (WritesAbove.lift fun _ _ => trivial).bind fun links => ?_
    exact (WritesAbove.lift fun _ _ => trivial).bind fun _ => .write _

/-- Reading the boot region back leaves the stream behind the boot sector. -/
theorem writesAbove_readBack (hsize : 512 ≤ p.size) :
    WritesAbove (p.offset + 512) raises (do p.seek 0; raw (.read (512 * 11 : ℕ))) := by
  intro s hpos hlimit
  refine wp_bind.2 (DiskImage.wp_seek (DiskImage.wp_read ⟨⟨rfl, fun _ _ => rfl⟩, ?_⟩))
  show p.offset + 512 ≤ min (min 0 p.size + p.offset) s.size +
    min (512 * 11) (s.size - min (min 0 p.size + p.offset) s.size)
  omega

/-- What lies before the partition is kept, and the partition begins with the boot sector. -/
structure Bootable (p : DiskPartition) (boot : ExfatBoot) (s s' : DiskImage) : Prop where
  kept : KeptBelow p.offset s s'
  sector : boot.pack = .ok (s'.bytes p.offset 512)

theorem Bootable.trans (h : Bootable p boot s s') (h' : KeptBelow (p.offset + 512) s' s'') :
    Bootable p boot s s'' := by
  refine ⟨h.kept.trans (h'.mono (by omega)), ?_⟩
  rw [h.sector, h'.bytes le_rfl]

/-- Once the boot sector is there, a program that writes behind it keeps it. -/
theorem Bootable.wp {α : Type} {q : RawProgram α} (h : Bootable p boot s s')
    (hq : WritesAbove (p.offset + 512) raises q) (hpos : p.offset + 512 ≤ s'.pos)
    (hsize : p.offset + 512 ≤ s'.size) :
    Interactive.wp imageContract q (fun _ s'' => Bootable p boot s s'' ∧ p.offset + 512 ≤ s''.pos)
      (fun _ s'' => raises ∧ Bootable p boot s s'') s' := by
  refine wp_mono (hq s' hpos hsize) ?_ ?_
  · rintro _ s'' ⟨hkept, hpos'⟩
    exact ⟨h.trans hkept, hpos'⟩
  · rintro _ s'' ⟨hraises, hkept⟩
    exact ⟨hraises, h.trans hkept⟩

theorem getChecksum_lt (data : Bytes) (upCase : Bool) : getChecksum data upCase < 2 ^ 32 := by
  unfold getChecksum
  refine List.foldlRecOn (motive := (· < 2 ^ 32)) _ _ (by decide) fun hash h pair _ => ?_
  dsimp only
  split
  · exact h
  · exact Nat.mod_lt _ (by decide)

theorem wp_writeBootRegion (hpacks : boot.Packs) (hsize : 512 ≤ p.size)
    (hin : p.offset + p.size ≤ s.size) :
    wp imageContract (writeBootRegion p boot)
      (fun _ s' => Bootable p boot s s' ∧ p.offset + 512 ≤ s'.pos)
      (fun _ _ => False) s := by
  have hpack := ExfatBoot.pack_eq_ok hpacks
  have hlength := boot.length_parts
  rw [writeBootRegion, hpack]
  refine wp_bind.2 (DiskImage.wp_partitionSeek hin ?_)
  simp only [lift_ok, Prog.pure_bind]
  refine wp_bind.2 (DiskImage.wp_write ?_)
  have hbootable : Bootable p boot s
      (({ s with pos := p.offset + min 0 p.size } : DiskImage).write boot.parts.flatten) := by
    constructor
    · have hkept : KeptBelow p.offset { s with pos := p.offset + min 0 p.size } _ :=
        DiskImage.keptBelow_write { s with pos := p.offset + min 0 p.size } boot.parts.flatten
          (Nat.le_add_right ..)
      exact ⟨hkept.size, hkept.content⟩
    · have hwritten := DiskImage.bytes_write { s with pos := p.offset + min 0 p.size }
        boot.parts.flatten (by rw [hlength]; show p.offset + min 0 p.size + 512 ≤ s.size; omega)
      have hpos : p.offset + min 0 p.size = p.offset := by omega
      rw [hlength, hpos] at hwritten
      rw [hpack, hpos]
      exact congrArg Except.ok hwritten.symm
  -- Everything that follows is written behind the boot sector.
  have hchecksum : ∀ vbr e, packI (getChecksum vbr false) = .error e → False := by
    intro vbr e he
    rw [packI_eq_ok (getChecksum_lt vbr false)] at he
    cases he
  refine wp_mono (hbootable.wp ?_ ?_ ?_) (fun _ _ h => h) fun _ _ h => h.1
  · refine WritesAbove.bind (writesAbove_writeEmptySectors 8) fun _ => ?_
    refine (WritesAbove.write _).bind fun _ => (WritesAbove.write _).bind fun _ => ?_
    have hback := WritesAbove.bind (writesAbove_readBack (p := p) hsize) fun vbr =>
      (WritesAbove.lift (hchecksum vbr)).bind fun checksum =>
        (WritesAbove.write (List.replicate 128 checksum).flatten).bind fun _ =>
          (WritesAbove.write vbr).bind fun _ =>
            WritesAbove.write (List.replicate 128 checksum).flatten
    simpa only [Prog.bind_assoc] using hback
  · show p.offset + 512 ≤ min s.size (p.offset + min 0 p.size + boot.parts.flatten.length)
    omega
  · show p.offset + 512 ≤ s.size
    omega

variable {v : VolumeCode} {info : FsInfo}

theorem writesAbove_writeBitmapAndTable :
    WritesAbove p.offset raises (writeBitmapAndTable v p boot) := by
  refine (WritesAbove.partitionSeek (Nat.le_add_right ..)).bind fun _ => ?_
  refine WritesAbove.bind (writesAbove_writeBlank _ _) fun _ => ?_
  exact (WritesAbove.partitionSeek (Nat.le_add_right ..)).bind fun _ => .write _

/-- The FAT and the clusters lie behind the boot sector. -/
theorem writesAbove_writeRootAndChains (hboot : boot.Describes p) :
    WritesAbove (p.offset + 512) True (writeRootAndChains v p boot) := by
  have hreserved := hboot.reserved
  have hfat := hboot.fat
  have hclusters := hboot.clusters
  have hfatoffs : boot.fatoffs = boot.fatOffset * 512 := by
    rw [ExfatBoot.fatoffs, hboot.sector]
    rfl
  have hroot : boot.dataRegionOffset * 512 ≤ boot.root := by
    rw [ExfatBoot.root, ExfatBoot.cl2offset, hboot.sector]
    exact Nat.le_add_right ..
  refine .writeAt (by omega) ?_
  refine WritesAbove.bind (writesAbove_markRun (by omega)) fun _ => ?_
  exact WritesAbove.bind (writesAbove_markRun (by omega)) fun _ => writesAbove_markRun (by omega)

theorem Bootable.of_kept (h : KeptBelow p.offset s s') (h' : Bootable p boot s' s'') :
    Bootable p boot s s'' :=
  ⟨h.trans h'.kept, h'.sector⟩

theorem wp_prepareVolume (hboot : (v.boot p info).Describes p) (hpacks : (v.boot p info).Packs)
    (hin : p.offset + p.size ≤ s.size) (hpos : p.offset ≤ s.pos) :
    wp imageContract (prepareVolume v p info) (fun _ => Bootable p (v.boot p info) s)
      (fun _ => Bootable p (v.boot p info) s) s := by
  have hreserved := hboot.reserved
  have hclusters := hboot.clusters
  have hfat := hboot.fat
  rw [prepareVolume]
  generalize v.boot p info = boot at *
  -- The FAT, the bitmap and the table come before the boot sector.
  have hbefore : WritesAbove p.offset False (do
      p.seek (fatOffset info 512)
      blankFat info.fatSize.toNat
      p.seek (fatOffset info 512)
      raw (.write clus02)
      writeBitmapAndTable v p boot) := by
    refine (WritesAbove.partitionSeek (Nat.le_add_right ..)).bind fun _ => ?_
    refine WritesAbove.bind (writesAbove_blankFat _) fun _ => ?_
    exact .writeAt (Nat.le_add_right ..) writesAbove_writeBitmapAndTable
  have hregion : ∀ s₁, KeptBelow p.offset s s₁ →
      wp imageContract (writeBootRegion p boot >>= fun _ => writeRootAndChains v p boot)
        (fun _ => Bootable p boot s) (fun _ => Bootable p boot s) s₁ := by
    intro s₁ hkept₁
    have hsize₁ := hkept₁.size
    refine wp_seq (wp_writeBootRegion hpacks (by omega) (by omega)) ?_ fun _ _ h => h.elim
    rintro _ s₂ ⟨hbootable₂, hpos₂⟩
    have hsize₂ := hbootable₂.kept.size
    exact wp_mono (hbootable₂.wp (writesAbove_writeRootAndChains hboot) hpos₂ (by omega))
      (fun _ _ h => .of_kept hkept₁ h.1) fun _ _ h => .of_kept hkept₁ h.2
  have hrun := wp_seq (hbefore s hpos (by omega)) (fun _ s₁ h => hregion s₁ h.1)
    fun _ _ h => h.1.elim
  simp only [Prog.bind_assoc] at hrun
  exact hrun

/-- Formatting the partition leaves a boot sector, and the directories keep it. -/
theorem wp_exfatMkfs_image {clusterSize : ℕ} (hv : v.StaysInVolume)
    (hcluster : Recommended p.size clusterSize) (hoffset : p.offset = 1048576)
    (hsize : 512 ∣ p.size) (hmax : p.size ≤ 2199023255040) (hin : p.offset + p.size ≤ s.size)
    (hpos : p.offset ≤ s.pos) :
    ∃ boot : ExfatBoot, boot.Describes p ∧ boot.Packs ∧ boot.cluster = clusterSize ∧
      wp imageContract (exfatMkfs (formatterTail v) p p.size 512 clusterSize)
        (fun status s' => status = 0 ∧ wp imageContract (v.directories p)
          (fun _ => Bootable p boot s) (fun _ => Bootable p boot s) s')
        (fun _ => Bootable p boot s) s := by
  obtain ⟨info, hfind, hclusterSize, hsuits⟩ := exists_suits hcluster hmax
  have hboot := describes_boot (v := v) hsuits (by rw [hoffset]; decide) hsize
  have hpacks := packs_boot (v := v) hsuits hoffset hsize hmax
  refine ⟨v.boot p info, hboot, hpacks, ?_, ?_⟩
  · have hsame := cluster_boot (v := v) hsuits
    rw [hclusterSize] at hsame
    exact Int.ofNat_inj.1 hsame
  have hsome : (allowed p.size 512).isEmpty = false := by
    rw [List.isEmpty_eq_false_iff_exists_mem]
    exact ⟨info, List.mem_of_find?_eq_some hfind⟩
  rw [exfatMkfs, if_neg (by decide), if_neg (by simpa using hsome)]
  simp only [Nat.cast_ofNat, hfind]
  have hlimit : p.offset + 512 ≤ p.offset + (v.boot p info).fatoffs := by
    have hreserved := hboot.reserved
    rw [ExfatBoot.fatoffs, hboot.sector]
    omega
  -- The classes for the bitmap and the directories write behind the boot sector.
  have hclasses : ∀ s₁, Bootable p (v.boot p info) s s₁ → Prepared v p info s₁ →
      wp imageContract (v.bitmapAndRoot p (v.boot p info) v.table >>= fun _ =>
          (return 0 : RawProgram ℤ))
        (fun status s' => status = 0 ∧ wp imageContract (v.directories p)
          (fun _ => Bootable p (v.boot p info) s) (fun _ => Bootable p (v.boot p info) s) s')
        (fun _ => Bootable p (v.boot p info) s) s₁ := by
    intro s₁ hbootable hprepared
    have hkept : ∀ s', KeptBelow (p.offset + (v.boot p info).fatoffs) s₁ s' →
        Bootable p (v.boot p info) s s' := fun s' h => hbootable.trans (h.mono hlimit)
    refine wp_seq (hv p info s₁ hsuits hprepared) ?_ fun _ s' h => hkept s' h
    rintro _ s₂ ⟨-, hdirectories⟩
    exact ⟨rfl, wp_mono hdirectories (fun _ s' h => hkept s' h) fun _ s' h => hkept s' h⟩
  have hprepare := wp_and (wp_prepareVolume hboot hpacks hin hpos)
    (wp_runImage (prepareVolume v p info) s)
  have hrun := wp_seq hprepare (fun _ s₁ h => hclasses s₁ h.1
    ⟨by rwa [h.1.kept.size], s, h.2⟩) fun _ _ h => h.1
  simp only [prepareVolume, Prog.bind_assoc] at hrun
  exact hrun

/-- The table is written at the start of the disk, and kept. -/
theorem wp_partitionMbr_image {type : DiskType} {size : ℕ} (htype : type.Suits size)
    (hmin : 67108864 ≤ size) (hmax : size ≤ 2199023255040) (hsize : 512 ∣ size)
    (hs : s.size = size) :
    wp imageContract (partitionMbr type size) (fun entry s' => entry.InDisk size ∧ s'.size = size ∧
        49265152 ≤ entry.totalSectors * 512 ∧ packMbr entry = .ok (s'.bytes 0 512))
      (fun _ _ => False) s := by
  obtain ⟨entry, table, htable, hlength, hstatus, hkind, hfirstChs, hlastChs, hfirst, htotal,
    hleTotal, heq⟩ := partitionMbr_eq htype hmin hmax
  have hmib : mib = 1048576 := rfl
  have hroom : roomFor size = size - mib - 33 * 512 := rfl
  have hindisk : entry.InDisk size :=
    ⟨hstatus, hkind, hfirstChs, hlastChs, hfirst, by omega, by omega, by omega⟩
  rw [heq]
  refine wp_bind.2 (DiskImage.wp_seek ?_)
  refine wp_bind.2 (DiskImage.wp_write (wp_bind.2 (DiskImage.wp_seek ?_)))
  generalize hs₁ : DiskImage.write _ (zeros 32768) = s₁
  have hsize₁ : s₁.size = size := by
    rw [← hs₁]
    exact hs
  refine wp_bind.2 (DiskImage.wp_write ?_)
  have hwritten := DiskImage.bytes_write { s₁ with pos := min 0 s₁.size } table
    (by rw [hlength]; show min 0 s₁.size + 512 ≤ s₁.size; omega)
  rw [hlength, Nat.zero_min] at hwritten
  rw [Nat.zero_min]
  -- The other sectors that are blanked lie behind the table.
  have hrest : WritesAbove 512 False (do
      raw (.seek (entry.firstSectorLba * 512 : ℕ) 0)
      raw (.write (zeros 512))
      raw (.seek (size - 512 : ℕ) 0)
      raw (.write (zeros 512))
      raw .flush) := by
    refine (WritesAbove.seek (by omega)).bind fun _ => (WritesAbove.write _).bind fun _ => ?_
    exact (WritesAbove.seek (by omega)).bind fun _ => (WritesAbove.write _).bind fun _ => .flush
  have hpos₁ : 512 ≤ (({ s₁ with pos := 0 } : DiskImage).write table).pos := by
    show 512 ≤ min s₁.size (0 + table.length)
    omega
  have hreturn : ∀ s₂, KeptBelow 512 (({ s₁ with pos := 0 } : DiskImage).write table) s₂ →
      wp imageContract (return entry) (fun entry s' => entry.InDisk size ∧ s'.size = size ∧
        49265152 ≤ entry.totalSectors * 512 ∧ packMbr entry = .ok (s'.bytes 0 512))
        (fun _ _ => False) s₂ := by
    intro s₂ hkept
    refine ⟨hindisk, hkept.size.trans hsize₁, hleTotal, ?_⟩
    rw [htable, hkept.bytes le_rfl]
    exact congrArg Except.ok hwritten.symm
  have hrun := wp_seq (hrest _ hpos₁ (by show 512 ≤ s₁.size; omega))
    (fun _ s₂ h => hreturn s₂ h.1) fun _ _ h => h.1
  simp only [Prog.bind_assoc] at hrun
  exact hrun

/-- The image carries the boot regions of a disk of `size` bytes, whatever comes after them. -/
structure BootRegions (size : ℕ) (entry : MbrPartition) (boot : ExfatBoot) (s : DiskImage) :
    Prop where
  carries : s.Carries entry boot
  inDisk : entry.InDisk size
  describes : boot.Describes entry.partition
  packs : boot.Packs
  cluster : boot.cluster = recommendedExfatClusterSize entry.partition.size

theorem wp_formatStream_image {type : DiskType} {size : ℕ} (hv : v.StaysInVolume)
    (htype : type.Suits size) (hmin : 67108864 ≤ size) (hmax : size ≤ 2199023255040)
    (hsize : 512 ∣ size) (hs : s.size = size) :
    wp imageContract (formatStream (formatterTail v) type size)
      (fun result s' => ∃ entry boot, BootRegions size entry boot s' ∧
        result = ⟨entry.partition.offset, entry.partition.size, boot.cluster⟩)
      (fun _ s' => ∃ entry boot, BootRegions size entry boot s') s := by
  have hmib : mib = 1048576 := rfl
  rw [formatStream, if_neg (by omega), if_neg (by omega)]
  refine wp_seq (wp_partitionMbr_image htype hmin hmax hsize hs) ?_ fun _ _ h => h.elim
  rintro entry s₁ ⟨hindisk, hsize₁, hle, htable⟩
  have hoffset : entry.firstSectorLba * 512 = 1048576 := by rw [hindisk.first]
  have hinside := hindisk.inside
  have hfirst := hindisk.first
  have hin : entry.partition.offset + entry.partition.size ≤ s₁.size := by
    show entry.firstSectorLba * 512 + entry.totalSectors * 512 ≤ s₁.size
    omega
  refine wp_bind.2 (DiskImage.wp_seek ?_)
  rw [DiskPartition.new, if_neg (by omega)]
  refine wp_bind.2 (wp_bind.2 (DiskImage.wp_partitionSeek hin ?_))
  generalize hs₂ : ({ s₁ with pos := _ } : DiskImage) = s₂
  have hkept₂ : KeptBelow 1048576 s₁ s₂ := by
    rw [← hs₂]
    exact ⟨rfl, fun _ _ => rfl⟩
  have hpos₂ : entry.partition.offset ≤ s₂.pos := by
    rw [← hs₂]
    exact Nat.le_add_right ..
  have hin₂ : entry.partition.offset + entry.partition.size ≤ s₂.size := hkept₂.size ▸ hin
  obtain ⟨boot, hdescribes, hpacks, hcluster, hmkfs⟩ := wp_exfatMkfs_image (s := s₂) hv
    (recommended entry.partition.size hle) hoffset (Nat.dvd_mul_left 512 _) (by omega) hin₂ hpos₂
  have hregions : ∀ s', Bootable entry.partition boot s₂ s' → BootRegions size entry boot s' := by
    intro s' hbootable
    have hkept : KeptBelow 1048576 s₁ s' := by
      rw [← hoffset]
      exact (hoffset ▸ hkept₂ : KeptBelow _ s₁ s₂).trans hbootable.kept
    refine ⟨⟨?_, hbootable.sector⟩, hindisk, hdescribes, hpacks, hcluster⟩
    rw [htable, hkept.bytes (by decide)]
  refine wp_seq hmkfs ?_ fun _ s' h => ⟨entry, boot, hregions s' h⟩
  rintro _ s₃ ⟨rfl, hdirectories⟩
  rw [if_neg (by decide)]
  refine wp_bind.2 (DiskImage.wp_flush ?_)
  refine wp_seq hdirectories ?_ fun _ s' h => ⟨entry, boot, hregions s' h⟩
  intro _ s₄ hbootable₄
  refine ⟨entry, boot, hregions s₄ hbootable₄, ?_⟩
  rw [hcluster]
  rfl

/-- **What the formatter writes, the check accepts.**  For every size from 64 MiB to the largest
that the table can describe, the image carries a partition table and a boot sector, whether the run
returns or the code of the volume raises: the partition starts at sector 2048 and ends 33 sectors or
more before the end of the disk, and the FAT and the clusters lie in it.  The check accepts an image
for which the formatter returns. -/
theorem bootRegions_accepted (v : VolumeCode) (hv : v.StaysInVolume) (content : ℕ → UInt8)
    (size : ℕ) (hsize : 512 ∣ size) (hmin : 64 * mib ≤ size) (hmax : size ≤ 0xFFFFFFFF * 512) :
    let out := runImage (initializeStream (formatterTail v) size) (.new size content)
    (∃ entry boot, BootRegions size entry boot out.world) ∧
      ∀ result, out.result = .ok result →
        independentlyCheckBootRegions out.world result = .ok () := by
  intro out
  have hmib : mib = 1048576 := rfl
  have hrun := run_of_wp imageContract_admits (n := 0)
    (wp_formatStream_image (s := .new size content) hv (DiskType.suits_disk (by omega)) (by omega)
      (by omega) hsize rfl)
  constructor
  · rcases hresult : out.result with e | result
    · exact hrun.2 e hresult
    · obtain ⟨entry, boot, hregions, -⟩ := hrun.1 result hresult
      exact ⟨entry, boot, hregions⟩
  · intro result hresult
    obtain ⟨entry, boot, hregions, rfl⟩ := hrun.1 result hresult
    exact independentlyCheck_of_carries hregions.inDisk hregions.describes hregions.packs
      hregions.carries

/-! ### An image of 64 MiB -/

/-- The upper case of the letters of ASCII. -/
def sampleUpcase (i : ℕ) : Field 2 :=
  ⟨Binary.bytes 2 (if 97 ≤ i ∧ i ≤ 122 then i - 32 else i), length_bytes 2 _⟩

def sampleTime : DosTime :=
  ⟨2024, 1, 1, 0, 0, 0, by decide, by decide, by decide, by decide, by decide, by decide⟩

/-- The bits of the clusters up to `last`. -/
def sampleBitmap (last : ℕ) : Bytes := Binary.bytes ((last + 6) / 8) (2 ^ (last - 1) - 1)

/-- The checksum of a group of slots, and of a name. -/
def checksum16 (data : Bytes) : ℕ :=
  data.foldl (fun hash byte => ((hash <<< 15 ||| hash >>> 1) % 2 ^ 16 + byte.toNat) % 2 ^ 16) 0

/-- The slots of a directory of one cluster. -/
def directorySlots (name : Bytes) (cluster : ℕ) : Bytes :=
  let utf16 := name.flatMap fun c => [c, 0]
  let head : Bytes := [0x85, 2]
  let rest := Binary.bytes 2 0x10 ++ zeros 2 ++
    (List.replicate 3 (Binary.bytes 4 sampleTime.dosDateTime)).flatten ++ zeros 12 ++
    [0xC0, 3, 0, UInt8.ofNat name.length] ++ Binary.bytes 2 (checksum16 utf16) ++ zeros 2 ++
    Binary.bytes 8 4096 ++ zeros 4 ++ Binary.bytes 4 cluster ++ Binary.bytes 8 4096 ++
    [0xC1, 0] ++ utf16 ++ zeros (30 - utf16.length)
  head ++ Binary.bytes 2 (checksum16 (head ++ rest)) ++ rest

/-- `mkdir` for the directories of the root, which is cluster 35; each takes the next cluster. -/
def sampleDirectories (p : DiskPartition) : ℕ → List String → RawProgram Unit
  | _, [] => return
  | k, name :: names => do
    p.seek 130048
    raw (.write (sampleBitmap (36 + k)))
    p.seek (265280 + 96 * k)
    raw (.write (directorySlots (name.toList.map fun c => UInt8.ofNat c.toNat) (36 + k)))
    p.seek (130048 + (34 + k) * 4096)
    raw (.write (zeros 4096))
    sampleDirectories p (k + 1) names

/-- On an image of 64 MiB the data region begins at 130048, the root directory at 265216. -/
def sampleVolume : VolumeCode where
  upcase := sampleUpcase
  now := sampleTime
  bitmapAndRoot p boot table := do
    p.seek (boot.cl2offset 2)
    raw (.write (sampleBitmap boot.rootCluster))
    p.seek boot.root
    raw (.write ([0x81] ++ zeros 19 ++ Binary.bytes 4 2 ++ Binary.bytes 8 boot.bitmapLength))
    raw (.write ([0x82] ++ zeros 3 ++ Binary.bytes 4 (getChecksum table true) ++ zeros 12 ++
      Binary.bytes 4 (2 + boot.clustersFor boot.bitmapLength) ++ Binary.bytes 8 table.length))
  directories p :=
    sampleDirectories p 0 ["DVD", "CD", "ART", "CFG", "VMC", "CHT", "THM", "LNG", "APPS"]

/-- A program that begins with a seek may start anywhere. -/
theorem WritesAbove.after_seek {α : Type} {q : RawProgram α} (hq : WritesAbove limit raises q)
    (target : ℕ) (h : limit ≤ p.offset + min target p.size)
    (hsize : limit ≤ s.size) :
    wp imageContract (p.seek target >>= fun _ => q)
      (fun _ s' => KeptBelow limit s s' ∧ limit ≤ s'.pos)
      (fun _ s' => raises ∧ KeptBelow limit s s') s := by
  refine wp_bind.2 (DiskImage.wp_seek ?_)
  have hkept : KeptBelow limit s { s with pos := min (min target p.size + p.offset) s.size } :=
    ⟨rfl, fun _ _ => rfl⟩
  refine wp_mono (hq _ ?_ hsize) ?_ ?_
  · show limit ≤ min (min target p.size + p.offset) s.size
    omega
  · rintro _ s' ⟨hkept', hpos⟩
    exact ⟨hkept.trans hkept', hpos⟩
  · rintro _ s' ⟨hraises, hkept'⟩
    exact ⟨hraises, hkept.trans hkept'⟩

theorem writesAbove_sampleDirectories (hsize : 65536 ≤ p.size) (k : ℕ) (names : List String) :
    WritesAbove (p.offset + 65536) raises (sampleDirectories p k names) := by
  induction names generalizing k with
  | nil => exact .return ()
  | cons name names ih =>
    refine .writeAt (by omega) ?_
    refine .writeAt (by omega) ?_
    exact .writeAt (by omega) (ih (k + 1))

theorem staysInVolume_sampleVolume : sampleVolume.StaysInVolume := by
  intro p info s hsuits hprepared boot kept
  have hin := hprepared.inside
  have hinside := hsuits.inside
  have hreserved := hsuits.reserved
  have hmin := hsuits.recommended.2
  have hfatoffs : boot.fatoffs = 65536 := by
    show (info.reservedSize / 512).toNat * 2 ^ Nat.log2 512 = 65536
    rw [hreserved]
    rfl
  have hcluster : ∀ cluster, 65536 ≤ boot.cl2offset cluster := by
    intro cluster
    have hdata : 65536 ≤ boot.dataRegionOffset * 2 ^ boot.bytesPerSector := by
      show 65536 ≤ ((info.reservedSize / 512).toNat + _) * 2 ^ Nat.log2 512
      rw [hreserved, Nat.add_mul]
      exact Nat.le_add_right ..
    exact hdata.trans (Nat.le_add_right ..)
  have hlimit : p.offset + 65536 ≤ s.size := by omega
  have hdirectories : WritesAbove (p.offset + 65536) False (sampleVolume.directories p) :=
    writesAbove_sampleDirectories (by omega) 0 _
  have hslots : WritesAbove (p.offset + 65536) False (do
      raw (.write (sampleBitmap boot.rootCluster))
      p.seek boot.root
      raw (.write ([0x81] ++ zeros 19 ++ Binary.bytes 4 2 ++ Binary.bytes 8 boot.bitmapLength))
      raw (.write ([0x82] ++ zeros 3 ++ Binary.bytes 4 (getChecksum sampleVolume.table true) ++
        zeros 12 ++ Binary.bytes 4 (2 + boot.clustersFor boot.bitmapLength) ++
        Binary.bytes 8 sampleVolume.table.length))) := by
    have hroot : 65536 ≤ boot.root := hcluster _
    refine (WritesAbove.write _).bind fun _ => (WritesAbove.partitionSeek (by omega)).bind
      fun _ => ?_
    exact (WritesAbove.write _).bind fun _ => .write _
  have hbitmap := hcluster 2
  have hkept : kept = KeptBelow (p.offset + 65536) s := by rw [← hfatoffs]
  rw [hkept]
  refine wp_mono (hslots.after_seek (boot.cl2offset 2) (by omega) hlimit) ?_ ?_
  · rintro _ s' ⟨hkept', hpos'⟩
    refine ⟨hkept', wp_mono (hdirectories s' hpos' (hkept'.size ▸ hlimit)) ?_ ?_⟩
    · exact fun _ s'' h => hkept'.trans h.1
    · exact fun _ s'' h => h.1.elim
  · exact fun _ _ h => h.1.elim

theorem bootRegions_accepted_sample :
    let out := runImage (initializeStream (formatterTail sampleVolume) 67108864)
      (.new 67108864 fun _ => 0)
    (∃ entry boot, BootRegions 67108864 entry boot out.world) ∧
      ∀ result, out.result = .ok result →
        independentlyCheckBootRegions out.world result = .ok () :=
  bootRegions_accepted sampleVolume staysInVolume_sampleVolume (fun _ => 0) 67108864 (by norm_num)
    (by norm_num [mib]) (by norm_num)

end Ps2Ripper
