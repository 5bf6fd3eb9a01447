import Ps2Ripper.Storage.Partutils

/-!
# Formatting a disk

`_format_stream` of `storage/exfat.py` on a raw disk stream, with `exfat_mkfs` of
`FATtools/mkfat.py` up to the first entries of the FAT.  What comes after them is a parameter.

* `roundClusters`, `allowed`: the cluster counts that fit a partition;
* `exfatMkfs`, `formatStream`, `initializeStream`: the accesses to the stream;
* `wp_initializeStream`: the entries of the FAT are no whole sector, so the stream refuses them;
* `initializeStream_aborts`: no disk is ever formatted, and its partition table is lost.
-/

namespace Ps2Ripper

open Interactive Prog

/-! ### The parameters of the file system -/

structure FsInfo where
  requiredSize : ℤ
  reservedSize : ℤ
  clusterSize : ℤ
  clusters : ℤ
  fatSize : ℤ

def fatSize (clusters sector : ℤ) : ℤ := (4 * (clusters + 2) + sector - 1) / sector * sector

/-- For one copy of the FAT and no padding. -/
def requiredSize (clusterSize clusters reservedSize sector : ℤ) : ℤ :=
  clusterSize * clusters + fatSize clusters sector + reservedSize

/-- `while required_size > size`; every round takes at least one cluster away. -/
def shrink (size clusterSize reservedSize sector : ℤ) : ℕ → ℤ → ℤ
  | 0, clusters => clusters
  | fuel + 1, clusters =>
    let required := requiredSize clusterSize clusters reservedSize sector
    if size < required then
      shrink size clusterSize reservedSize sector fuel
        (clusters - (required - size + clusterSize - 1) / clusterSize)
    else clusters

/-- At least 24 sectors, for the boot region and its backup. -/
def reservedSize (sector : ℤ) : ℤ := max (128 * sector) (24 * sector)

/-- The value of `clusters` at the end of a round of the loop over the cluster sizes. -/
def roundClusters (size sector clusterSize : ℤ) : ℤ :=
  let clusters := (size - reservedSize sector) / clusterSize
  if 0xFFFFFFF6 < clusters then clusters
  else shrink size clusterSize (reservedSize sector) sector (clusters.toNat + 1) clusters

def fsInfo? (size sector clusterSize : ℤ) : Option FsInfo :=
  let clusters := roundClusters size sector clusterSize
  if clusters < 1 ∨ 0xFFFFFFF6 < clusters then none
  else some ⟨requiredSize clusterSize clusters (reservedSize sector) sector, reservedSize sector,
    clusterSize, clusters, fatSize clusters sector⟩

/-- The cluster sizes from 0.5K to 32M that the volume allows. -/
def allowed (size sector : ℤ) : List FsInfo :=
  (List.range' 9 16).filterMap fun i => fsInfo? size sector (2 ^ i)

/-! ### The accesses -/

/-- `disk.partition`: a window of the disk. -/
structure DiskPartition where
  offset : ℕ
  size : ℕ

/-- An absolute `seek`, clamped to the partition. -/
def DiskPartition.seek (p : DiskPartition) (target : ℕ) : RawProgram Unit :=
  raw (.seek (min target p.size + p.offset : ℕ) 0)

/-- The constructor forces the disk to the start of the partition. -/
def DiskPartition.new (offset size : ℕ) : RawProgram DiskPartition :=
  if size = 0 then .raise (.otherError "")
  else do
    DiskPartition.seek ⟨offset, size⟩ 0
    return ⟨offset, size⟩

/-- `while to_blank`. -/
def blankFat (toBlank : ℕ) : RawProgram Unit :=
  if toBlank = 0 then return
  else do
    raw (.write (zeros (min (2 * mib) toBlank)))
    blankFat (toBlank - min (2 * mib) toBlank)
termination_by toBlank
decreasing_by
  rw [mib]
  omega

/-- The media type and the end-of-chain mark, the entries of the two clusters that do not exist. -/
def clus02 : Bytes := [0xF8, 0xFF, 0xFF, 0xFF, 0xFF, 0xFF, 0xFF, 0xFF]

/-- `boot.fatoffs`. -/
def fatOffset (info : FsInfo) (sector : ℕ) : ℕ :=
  (info.reservedSize / sector).toNat * 2 ^ Nat.log2 sector

/-- What the formatter does after the first write to the FAT: the rest of `exfat_mkfs`, which
returns a status, and the directories. -/
structure FormatterTail where
  fileSystem : DiskPartition → FsInfo → RawProgram ℤ
  directories : DiskPartition → RawProgram Unit

variable (tail : FormatterTail)

def exfatMkfs (stream : DiskPartition) (size sector wantedCluster : ℕ) : RawProgram ℤ :=
  if sector ≠ 512 ∧ sector ≠ 4096 then return -1
  else if (allowed size sector).isEmpty then
    return if roundClusters size sector (2 ^ 24) < 1 then -2 else -3
  else
    match (allowed size sector).find? (·.clusterSize = (wantedCluster : ℤ)) with
    | none => return -4
    | some info => do
      stream.seek (fatOffset info sector)
      blankFat info.fatSize.toNat
      stream.seek (fatOffset info sector)
      raw (.write clus02)
      tail.fileSystem stream info

structure FormatResult where
  partitionOffset : ℕ
  partitionSize : ℕ
  clusterSize : ℕ

def recommendedExfatClusterSize (partitionSize : ℕ) : ℕ :=
  if partitionSize ≤ 256 * mib then 4 * 1024
  else if partitionSize ≤ 32 * 1024 ^ 3 then 32 * 1024
  else 128 * 1024

/-- `_format_stream`, on a stream of that type and size. -/
def formatStream (type : DiskType) (size : ℕ) : RawProgram FormatResult :=
  if size < 64 * mib then
    .raise (.validationError "The disk is too small for the supported OPL exFAT layout.")
  else if 0xFFFFFFFF * 512 < size then
    .raise (.validationError "The disk exceeds the supported MBR address range.")
  else do
    let entry ← partitionMbr type size
    let partitionOffset := entry.firstSectorLba * 512
    let partitionSize := entry.totalSectors * 512
    let clusterSize := recommendedExfatClusterSize partitionSize
    raw (.seek 0 0)
    let stream ← DiskPartition.new partitionOffset partitionSize
    let result ← exfatMkfs tail stream stream.size 512 clusterSize
    if result ≠ 0 then
      .raise (.validationError s!"FATtools exFAT formatter failed with status {result}.")
    else do
      raw .flush
      tail.directories stream
      return ⟨partitionOffset, partitionSize, clusterSize⟩

/-- `initialize_stream`, and the formatter of an image file: the stream is a `disk`. -/
def initializeStream (size : ℕ) : RawProgram FormatResult := formatStream tail .disk size

/-- The guards of the stream let every access of a program pass. -/
def AlwaysAccepted (d : RawDisk) {α : Type} : RawProgram α → DiskState → Prop
  | .call o k, s => (∃ a, (d.perform s o).1 = .ok a) ∧
      AlwaysAccepted d (k (d.perform s o).1) (d.perform s o).2
  | _, _ => True

/-- Formatting goes through: no access is refused, and the formatter returns. -/
def FormatsThrough (d : RawDisk) (content : ℕ → UInt8) : Prop :=
  AlwaysAccepted d (initializeStream tail d.size) (DiskState.new content) ∧
    ∃ result, (runRaw d (initializeStream tail d.size) (DiskState.new content)).result = .ok result

/-! ### The cluster count -/

/-- The cluster sizes that the formatter recommends, for a partition that fits them. -/
def Recommended (size : ℤ) (clusterSize : ℤ) : Prop :=
  (clusterSize = 4096 ∨ clusterSize = 32768 ∨ clusterSize = 131072) ∧ 49265152 ≤ size

theorem recommended (partitionSize : ℕ) (h : 49265152 ≤ partitionSize) :
    Recommended partitionSize (recommendedExfatClusterSize partitionSize) := by
  refine ⟨?_, by omega⟩
  rw [recommendedExfatClusterSize]
  split
  · exact .inl rfl
  split
  · exact .inr (.inl rfl)
  · exact .inr (.inr rfl)

/-- A round of the loop leaves a cluster, and fewer of them than before. -/
theorem shrink_step {size clusterSize clusters : ℤ} (h : Recommended size clusterSize)
    (hfit : clusterSize * clusters ≤ size - 65536)
    (hlarge : size < requiredSize clusterSize clusters 65536 512) :
    1 ≤ clusters -
        (requiredSize clusterSize clusters 65536 512 - size + clusterSize - 1) / clusterSize ∧
      clusters -
        (requiredSize clusterSize clusters 65536 512 - size + clusterSize - 1) / clusterSize <
          clusters := by
  obtain ⟨hsize, hmin⟩ := h
  rw [requiredSize, fatSize] at *
  obtain rfl | rfl | rfl := hsize
  all_goals omega

theorem shrink_spec {size clusterSize : ℤ} (h : Recommended size clusterSize) (fuel : ℕ)
    {clusters : ℤ} (hpos : 1 ≤ clusters) (hfit : clusterSize * clusters ≤ size - 65536)
    (hfuel : clusters < fuel) :
    1 ≤ shrink size clusterSize 65536 512 fuel clusters ∧
      requiredSize clusterSize (shrink size clusterSize 65536 512 fuel clusters) 65536 512 ≤
        size := by
  induction fuel generalizing clusters with
  | zero => exact absurd hfuel (by omega)
  | succ fuel ih =>
    rw [shrink]
    split
    · rename_i hlarge
      obtain ⟨hpos', hless⟩ := shrink_step h hfit hlarge
      have hclusterSize : 0 ≤ clusterSize := by
        obtain ⟨rfl | rfl | rfl, -⟩ := h <;> decide
      exact ih hpos' ((mul_le_mul_of_nonneg_left hless.le hclusterSize).trans hfit) (by omega)
    · rename_i hfits
      exact ⟨hpos, not_lt.1 hfits⟩

theorem roundClusters_spec {size clusterSize : ℤ} (h : Recommended size clusterSize)
    (hmax : size ≤ 2199023255040) :
    1 ≤ roundClusters size 512 clusterSize ∧ roundClusters size 512 clusterSize ≤ 0xFFFFFFF6 ∧
      requiredSize clusterSize (roundClusters size 512 clusterSize) 65536 512 ≤ size := by
  have hreserved : reservedSize 512 = 65536 := by decide
  have hstart : 1 ≤ (size - 65536) / clusterSize ∧ (size - 65536) / clusterSize ≤ 0xFFFFFFF6 ∧
      clusterSize * ((size - 65536) / clusterSize) ≤ size - 65536 := by
    obtain ⟨rfl | rfl | rfl, hmin⟩ := h
    all_goals omega
  obtain ⟨hpos, hle, hfit⟩ := hstart
  rw [roundClusters, hreserved]
  simp only [if_neg (not_lt.2 hle)]
  obtain ⟨hone, hrequired⟩ := shrink_spec h (((size - 65536) / clusterSize).toNat + 1) hpos hfit
    (by omega)
  refine ⟨hone, ?_, hrequired⟩
  generalize shrink size clusterSize 65536 512 _ _ = clusters at hone hrequired
  rw [requiredSize, fatSize] at hrequired
  obtain ⟨rfl | rfl | rfl, -⟩ := h
  all_goals omega

/-- The parameters that the formatter works with. -/
structure FsInfo.Fits (info : FsInfo) (size : ℤ) : Prop where
  reserved : info.reservedSize = 65536
  aligned : 512 ∣ info.fatSize
  pos : 0 ≤ info.fatSize
  inside : 65536 + info.fatSize ≤ size

theorem fsInfo?_spec {size clusterSize : ℤ} (h : Recommended size clusterSize)
    (hmax : size ≤ 2199023255040) :
    ∃ info, fsInfo? size 512 clusterSize = some info ∧ info.clusterSize = clusterSize ∧
      info.Fits size := by
  obtain ⟨hone, hle, hrequired⟩ := roundClusters_spec h hmax
  rw [fsInfo?]
  generalize roundClusters size 512 clusterSize = clusters at hone hle hrequired
  have hfat : 0 ≤ fatSize clusters 512 := by
    rw [fatSize]
    omega
  refine ⟨_, if_neg (by omega), rfl, (by decide : reservedSize 512 = 65536), Dvd.intro_left _ rfl,
    hfat, ?_⟩
  rw [requiredSize] at hrequired
  have hclusters : 0 ≤ clusterSize * clusters := by
    obtain ⟨rfl | rfl | rfl, -⟩ := h
    all_goals omega
  exact (by omega : 65536 + fatSize clusters 512 ≤ size)

/-- What a round of the loop over the cluster sizes leaves. -/
theorem fsInfo?_eq_some {size sector clusterSize : ℤ} {info : FsInfo}
    (h : fsInfo? size sector clusterSize = some info) :
    info.clusterSize = clusterSize ∧ info.clusters = roundClusters size sector clusterSize ∧
      info.fatSize = fatSize info.clusters sector := by
  rw [fsInfo?] at h
  split at h
  · cases h
  · cases h
    exact ⟨rfl, rfl, rfl⟩

/-- A cluster size is looked up in the round of that size. -/
theorem find_allowed_eq (size : ℤ) {i : ℕ} (hi : i ∈ List.range' 9 16) :
    (allowed size 512).find? (·.clusterSize = 2 ^ i) = fsInfo? size 512 (2 ^ i) := by
  rcases hfound : (allowed size 512).find? (·.clusterSize = (2 : ℤ) ^ i) with _ | found
  · refine hfound.trans ?_
    rcases hinfo : fsInfo? size 512 (2 ^ i) with _ | info
    · rfl
    · have hmem : info ∈ allowed size 512 := List.mem_filterMap.2 ⟨i, hi, hinfo⟩
      have hother := List.find?_eq_none.1 hfound info hmem
      exact absurd (fsInfo?_eq_some hinfo).1 (by simpa using hother)
  · -- An entry of that cluster size comes from the round of that cluster size.
    obtain ⟨j, -, hj⟩ := List.mem_filterMap.1 (List.mem_of_find?_eq_some hfound)
    have hsize : found.clusterSize = 2 ^ i := by simpa using List.find?_some hfound
    rw [← (fsInfo?_eq_some hj).1, hsize] at hj
    exact hfound.trans hj.symm

/-- The recommended cluster size is allowed. -/
theorem find_allowed {size clusterSize : ℤ} (h : Recommended size clusterSize)
    (hmax : size ≤ 2199023255040) :
    ∃ info, (allowed size 512).find? (·.clusterSize = clusterSize) = some info ∧
      fsInfo? size 512 clusterSize = some info ∧ info.Fits size := by
  obtain ⟨info, hinfo, -, hfits⟩ := fsInfo?_spec h hmax
  have hpower : ∃ i ∈ List.range' 9 16, clusterSize = 2 ^ i := by
    obtain ⟨rfl | rfl | rfl, -⟩ := h
    · exact ⟨12, by decide, rfl⟩
    · exact ⟨15, by decide, rfl⟩
    · exact ⟨17, by decide, rfl⟩
  obtain ⟨i, hi, rfl⟩ := hpower
  exact ⟨info, (find_allowed_eq size hi).trans hinfo, hinfo, hfits⟩

/-! ### The run -/

variable {tail} {d : RawDisk} {s : DiskState} {position : ℕ} {log : List Transfer}
  {E : PyError → DiskState → Prop}

theorem wp_partitionSeek {p : DiskPartition} {target : ℕ} {Q : Unit → DiskState → Prop}
    (hs : Stands s position log) (htarget : target ≤ p.size) (hin : p.offset + p.size ≤ d.size)
    (hQ : ∀ s', Stands s' (p.offset + target) log → Q () s') :
    wp (rawContract d) (p.seek target) Q E s := by
  rw [DiskPartition.seek, min_eq_left htarget]
  refine wp_seek _ hs (by omega) fun s' hs' => hQ s' ?_
  rwa [Nat.add_comm] at hs'

/-- Blanking writes whole sectors, up to 2 MiB of them at a time. -/
theorem wp_blankFat {toBlank : ℕ} {Q : Unit → DiskState → Prop} (hsector : d.sectorSize = 512)
    (hs : Stands s position log) (hposition : 512 ∣ position) (haligned : 512 ∣ toBlank)
    (hin : position + toBlank ≤ d.size)
    (hQ : ∀ s' written, Stands s' (position + toBlank) (log ++ written) → Q () s') :
    wp (rawContract d) (blankFat toBlank) Q E s := by
  induction toBlank using Nat.strong_induction_on generalizing s position log with
  | _ toBlank ih =>
    have hmib : mib = 1048576 := rfl
    rw [blankFat]
    split
    · rename_i hzero
      exact hQ s [] (by rwa [hzero, List.append_nil])
    · rename_i hne
      have hle : min (2 * mib) toBlank ≤ toBlank := min_le_right ..
      have hpos : 0 < min (2 * mib) toBlank := by omega
      have hsmall : min (2 * mib) toBlank ≤ 2 * mib := min_le_left ..
      have hpart : 512 ∣ min (2 * mib) toBlank := by
        rw [hmib]
        omega
      generalize min (2 * mib) toBlank = n at hle hpos hsmall hpart
      refine wp_bind.2 (wp_rawWrite hsector hs hposition (by rwa [length_zeros])
        (by rw [length_zeros]; omega) (by rw [length_zeros]; omega) fun s hs => ?_)
      rw [length_zeros] at hs
      refine ih (toBlank - n) (by omega) hs (by omega) (by omega) (by omega)
        fun s' written hs' => ?_
      rw [List.append_assoc, Nat.add_assoc, Nat.add_sub_cancel' hle] at hs'
      exact hQ s' _ hs'

/-- The stream refuses the first entries of the FAT. -/
theorem wp_exfatMkfs {p : DiskPartition} {Q : ℤ → DiskState → Prop} {clusterSize : ℕ}
    (hsector : d.sectorSize = 512) (hs : Stands s position log) (hoffset : 512 ∣ p.offset)
    (hin : p.offset + p.size ≤ d.size) (hmax : p.size ≤ 2199023255040)
    (hcluster : Recommended p.size clusterSize)
    (hE : ∀ s', log ⊆ s'.writes → E (.valueError "Raw disk writes must be sector aligned") s') :
    wp (rawContract d) (exfatMkfs tail p p.size 512 clusterSize) Q E s := by
  obtain ⟨info, hfind, -, hreserved, haligned, hpos, hinside⟩ :=
    find_allowed hcluster (by exact_mod_cast hmax)
  have hfat : fatOffset info 512 = 65536 := by
    rw [fatOffset, hreserved]
    rfl
  have hsome : (allowed p.size 512).isEmpty = false := by
    rw [List.isEmpty_eq_false_iff_exists_mem]
    exact ⟨info, List.mem_of_find?_eq_some hfind⟩
  rw [exfatMkfs, if_neg (by decide), if_neg (by simpa using hsome)]
  simp only [Nat.cast_ofNat, hfind, hfat]
  refine wp_bind.2 (wp_partitionSeek hs (by omega) hin fun s hs => ?_)
  refine wp_bind.2 (wp_blankFat hsector hs (by omega) (by omega) (by omega)
    fun s written hs => ?_)
  refine wp_bind.2 (wp_partitionSeek hs (by omega) hin fun s hs => ?_)
  refine wp_bind.2 (wp_unalignedWrite hsector (by decide) (hE s ?_))
  rw [hs.writes]
  exact List.subset_append_left ..

/-- The partition table has been written when the formatter is stopped. -/
theorem wp_initializeStream (hsector : d.sectorSize = 512) (hmin : 67108864 ≤ d.size)
    (hmax : d.size ≤ 2199023255040) (hsize : 512 ∣ d.size) (hs : Stands s 0 []) :
    wp (rawContract d) (initializeStream tail d.size) (fun _ _ => False)
      (fun e s => e = .valueError "Raw disk writes must be sector aligned" ∧
        ∃ entry table, Partitioned d entry table ∧ ⟨0, 0, table⟩ ∈ s.writes) s := by
  have hmib : mib = 1048576 := rfl
  rw [initializeStream, formatStream, if_neg (by omega), if_neg (by omega)]
  refine wp_bind.2 (wp_partitionMbr (DiskType.suits_disk hmin) hsector hmin hmax hsize hs
    fun entry table s log hpart hs htable => ?_)
  have hoffset : entry.firstSectorLba * 512 = 1048576 := by rw [hpart.first]
  have hin := hpart.inside
  have hle := hpart.le_total
  simp only [hoffset]
  generalize entry.totalSectors * 512 = size at hin hle
  refine wp_bind.2 (wp_seek 0 hs (Nat.zero_le _) fun s hs => ?_)
  rw [DiskPartition.new, if_neg (by omega)]
  refine wp_bind.2 (wp_bind.2 (wp_partitionSeek hs (Nat.zero_le _) hin fun s hs => ?_))
  refine wp_bind.2 (wp_exfatMkfs hsector hs (by decide : 512 ∣ 1048576) hin
    (by omega : size ≤ 2199023255040) (recommended size hle)
    fun s' hlog => ?_)
  exact ⟨rfl, entry, table, hpart, hlog htable⟩

theorem result_initializeStream (tail : FormatterTail) (content : ℕ → UInt8)
    (hsector : d.sectorSize = 512) (hmin : 67108864 ≤ d.size) (hmax : d.size ≤ 2199023255040)
    (hsize : 512 ∣ d.size) :
    (runRaw d (initializeStream tail d.size) (DiskState.new content)).result =
        .error (.valueError "Raw disk writes must be sector aligned") ∧
      ∃ entry table, Partitioned d entry table ∧
        ⟨0, 0, table⟩ ∈
          (runRaw d (initializeStream tail d.size) (DiskState.new content)).world.writes := by
  have hstart : Stands (DiskState.new content) 0 [] := ⟨rfl, rfl, rfl⟩
  have hrun : wp (rawContract d) (initializeStream tail d.size) _ _ _ :=
    wp_initializeStream hsector hmin hmax hsize hstart
  obtain ⟨e, hresult, rfl, hwritten⟩ := exists_error_of_wp (rawContract_admits d) (n := 0) hrun
  exact ⟨hresult, hwritten⟩

/-- No disk is formatted: the formatter is stopped by the adapter, after it has written the
partition table. -/
theorem initializeStream_aborts (tail : FormatterTail) (d : RawDisk) (content : ℕ → UInt8)
    (hsector : d.sectorSize = 512) (hmin : 64 * mib ≤ d.size) (hmax : d.size ≤ 0xFFFFFFFF * 512)
    (hsize : 512 ∣ d.size) :
    ¬FormatsThrough tail d content ∧
      let out := runRaw d (initializeStream tail d.size) (DiskState.new content)
      out.result = .error (.valueError "Raw disk writes must be sector aligned") ∧
        ∃ entry table, Partitioned d entry table ∧ ⟨0, 0, table⟩ ∈ out.world.writes := by
  have hmib : mib = 1048576 := rfl
  obtain ⟨hresult, hwritten⟩ :=
    result_initializeStream tail content hsector (by omega) (by omega) hsize
  refine ⟨?_, hresult, hwritten⟩
  rintro ⟨-, result, hok⟩
  cases hresult.symm.trans hok

/-- A disk of 64 MiB. -/
def smallDisk : RawDisk := ⟨67108864, 512, by norm_num⟩

/-- A formatter that would do no more than that. -/
def emptyTail : FormatterTail := ⟨fun _ _ => return 0, fun _ => return ()⟩

theorem initializeStream_aborts_sample :
    ¬FormatsThrough emptyTail smallDisk (fun _ => 0) ∧
      let out := runRaw smallDisk (initializeStream emptyTail smallDisk.size) (.new fun _ => 0)
      out.result = .error (.valueError "Raw disk writes must be sector aligned") ∧
        ∃ entry table, Partitioned smallDisk entry table ∧ ⟨0, 0, table⟩ ∈ out.world.writes :=
  initializeStream_aborts emptyTail smallDisk (fun _ => 0) rfl (by norm_num [smallDisk, mib])
    (by norm_num [smallDisk]) (by norm_num [smallDisk])

theorem not_formatsThrough :
    ¬∀ (tail : FormatterTail) (d : RawDisk) (content : ℕ → UInt8), d.sectorSize = 512 →
      64 * mib ≤ d.size → d.size ≤ 0xFFFFFFFF * 512 → 512 ∣ d.size →
      FormatsThrough tail d content := by
  intro h
  obtain ⟨-, result, hok⟩ := h emptyTail smallDisk (fun _ => 0) rfl
    (by norm_num [smallDisk, mib]) (by norm_num [smallDisk]) (by norm_num [smallDisk])
  have hresult := (result_initializeStream emptyTail (d := smallDisk) (fun _ => 0) rfl
    (by norm_num [smallDisk]) (by norm_num [smallDisk]) (by norm_num [smallDisk])).1
  cases hresult.symm.trans hok

end Ps2Ripper
