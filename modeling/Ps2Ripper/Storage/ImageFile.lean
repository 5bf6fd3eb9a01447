import Ps2Ripper.Storage.SectorCache

/-!
# Formatting an image file

The formatter over the sector cache of an image file, as `initialize_image` of `storage/exfat.py`
runs it.

* `carefulContract`: calls that stay on the disk, and that the cache carries out as the image does;
* `CarefulOn`, `Lays`: programs of such calls, and the writes that follow a `seek`;
* `careful_formatStream`: the formatter is one of them, for every size of a disk;
* `imageFile_accepted`: the check accepts the file that is left when the disk is closed.
-/

namespace Ps2Ripper

open Interactive Prog Binary

/-- A call that does not leave the disk. -/
def InsideCall (s : DiskImage) : RawOp → Prop
  | .seek offset whence => whence = 0 ∧ 0 ≤ offset ∧ offset < s.size
  | .read size => 0 ≤ size
  | .write data => s.pos + data.length ≤ s.size
  | _ => True

def carefulContract : Contract rawInterface PyError (DiskImage × Bool) where
  may g o := OrderlyCall g.1 g.2 o ∧ InsideCall g.1 o
  answers := orderlyContract.answers

/-- All calls of the program are of this kind. -/
def Careful {α : Type} (p : RawProgram α) (g : DiskImage × Bool) : Prop :=
  wp carefulContract p (fun _ _ => True) (fun _ _ => True) g

/-- Wherever the stream stands, the calls are careful on a disk of `size` bytes. -/
def CarefulOn {α : Type} (size : ℕ) (p : RawProgram α) : Prop :=
  ∀ s aimed, s.size = size →
    wp carefulContract p (fun _ g => g.1.size = size) (fun _ _ => True) (s, aimed)

/-- Where the stream was aimed the program puts `n` bytes, one after the other. -/
def Lays {α : Type} (n : ℕ) (p : RawProgram α) : Prop :=
  ∀ s : DiskImage, s.pos + n ≤ s.size →
    wp carefulContract p (fun _ g => g.1.size = s.size ∧ g.1.pos = s.pos + n ∧ g.2 = true)
      (fun _ _ => True) (s, true)

variable {α β : Type} {size m n target : ℕ} {s : DiskImage} {aimed : Bool} {g : DiskImage × Bool}
  {p : RawProgram α} {Q : α → DiskImage × Bool → Prop} {E : PyError → DiskImage × Bool → Prop}

/-- The answer of a call is that of the image. -/
theorem wp_careful {o : RawOp} {a : o.Answer} {s' : DiskImage}
    {Q : o.Answer → DiskImage × Bool → Prop}
    (ho : OrderlyCall s aimed o) (hin : InsideCall s o) (h : s.perform o = (.ok a, s'))
    (hQ : Q a (s', aims s aimed o)) : wp carefulContract (raw o) Q E (s, aimed) := by
  refine wp_perform.2 ⟨⟨ho, hin⟩, ?_, ?_⟩
  · rintro b ⟨t, _⟩ ⟨hb, rfl⟩
    obtain ⟨⟨⟩, rfl⟩ := Prod.mk.inj (h.symm.trans hb)
    exact hQ
  · rintro e ⟨t, _⟩ ⟨he, -⟩
    obtain ⟨⟨⟩, -⟩ := Prod.mk.inj (h.symm.trans he)

theorem wp_carefulSeek (hin : target < s.size) {Q : Unit → DiskImage × Bool → Prop}
    (hQ : Q () ({ s with pos := target }, true)) :
    wp carefulContract (raw (.seek target 0)) Q E (s, aimed) := by
  refine wp_careful trivial ⟨rfl, by omega, by omega⟩ ?_ hQ
  have htarget : (max 0 (min (target : ℤ) s.size)).toNat = target := by omega
  rw [DiskImage.perform, DiskImage.seek]
  simp only [if_neg (by decide : ¬(0 : ℤ) = 1), if_neg (by decide : ¬(0 : ℤ) = 2), htarget]

/-- A program that is careful ends as its run over the image does. -/
theorem wp_runCareful (h : wp carefulContract p Q E g) :
    wp carefulContract p
      (fun a g' => Q a g' ∧ (runImage p g.1).result = .ok a ∧ (runImage p g.1).world = g'.1)
      E g := by
  rw [runImage]
  generalize 0 = clock
  induction p generalizing g clock with
  | pure a => exact ⟨h, rfl, rfl⟩
  | raise e => exact h
  | call o k ih =>
    refine ⟨h.1, fun r g' hanswer => ?_⟩
    have hstep : g.1.perform o = (r, g'.1) := hanswer.1
    rw [run]
    simp only [hstep]
    exact ih r (h.2 r g' hanswer) (clock + 1)

theorem Careful.orderly (h : Careful p g) : Orderly p g := by
  induction p generalizing g with
  | pure a => trivial
  | raise e => trivial
  | call o k ih => exact ⟨h.1.1, fun r g' hanswer => ih r (h.2 r g' hanswer)⟩

/-! ### Writes, one after the other -/

theorem Lays.return (a : α) : Lays 0 (return a : RawProgram α) := fun _ _ => ⟨rfl, rfl, rfl⟩

/-- A value that is computed before the next write. -/
theorem Lays.lift_bind {x : Except PyError α} {f : α → RawProgram β}
    (hf : ∀ a, x = .ok a → Lays n (f a)) : Lays n (Prog.lift x >>= f) :=
  fun s hin => wp_bind.2 ((wp_lift x).2 ⟨fun a ha => hf a ha s hin, fun _ _ => trivial⟩)

theorem Lays.write (data : Bytes) : Lays data.length (raw (.write data)) := by
  intro s hin
  refine wp_careful (.inr ⟨rfl, hin⟩) hin rfl ⟨rfl, ?_, rfl⟩
  show min s.size (s.pos + data.length) = s.pos + data.length
  omega

theorem Lays.bind {f : α → RawProgram β} (hp : Lays m p) (hf : ∀ a, Lays n (f a)) :
    Lays (m + n) (p >>= f) := by
  intro s hin
  refine wp_seq (hp s (by omega)) ?_ fun _ _ h => h
  rintro a ⟨s₁, _⟩ ⟨hsize, hpos, rfl⟩
  dsimp only at hsize hpos
  refine wp_mono (hf a s₁ (by omega)) ?_ fun _ _ h => h
  rintro b g ⟨hsize', hpos', haimed⟩
  exact ⟨hsize'.trans hsize, by omega, haimed⟩

theorem lays_writeBlank (size count : ℕ) : Lays (size * count) (writeBlank size count) := by
  induction count with
  | zero => exact .return ()
  | succ count ih =>
    have hwrite := (Lays.write (zeros size)).bind fun _ => ih
    rwa [length_zeros, Nat.add_comm, ← Nat.mul_succ] at hwrite

theorem lays_writeEmptySectors (count : ℕ) : Lays (512 * count) (writeEmptySectors count) := by
  induction count with
  | zero => exact .return ()
  | succ count ih =>
    have hwrite := (Lays.write emptySector).bind fun _ => ih
    have hlength : emptySector.length = 512 := by simp [emptySector]
    rwa [hlength, Nat.add_comm, ← Nat.mul_succ] at hwrite

theorem lays_blankFat (toBlank : ℕ) : Lays toBlank (blankFat toBlank) := by
  induction toBlank using Nat.strong_induction_on with
  | _ toBlank ih =>
    rw [blankFat]
    split
    · rename_i hzero
      rw [hzero]
      exact .return ()
    · rename_i hne
      have hmib : mib = 1048576 := rfl
      have hpart := (Lays.write (zeros (min (2 * mib) toBlank))).bind fun _ =>
        ih (toBlank - min (2 * mib) toBlank) (by omega)
      rwa [length_zeros, Nat.add_sub_cancel' (min_le_right ..)] at hpart

/-! ### Programs on a disk -/

theorem CarefulOn.return (a : α) : CarefulOn size (return a : RawProgram α) := fun _ _ hs => hs

theorem CarefulOn.bind {f : α → RawProgram β} (hp : CarefulOn size p)
    (hf : ∀ a, CarefulOn size (f a)) : CarefulOn size (p >>= f) :=
  fun s aimed hs => wp_seq (hp s aimed hs) (fun a g hg => hf a g.1 g.2 hg) fun _ _ h => h

theorem CarefulOn.flush : CarefulOn size (raw .flush) :=
  fun _ _ hs => wp_careful trivial trivial rfl hs

theorem CarefulOn.lay (hp : Lays n p) (h : target < size) (hin : target + n ≤ size) :
    CarefulOn size (raw (.seek target 0) >>= fun _ => p) := by
  intro s aimed hs
  refine wp_bind.2 (wp_carefulSeek (hs.symm ▸ h) (wp_mono (hp _ ?_) ?_ fun _ _ h => h))
  · exact hs.symm ▸ hin
  · rintro a g ⟨hsize, -⟩
    exact hsize.trans hs

theorem CarefulOn.layAt {f : α → RawProgram β} (hp : Lays n p) (h : target < size)
    (hin : target + n ≤ size) (hf : ∀ a, CarefulOn size (f a)) :
    CarefulOn size (raw (.seek target 0) >>= fun _ => p >>= f) := by
  have hrun := (CarefulOn.lay hp h hin).bind hf
  rwa [Prog.bind_assoc] at hrun

theorem CarefulOn.writeAt {data : Bytes} {q : RawProgram β} (h : target < size)
    (hin : target + data.length ≤ size) (hq : CarefulOn size q) :
    CarefulOn size (raw (.seek target 0) >>= fun _ => raw (.write data) >>= fun _ => q) :=
  .layAt (.write data) h hin fun _ => hq

variable {part : DiskPartition}

/-- A `seek` in a partition that ends before the disk does. -/
theorem DiskPartition.seek_eq (h : target ≤ part.size) :
    part.seek target = raw (.seek (target + part.offset : ℕ) 0) := by
  rw [DiskPartition.seek, min_eq_left h]

/-! ### Room for the clusters of the formatter -/

/-- The loop stops after a round, with most of the clusters. -/
theorem le_shrink {size clusterSize clusters : ℤ} (h : Recommended size clusterSize)
    (hmany : 375 ≤ clusters) (hfit : clusterSize * clusters ≤ size - 65536) (fuel : ℕ) :
    40 ≤ shrink size clusterSize 65536 512 fuel clusters := by
  obtain ⟨hsize, hmin⟩ := h
  cases fuel with
  | zero => exact (by decide : (40 : ℤ) ≤ 375).trans hmany
  | succ fuel =>
    rw [shrink]
    split
    · rename_i hlarge
      generalize hnext : clusters - (_ + clusterSize - 1) / clusterSize = next
      have hstop : ¬size < requiredSize clusterSize next 65536 512 := by
        rw [requiredSize, fatSize] at hnext hlarge ⊢
        obtain rfl | rfl | rfl := hsize
        all_goals omega
      have hnext' : shrink size clusterSize 65536 512 fuel next = next := by
        cases fuel with
        | zero => rfl
        | succ fuel => rw [shrink, if_neg hstop]
      rw [hnext']
      rw [requiredSize, fatSize] at hnext
      obtain rfl | rfl | rfl := hsize
      all_goals omega
    · exact (by decide : (40 : ℤ) ≤ 375).trans hmany

theorem le_roundClusters {size clusterSize : ℤ} (h : Recommended size clusterSize)
    (hmax : size ≤ 2199023255040) : 40 ≤ roundClusters size 512 clusterSize := by
  have hreserved : reservedSize 512 = 65536 := by decide
  have hstart : 375 ≤ (size - 65536) / clusterSize ∧ (size - 65536) / clusterSize ≤ 0xFFFFFFF6 ∧
      clusterSize * ((size - 65536) / clusterSize) ≤ size - 65536 := by
    obtain ⟨rfl | rfl | rfl, hmin⟩ := h
    all_goals omega
  obtain ⟨hmany, hle, hfit⟩ := hstart
  rw [roundClusters, hreserved]
  simp only [if_neg (not_lt.2 hle)]
  exact le_shrink h hmany hfit _

variable {v : VolumeCode} {info : FsInfo}

/-- The bitmap, the up-case table and the root directory are given clusters of the partition. -/
theorem clusters_suffice (h : info.Suits part) (hmany : 40 ≤ info.clusters) :
    (v.boot part info).clustersFor (v.boot part info).bitmapLength +
      (v.boot part info).clustersFor v.table.length + 1 ≤ (v.boot part info).dataRegionLength := by
  have htable : v.table.length ≤ 131072 := length_genUpcaseCompressed v.upcase
  have hcluster := cluster_boot (v := v) h
  have hlength : (v.boot part info).dataRegionLength = info.clusters.toNat := rfl
  rw [ExfatBoot.clustersFor, ExfatBoot.clustersFor, ExfatBoot.bitmapLength, hlength]
  generalize (v.boot part info).cluster = cluster at hcluster
  have hsizes : cluster = 4096 ∨ cluster = 32768 ∨ cluster = 131072 := by
    obtain ⟨hsize | hsize | hsize, -⟩ := h.recommended
    all_goals omega
  obtain rfl | rfl | rfl := hsizes
  all_goals omega

/-! ### The formatter -/

theorem length_links {l : List ℕ} {links : List Bytes} (h : l.mapM packI = .ok links) :
    links.flatten.length = l.length * 4 := by
  induction l generalizing links with
  | nil =>
    obtain rfl := Except.ok.inj h
    rfl
  | cons n l ih =>
    rw [List.mapM_cons] at h
    rcases hn : packI n with e | link
    · rw [hn] at h
      cases h
    rcases hl : l.mapM packI with e | rest
    · rw [hn, hl] at h
      cases h
    · rw [hn, hl] at h
      obtain rfl := Except.ok.inj h
      rw [List.flatten_cons, List.length_append, ih hl, length_packI hn, List.length_cons]
      omega

/-- The entries of a run, four bytes each, lie in the FAT. -/
theorem careful_markRun {boot : ExfatBoot} {start count : ℕ} (hend : part.offset + part.size < size)
    (hin : boot.fatoffs + (start + count) * 4 ≤ part.size) :
    CarefulOn size (markRun part boot start count) := by
  rw [markRun]
  split
  · exact .return ()
  · rename_i hvalid
    have hlays : Lays (count * 4) (do
        let links ← Prog.lift ((List.range' (start + 1) (count - 1)).mapM packI)
        let last ← Prog.lift (packI 0xFFFFFFFF)
        raw (.write (links.flatten ++ last))) := by
      refine .lift_bind fun links hlinks => .lift_bind fun last hlast => ?_
      have hlength : (links.flatten ++ last).length = count * 4 := by
        rw [List.length_append, length_links hlinks, length_packI hlast, List.length_range']
        omega
      exact hlength ▸ .write (links.flatten ++ last)
    rw [DiskPartition.seek_eq (by omega)]
    exact .lay hlays (by omega) (by omega)

/-- What `exfat_mkfs` works with, on a disk that ends behind the partition. -/
structure Roomy (info : FsInfo) (part : DiskPartition) (size : ℕ) : Prop where
  suits : info.Suits part
  many : 40 ≤ info.clusters
  offset : part.offset = 1048576
  aligned : 512 ∣ part.size
  inside : part.offset + part.size < size

/-- Reading back what begins with a sector of the disk leaves the stream in its place. -/
theorem careful_copyBootRegion (hoffset : part.offset = 1048576) (hsize : 12288 ≤ part.size)
    (hend : part.offset + part.size < size) :
    CarefulOn size (do
      part.seek 0
      let vbr ← raw (.read (512 * 11 : ℕ))
      let checksum ← lift (packI (getChecksum vbr false))
      let checksums := (List.replicate 128 checksum).flatten
      raw (.write checksums)
      raw (.write vbr)
      raw (.write checksums)) := by
  intro s aimed hs
  rw [DiskPartition.seek_eq (Nat.zero_le _), hoffset, Nat.zero_add]
  refine wp_bind.2 (wp_carefulSeek (by omega) ?_)
  generalize hs₁ : ({ s with pos := 1048576 } : DiskImage) = s₁
  have hpos₁ : s₁.pos = 1048576 := by rw [← hs₁]
  have hsize₁ : s₁.size = size := by rw [← hs, ← hs₁]
  have hcount : s₁.count (512 * 11 : ℕ) = 5632 := by
    rw [DiskImage.count, if_neg (by omega), hpos₁, hsize₁, Int.toNat_natCast]
    omega
  have hlength : (s₁.read (512 * 11 : ℕ)).1.length = 5632 := by
    rw [← hcount]
    exact s₁.length_bytes _ _
  have hread : OrderlyCall s₁ true (.read (512 * 11 : ℕ)) := by
    show 0 < s₁.count _
    rw [hcount]
    decide
  refine wp_bind.2 (wp_careful hread (Int.natCast_nonneg _) rfl ?_)
  have haims : aims s₁ true (.read (512 * 11 : ℕ)) = true := by
    rw [aims, hcount, hpos₁]
    decide
  rw [haims]
  have hlays : ∀ vbr : Bytes, vbr.length = 5632 → Lays (512 + (5632 + 512)) (do
      let checksum ← lift (packI (getChecksum vbr false))
      let checksums := (List.replicate 128 checksum).flatten
      raw (.write checksums)
      raw (.write vbr)
      raw (.write checksums)) := by
    intro vbr hvbr
    refine .lift_bind fun checksum hchecksum => ?_
    have hchecksums : (List.replicate 128 checksum).flatten.length = 512 := by
      rw [List.length_flatten, List.map_replicate, List.sum_replicate, length_packI hchecksum]
      rfl
    have hwrites := (Lays.write (List.replicate 128 checksum).flatten).bind fun _ =>
      (Lays.write vbr).bind fun _ => Lays.write (List.replicate 128 checksum).flatten
    rwa [hchecksums, hvbr] at hwrites
  have hpos₂ : (s₁.read (512 * 11 : ℕ)).2.pos = 1048576 + 5632 := by
    rw [← hpos₁, ← hlength]
    rfl
  have hsize₂ : (s₁.read (512 * 11 : ℕ)).2.size = size := hsize₁
  refine wp_mono (hlays _ hlength _ (by rw [hpos₂, hsize₂]; omega)) ?_ fun _ _ h => h
  rintro _ g ⟨hsize', -⟩
  exact hsize'.trans hsize₂

theorem careful_writeBootRegion {boot : ExfatBoot} (hpacks : boot.Packs)
    (hoffset : part.offset = 1048576) (hsize : 12288 ≤ part.size)
    (hend : part.offset + part.size < size) : CarefulOn size (writeBootRegion part boot) := by
  have hlength := boot.length_parts
  have hfirst := (Lays.write boot.parts.flatten).bind fun _ =>
    (lays_writeEmptySectors 8).bind fun _ =>
      (Lays.write (zeros 512)).bind fun _ => Lays.write (zeros 512)
  rw [hlength, length_zeros] at hfirst
  have hrun := (CarefulOn.lay hfirst (by omega : 0 + part.offset < size) (by omega)).bind fun _ =>
    careful_copyBootRegion hoffset hsize hend
  simp only [Prog.bind_assoc] at hrun
  rw [writeBootRegion, ExfatBoot.pack_eq_ok hpacks, DiskPartition.seek_eq (Nat.zero_le _)]
  exact hrun

section Clusters

variable {boot : ExfatBoot}

theorem length_le_clustersFor (boot : ExfatBoot) (length : ℕ) :
    length ≤ boot.clustersFor length * boot.cluster := by
  have hpos := one_le_cluster boot
  have hdiv := Nat.lt_div_mul_add (a := length + boot.cluster - 1) hpos
  rw [ExfatBoot.clustersFor]
  omega

/-- Clusters that exist lie in the partition. -/
theorem ExfatBoot.Describes.cl2offset_le (h : boot.Describes part) {k : ℕ}
    (hin : m + k ≤ boot.dataRegionLength) :
    boot.cl2offset (2 + m) + k * boot.cluster ≤ part.size := by
  have hsector : 2 ^ boot.bytesPerSector = 512 := by
    rw [h.sector]
    rfl
  rw [ExfatBoot.cl2offset, hsector, Nat.add_sub_cancel_left, Nat.add_assoc, ← Nat.add_mul]
  exact (Nat.add_le_add_left (Nat.mul_le_mul_right _ hin) _).trans h.clusters

/-- The entry of a cluster that exists lies in the FAT. -/
theorem ExfatBoot.Describes.fatoffs_le (h : boot.Describes part) (hin : m ≤ boot.dataRegionLength) :
    boot.fatoffs + (2 + m) * 4 ≤ part.size := by
  have hsector : 2 ^ boot.bytesPerSector = 512 := by
    rw [h.sector]
    rfl
  rw [ExfatBoot.fatoffs, hsector]
  calc boot.fatOffset * 512 + (2 + m) * 4
      ≤ boot.fatOffset * 512 + boot.fatLength * 512 := by
        refine Nat.add_le_add_left (le_trans ?_ h.entries) _
        omega
    _ = (boot.fatOffset + boot.fatLength) * 512 := (Nat.add_mul ..).symm
    _ ≤ boot.dataRegionOffset * 512 := Nat.mul_le_mul_right _ h.fat
    _ ≤ part.size := (Nat.le_add_right ..).trans h.clusters

end Clusters

theorem careful_writeBitmapAndTable (h : Roomy info part size) :
    CarefulOn size (writeBitmapAndTable v part (v.boot part info)) := by
  have hboot := describes_boot (v := v) h.suits (by rw [h.offset]; decide) h.aligned
  have hroom := clusters_suffice (v := v) h.suits h.many
  have hend := h.inside
  rw [writeBitmapAndTable]
  generalize v.boot part info = boot at *
  have htable := length_le_clustersFor boot v.table.length
  have hbitmapIn : boot.cl2offset 2 + _ ≤ part.size := hboot.cl2offset_le
    (by omega : 0 + boot.clustersFor boot.bitmapLength ≤ boot.dataRegionLength)
  have htableIn := hboot.cl2offset_le (by omega : boot.clustersFor boot.bitmapLength +
    boot.clustersFor v.table.length ≤ boot.dataRegionLength)
  rw [Nat.mul_comm] at hbitmapIn
  rw [DiskPartition.seek_eq (by omega), DiskPartition.seek_eq (by omega)]
  refine .layAt (lays_writeBlank _ _) (by omega) (by omega) fun _ => ?_
  exact .lay (.write v.table) (by omega) (by omega)

/-- The root directory comes behind the bitmap and the table. -/
theorem rootCluster_boot (v : VolumeCode) (part : DiskPartition) (info : FsInfo) :
    (v.boot part info).rootCluster = 2 + ((v.boot part info).clustersFor
      (v.boot part info).bitmapLength + (v.boot part info).clustersFor v.table.length) := by
  simp only [VolumeCode.boot, ExfatBoot.clustersFor, ExfatBoot.cluster, ExfatBoot.bitmapLength]
  omega

theorem careful_writeRootAndChains (h : Roomy info part size) :
    CarefulOn size (writeRootAndChains v part (v.boot part info)) := by
  have hboot := describes_boot (v := v) h.suits (by rw [h.offset]; decide) h.aligned
  have hroom := clusters_suffice (v := v) h.suits h.many
  have hend := h.inside
  have hcluster := rootCluster_boot v part info
  rw [writeRootAndChains]
  generalize v.boot part info = boot at *
  have hrootIn := hboot.cl2offset_le (k := 1) hroom
  have hfatIn := hboot.fatoffs_le hroom
  rw [← hcluster, ← ExfatBoot.root, Nat.one_mul] at hrootIn
  rw [DiskPartition.seek_eq (by omega)]
  refine .writeAt (by omega) (by rw [length_zeros]; omega) ?_
  refine (careful_markRun hend (by omega)).bind fun _ => ?_
  exact (careful_markRun hend (by omega)).bind fun _ => careful_markRun hend (by omega)

theorem careful_prepareVolume (h : Roomy info part size) (hmax : part.size ≤ 2199023255040) :
    CarefulOn size (prepareVolume v part info) := by
  have hend := h.inside
  have hin := h.suits.inside
  have hmin := h.suits.recommended.2
  have hfat : fatOffset info 512 = 65536 := by
    rw [fatOffset, h.suits.reserved]
    rfl
  have hclusters : 0 ≤ info.clusterSize * info.clusters := by
    have hpos := h.suits.pos
    obtain ⟨hsize | hsize | hsize, -⟩ := h.suits.recommended
    all_goals
      rw [hsize]
      omega
  have hclus02 : clus02.length = 8 := rfl
  rw [prepareVolume, hfat, DiskPartition.seek_eq (by omega)]
  refine .layAt (lays_blankFat _) (by omega) (by omega) fun _ => ?_
  refine .writeAt (by omega) (by omega) ?_
  refine (careful_writeBitmapAndTable h).bind fun _ => ?_
  exact (careful_writeBootRegion (packs_boot h.suits h.offset h.aligned hmax) h.offset (by omega)
    hend).bind fun _ => careful_writeRootAndChains h

/-- On a prepared volume the code that is not embedded is careful too: first for the bitmap and the
root directory, then, after a flush, for the directories. -/
def VolumeCode.WritesCarefully (v : VolumeCode) : Prop :=
  ∀ (part : DiskPartition) (info : FsInfo) (s : DiskImage) (aimed : Bool),
    info.Suits part → part.offset + part.size < s.size → Prepared v part info s →
      wp carefulContract (v.bitmapAndRoot part (v.boot part info) v.table)
        (fun _ g => Careful (v.directories part) (g.1, false)) (fun _ _ => True) (s, aimed)

/-- A partition that `partition` makes. -/
structure PartitionIn (entry : MbrPartition) (size : ℕ) : Prop where
  inDisk : entry.InDisk size
  large : 49265152 ≤ entry.totalSectors * 512

theorem careful_tableWrites {table : Bytes} {first : ℕ} (hmin : 67108864 ≤ size)
    (hlength : table.length = 512) (hfirst : first + 512 ≤ size) :
    CarefulOn size (do
      raw (.seek (0 : ℕ) 0)
      raw (.write (zeros 32768))
      raw (.seek (0 : ℕ) 0)
      raw (.write table)
      raw (.seek first 0)
      raw (.write (zeros 512))
      raw (.seek (size - 512 : ℕ) 0)
      raw (.write (zeros 512))
      raw .flush) := by
  refine .writeAt (by omega) (by rw [length_zeros]; omega) ?_
  refine .writeAt (by omega) (by omega) ?_
  refine .writeAt (by omega) (by rw [length_zeros]; omega) ?_
  exact .writeAt (by omega) (by rw [length_zeros]; omega) .flush

theorem careful_partitionMbr {type : DiskType} (htype : type.Suits size) (hmin : 67108864 ≤ size)
    (hmax : size ≤ 2199023255040) (hsize : 512 ∣ size) (hs : s.size = size) :
    wp carefulContract (partitionMbr type size)
      (fun entry g => PartitionIn entry size ∧ g.1.size = size) (fun _ _ => True) (s, aimed) := by
  obtain ⟨entry, table, -, hlength, hstatus, hkind, hfirstChs, hlastChs, hfirst, htotal, hleTotal,
    heq⟩ := partitionMbr_eq htype hmin hmax
  have hmib : mib = 1048576 := rfl
  have hroom : roomFor size = size - mib - 33 * 512 := rfl
  have hpart : PartitionIn entry size :=
    ⟨⟨hstatus, hkind, hfirstChs, hlastChs, hfirst, by omega, by omega, by omega⟩, hleTotal⟩
  have hfirstIn : entry.firstSectorLba * 512 + 512 ≤ size := by
    rw [hfirst]
    exact le_trans (by decide) hmin
  have hwrites := careful_tableWrites hmin hlength hfirstIn
  have hreturn : wp carefulContract (_ >>= fun _ => (return entry : RawProgram MbrPartition))
      (fun entry g => PartitionIn entry size ∧ g.1.size = size) (fun _ _ => True) (s, aimed) :=
    wp_seq (hwrites s aimed hs) (fun _ g hg => ⟨hpart, hg⟩) fun _ _ h => h
  rw [heq]
  simp only [Prog.bind_assoc] at hreturn
  exact hreturn

theorem careful_exfatMkfs (hv : v.WritesCarefully) (hcluster : Recommended part.size m)
    (hoffset : part.offset = 1048576) (haligned : 512 ∣ part.size)
    (hmax : part.size ≤ 2199023255040) (hend : part.offset + part.size < size)
    (hs : s.size = size) :
    wp carefulContract (exfatMkfs (formatterTail v) part part.size 512 m)
      (fun _ g => Careful (v.directories part) (g.1, false)) (fun _ _ => True) (s, aimed) := by
  obtain ⟨info, hfind, hclusterSize, hsuits⟩ := exists_suits hcluster hmax
  have hfound : (allowed part.size 512).find? (·.clusterSize = (m : ℤ)) =
    fsInfo? part.size 512 m := by
    obtain ⟨info', hfind', hinfo', -⟩ := find_allowed hcluster (by exact_mod_cast hmax)
    exact hfind'.trans hinfo'.symm
  have hmany : 40 ≤ info.clusters := by
    rw [(fsInfo?_eq_some (hfound.symm.trans hfind)).2.1]
    exact le_roundClusters hcluster (by exact_mod_cast hmax)
  have hsome : (allowed part.size 512).isEmpty = false := by
    rw [List.isEmpty_eq_false_iff_exists_mem]
    exact ⟨info, List.mem_of_find?_eq_some hfind⟩
  have hprepare := wp_runCareful
    (careful_prepareVolume (v := v) ⟨hsuits, hmany, hoffset, haligned, hend⟩ hmax s aimed hs)
  have hrun : wp carefulContract (prepareVolume v part info >>= fun _ =>
      v.bitmapAndRoot part (v.boot part info) v.table >>= fun _ => (return 0 : RawProgram ℤ))
      (fun _ g => Careful (v.directories part) (g.1, false)) (fun _ _ => True) (s, aimed) := by
    refine wp_seq hprepare ?_ fun _ _ h => h
    rintro _ g ⟨hsize, hresult, hworld⟩
    have hprepared : Prepared v part info g.1 := ⟨by omega, s, hresult, hworld⟩
    exact wp_seq (hv part info g.1 g.2 hsuits (by omega) hprepared) (fun _ _ h => h) fun _ _ h => h
  rw [exfatMkfs, if_neg (by decide), if_neg (by simpa using hsome)]
  simp only [Nat.cast_ofNat, hfind]
  simp only [prepareVolume, Prog.bind_assoc] at hrun
  exact hrun

/-- The formatter stays on the disk, aims before it writes, and never reads nothing. -/
theorem careful_formatStream {type : DiskType} (hv : v.WritesCarefully) (htype : type.Suits size)
    (hmin : 67108864 ≤ size) (hmax : size ≤ 2199023255040) (hsize : 512 ∣ size)
    (hs : s.size = size) : Careful (formatStream (formatterTail v) type size) (s, aimed) := by
  have hmib : mib = 1048576 := rfl
  rw [Careful, formatStream, if_neg (by omega), if_neg (by omega)]
  refine wp_seq (careful_partitionMbr htype hmin hmax hsize hs) ?_ fun _ _ h => h
  rintro entry ⟨s₁, _⟩ ⟨⟨hdisk, hle⟩, hs₁⟩
  dsimp only at hs₁
  have hoffset : entry.firstSectorLba * 512 = 1048576 := by rw [hdisk.first]
  have hinside := hdisk.inside
  have hfirst := hdisk.first
  have hpos := hdisk.pos
  have hend : entry.firstSectorLba * 512 + entry.totalSectors * 512 < size := by omega
  refine wp_bind.2 (wp_carefulSeek (by show 0 < s₁.size; omega) ?_)
  rw [DiskPartition.new, if_neg (by omega), DiskPartition.seek_eq (Nat.zero_le _)]
  simp only [Prog.bind_assoc]
  refine wp_bind.2 (wp_carefulSeek (by show 0 + _ < s₁.size; omega) ?_)
  simp only [Prog.return_bind]
  refine wp_seq (careful_exfatMkfs hv (recommended _ hle) hoffset
    (Nat.dvd_mul_left 512 _) (by show entry.totalSectors * 512 ≤ _; omega) hend hs₁) ?_
      fun _ _ h => h
  rintro status ⟨s₂, aimed₂⟩ hdirectories
  split
  · trivial
  · refine wp_bind.2 (wp_careful trivial trivial rfl ?_)
    exact wp_seq hdirectories (fun _ _ _ => trivial) fun _ _ _ => trivial

/-! ### The file that is left -/

theorem DiskImage.bytes_congr {s s' : DiskImage} (hsize : s.size = s'.size)
    (h : ∀ i < s.size, s.content i = s'.content i) (offset count : ℕ) :
    s.bytes offset count = s'.bytes offset count := by
  rw [DiskImage.bytes, DiskImage.bytes, hsize]
  refine List.map_congr_left fun i hi => h _ ?_
  have := List.mem_range.1 hi
  omega

/-- The check looks at nothing but the bytes of the disk. -/
theorem independentlyCheck_congr {s s' : DiskImage}
    (h : ∀ offset count, s.bytes offset count = s'.bytes offset count) (expected : FormatResult) :
    independentlyCheckBootRegions s expected = independentlyCheckBootRegions s' expected := by
  rw [independentlyCheckBootRegions, independentlyCheckBootRegions, h, h]

theorem BootRegions.congr {s s' : DiskImage} {entry : MbrPartition} {boot : ExfatBoot}
    (hs : BootRegions size entry boot s)
    (h : ∀ offset count, s.bytes offset count = s'.bytes offset count) :
    BootRegions size entry boot s' :=
  ⟨⟨h _ _ ▸ hs.carries.table, h _ _ ▸ hs.carries.sector⟩, hs.inDisk, hs.describes, hs.packs,
    hs.cluster⟩

/-- A disk with the bytes that the formatter leaves carries its boot regions, and is accepted if the
formatter has returned. -/
theorem accepted_of_bytes {v : VolumeCode} (disk : ℕ → UInt8) {content : ℕ → UInt8}
    {type : DiskType} {size : ℕ} (hv : v.StaysInVolume) (htype : type.Suits size)
    (hmin : 67108864 ≤ size) (hmax : size ≤ 2199023255040) (hsize : 512 ∣ size)
    (hdisk : ∀ i < size, disk i =
      (runImage (formatStream (formatterTail v) type size) (.new size content)).world.content i) :
    (∃ entry boot, BootRegions size entry boot (.new size disk)) ∧
      ∀ result,
        (runImage (formatStream (formatterTail v) type size) (.new size content)).result =
            .ok result →
          independentlyCheckBootRegions (.new size disk) result = .ok () := by
  have hrun := run_of_wp imageContract_admits (n := 0)
    (wp_formatStream_image (s := .new size content) hv htype hmin hmax hsize rfl)
  have hplain : (runImage (formatStream (formatterTail v) type size)
      (.new size content)).world.size = size := size_runImage _ (.new size content) 0
  have hbytes : ∀ offset count, (runImage (formatStream (formatterTail v) type size)
      (.new size content)).world.bytes offset count =
        (DiskImage.new size disk).bytes offset count :=
    DiskImage.bytes_congr hplain fun i hi => (hdisk i (hplain ▸ hi)).symm
  constructor
  · rcases hresult : (runImage (formatStream (formatterTail v) type size)
      (.new size content)).result with e | result
    · obtain ⟨entry, boot, hregions⟩ := hrun.2 e hresult
      exact ⟨entry, boot, hregions.congr hbytes⟩
    · obtain ⟨entry, boot, hregions, -⟩ := hrun.1 result hresult
      exact ⟨entry, boot, hregions.congr hbytes⟩
  · intro result hresult
    obtain ⟨entry, boot, hregions, rfl⟩ := hrun.1 result hresult
    rw [← independentlyCheck_congr hbytes]
    exact independentlyCheck_of_carries hregions.inDisk hregions.describes hregions.packs
      hregions.carries

/-- **The file of a formatted disk is accepted.**  The formatter runs over the sector cache of an
image file of any size that it supports, whatever the file held and however small the cache is.
When the disk is closed, the file has its size, and carries the boot regions of a disk of that size;
and if the formatter has returned, the check accepts the file. -/
theorem imageFile_accepted (v : VolumeCode) (hv : v.StaysInVolume) (hw : v.WritesCarefully)
    (content : ℕ → UInt8) (size capacity : ℕ) (hsize : 512 ∣ size) (hmin : 64 * mib ≤ size)
    (hmax : size ≤ 0xFFFFFFFF * 512) (hcapacity : 512 ∣ capacity) (hroom : 512 ≤ capacity) :
    let out := runCached (initializeStream (formatterTail v) size) (.new size content capacity)
    let file := out.world.flush.file
    file.size = size ∧ (∃ entry boot, BootRegions size entry boot (.new file.size file.content)) ∧
      ∀ result, out.result = .ok result →
        independentlyCheckBootRegions (.new file.size file.content) result = .ok () := by
  intro out file
  have hmib : mib = 1048576 := rfl
  have hcareful : Careful (initializeStream (formatterTail v) size) (.new size content, true) :=
    careful_formatStream hw (DiskType.suits_disk (by omega)) (by omega) (by omega) hsize rfl
  obtain ⟨hresult, hshows⟩ := run_orderly hcareful.orderly
    (CachedDisk.shows_new content hsize hcapacity hroom) (fun _ => CachedDisk.inPlace_new _ _ _) 0
  have hkept : (runImage (initializeStream (formatterTail v) size) (.new size content)).world.size =
      size := size_runImage _ (.new size content) 0
  obtain ⟨hflushed, hcontent⟩ := hshows.flushed
  have hfile : file.size = size := hflushed.trans hkept
  obtain ⟨hregions, haccepted⟩ := accepted_of_bytes file.content hv
    (DiskType.suits_disk (by omega)) (by omega) (by omega) hsize
    fun i hi => hcontent i (hkept.symm ▸ hi)
  rw [hfile]
  exact ⟨rfl, hregions, fun result h => haccepted result (hresult.symm.trans h)⟩

/-! ### The sample volume -/

theorem length_sampleBitmap (last : ℕ) : (sampleBitmap last).length = (last + 6) / 8 :=
  length_bytes _ _

theorem length_directorySlots (name : Bytes) (cluster : ℕ) (h : name.length ≤ 15) :
    (directorySlots name cluster).length = 96 := by
  have hutf16 : (name.flatMap fun c => [c, 0]).length = 2 * name.length := by
    simp [List.length_flatMap, Nat.mul_comm]
  simp [directorySlots, hutf16]
  omega

theorem careful_sampleDirectories (hlarge : 49265152 ≤ part.size)
    (hend : part.offset + part.size < size) (names : List String) (k : ℕ)
    (hk : k + names.length ≤ 9)
    (hnames : ∀ name ∈ names, name.toList.length ≤ 15) :
    CarefulOn size (sampleDirectories part k names) := by
  induction names generalizing k with
  | nil => exact .return ()
  | cons name names ih =>
    rw [List.length_cons] at hk
    have hname := hnames name List.mem_cons_self
    have hslots := length_directorySlots (name.toList.map fun c => UInt8.ofNat c.toNat) (36 + k)
      (by rwa [List.length_map])
    have hbitmap := length_sampleBitmap (36 + k)
    rw [sampleDirectories, DiskPartition.seek_eq (by omega), DiskPartition.seek_eq (by omega),
      DiskPartition.seek_eq (by omega)]
    refine .writeAt (by omega) (by omega) ?_
    refine .writeAt (by omega) (by omega) ?_
    refine .writeAt (by omega) (by rw [length_zeros]; omega) ?_
    exact ih (k + 1) (by omega) fun other hother => hnames other (List.mem_cons_of_mem _ hother)

/-- Behind the FAT there is room for more than the sample volume writes. -/
theorem sample_room (h : info.Suits part) (v : VolumeCode) :
    512 * (v.boot part info).dataRegionOffset + (info.clusters.toNat + 7) / 8 + 524288 ≤
      part.size := by
  have hinside := h.inside
  have hfat := h.fat
  have hpos := h.pos
  have hlarge := h.recommended.2
  have hdata : (v.boot part info).dataRegionOffset =
      (info.reservedSize / 512).toNat + (info.fatSize / 512).toNat := rfl
  have hclusters : 4096 * info.clusters ≤ info.clusterSize * info.clusters :=
    mul_le_mul_of_nonneg_right (by obtain ⟨hsize | hsize | hsize, -⟩ := h.recommended <;> omega)
      (by omega)
  generalize info.clusterSize * info.clusters = data at hinside hclusters
  rw [fatSize] at hfat
  rw [hdata, h.reserved]
  omega

theorem clustersFor_mul_le (boot : ExfatBoot) (length : ℕ) :
    boot.clustersFor length * boot.cluster ≤ length + boot.cluster := by
  have hdiv := Nat.div_mul_le_self (length + boot.cluster - 1) boot.cluster
  rw [ExfatBoot.clustersFor]
  omega

theorem writesCarefully_sampleVolume : sampleVolume.WritesCarefully := by
  intro part info s aimed hsuits hend hprepared
  have hlarge : 49265152 ≤ part.size := by exact_mod_cast hsuits.recommended.2
  have hroom := sample_room hsuits sampleVolume
  have hrootCluster := rootCluster_boot sampleVolume part info
  have htable : sampleVolume.table.length ≤ 131072 := length_genUpcaseCompressed _
  have hcluster := cluster_boot (v := sampleVolume) hsuits
  have hlength : (sampleVolume.boot part info).bitmapLength = (info.clusters.toNat + 7) / 8 := rfl
  have hdirectories : ∀ g : DiskImage × Bool, g.1.size = s.size →
      Careful (sampleVolume.directories part) (g.1, false) := by
    intro g hg
    refine wp_mono (careful_sampleDirectories hlarge hend _ 0 (by decide) ?_ g.1 false hg)
      (fun _ _ _ => trivial) fun _ _ _ => trivial
    decide
  have hroot : ∀ c, (sampleVolume.boot part info).cl2offset c =
      512 * (sampleVolume.boot part info).dataRegionOffset +
        (c - 2) * (sampleVolume.boot part info).cluster := by
    intro c
    rw [Nat.mul_comm 512]
    rfl
  have hcareful : CarefulOn s.size
      (sampleVolume.bitmapAndRoot part (sampleVolume.boot part info) sampleVolume.table) := by
    show CarefulOn s.size (part.seek _ >>= fun _ => raw (.write _) >>= fun _ =>
      part.seek _ >>= fun _ =>
      raw (.write _) >>= fun _ => raw (.write _))
    rw [ExfatBoot.root, hroot, hroot]
    have hbitmap := clustersFor_mul_le (sampleVolume.boot part info) ((info.clusters.toNat + 7) / 8)
    have hupcase := clustersFor_mul_le (sampleVolume.boot part info) sampleVolume.table.length
    have hbitmap' := clustersFor_le (one_le_cluster (sampleVolume.boot part info))
      ((info.clusters.toNat + 7) / 8)
    have hupcase' := clustersFor_le (one_le_cluster (sampleVolume.boot part info))
      sampleVolume.table.length
    have hsizes : (sampleVolume.boot part info).cluster ≤ 131072 := by
      obtain ⟨hsize | hsize | hsize, -⟩ := hsuits.recommended <;> omega
    have hrootOffset : ((sampleVolume.boot part info).rootCluster - 2) *
        (sampleVolume.boot part info).cluster ≤ (info.clusters.toNat + 7) / 8 + 393216 := by
      rw [hrootCluster, Nat.add_sub_cancel_left, Nat.add_mul, hlength]
      omega
    rw [hlength] at hrootCluster
    generalize sampleVolume.boot part info = boot at *
    generalize sampleVolume.table = table at *
    rw [DiskPartition.seek_eq (by omega), DiskPartition.seek_eq (by omega)]
    have hslots := fun data data' => (Lays.write data).bind fun _ => Lays.write data'
    refine .writeAt (by omega) (by rw [length_sampleBitmap]; omega) ?_
    refine .lay (hslots _ _) (by omega) ?_
    simp only [List.length_append, List.length_cons, List.length_nil, length_zeros, length_bytes]
    omega
  exact wp_mono (hcareful s aimed rfl) (fun _ g hg => hdirectories g hg) fun _ _ h => h

theorem imageFile_accepted_sample :
    let out := runCached (initializeStream (formatterTail sampleVolume) 67108864)
      (.new 67108864 (fun _ => 0) 1048576)
    let file := out.world.flush.file
    file.size = 67108864 ∧
      (∃ entry boot, BootRegions 67108864 entry boot (.new file.size file.content)) ∧
      ∀ result, out.result = .ok result →
        independentlyCheckBootRegions (.new file.size file.content) result = .ok () :=
  imageFile_accepted sampleVolume staysInVolume_sampleVolume writesCarefully_sampleVolume
    (fun _ => 0) 67108864 1048576 (by norm_num) (by norm_num [mib]) (by norm_num) (by norm_num)
    (by norm_num)

end Ps2Ripper
