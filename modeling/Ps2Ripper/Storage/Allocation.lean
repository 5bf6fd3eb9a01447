import Ps2Ripper.Storage.FatTable
import Ps2Ripper.Storage.FreeSpace

/-!
# The allocation of clusters

The class `Bitmap` of `FATtools/exFAT.py` and the class `Chain` of `FATtools/FAT.py`, as far as
clusters are taken and given back.

* `Bitmap.alloc`, `Bitmap.trunc`, `Bitmap.free1`, `Bitmap.free`: the operations on the bitmap, the
  runs of free clusters and the table;
* `Bitmap.Sound`: each cluster has one owner or is free, and the bits and the count say so;
* `ChainOk`: the table leads through a chain of several runs;
* `alloc_spec`, `trunc_spec`, `freeRuns_spec`, `free_spec`: how the operations keep the two.
-/

namespace Ps2Ripper

open Binary Runs
open scoped List

/-- What stops an operation: there are not enough clusters; an assertion; a byte or a run that is
not there; nothing was to be allocated; the table leads in a circle. -/
inductive AllocError where
  | exhausted (message : String)
  | assertion
  | outside
  | missing
  | unbound
  | endless
  deriving DecidableEq

/-- The bitmap of a volume, what is known of its free clusters, and its table. -/
structure Bitmap where
  regionLength : ℕ
  bits : Bytes
  freeClusters : ℤ
  freeClustersMap : Dict
  freeClustersFlag : Bool
  fat : Fat

namespace Bitmap

/-- `map_compact()`. -/
def mapCompact (b : Bitmap) : Bitmap :=
  if b.freeClustersFlag then
    { b with
      freeClustersMap := FreeSpace.compactRuns (b.freeClustersMap.length + 2) b.freeClustersMap
      freeClustersFlag := false }
  else b

/-- `set(cluster, length, clear)`: bit 0 is that of cluster 2. -/
def set (b : Bitmap) (cluster length : ℕ) (clear : Bool) : Except AllocError Bitmap :=
  if cluster ≤ 1 then .error .assertion
  else
    match lsbFirst.setRun clear b.bits (cluster - 2) length with
    | some bits => .ok { b with bits }
    | none => .error .outside

/-- `findfree(count)`: the run that was found last, or a part of it. -/
def findfree (b : Bitmap) (count : ℕ) : Option ((ℕ × ℕ) × Bitmap) :=
  match b.freeClustersMap.getLast? with
  | none => none
  | some (i, n) =>
    let map := b.freeClustersMap.dropLast
    some ((i, min n count),
      { b with
        freeClustersMap := if count < n then put (i + count) (n - count) map else map
        freeClusters := b.freeClusters - min n count })

/-- The entries of a new run, and that which leads to it from the run before. -/
def linkRun (fat : Fat) (lastRun : Option (ℕ × ℕ)) (runs : Dict) (i n : ℕ) : Fat :=
  if 1 < runs.length then
    let fat := fat.markRun i n
    let lastRun := lastRun.getD (runs.headD (0, 0))
    let fat := if runs.length = 2 then fat.markRun lastRun.1 lastRun.2 else fat
    fat.set (lastRun.1 + lastRun.2 - 1) i
  else fat

/-- The runs of a chain with a new run, which may continue the last one. -/
def addRun (runs : Dict) (i n : ℕ) : Dict :=
  match runs.getLast? with
  | some r => if i = r.1 + r.2 then put r.1 (n + r.2) runs else put i n runs
  | none => put i n runs

/-- One round of `alloc`: a run of free clusters is added to the chain. -/
def allocRound (b : Bitmap) (runs : Dict) (count : ℕ) :
    Except AllocError ((ℕ × ℕ) × Bitmap × Dict) :=
  match b.findfree count with
  | none => .error .assertion
  | some ((i, n), b) => do
    let runs' := addRun runs i n
    let b ← b.set i n false
    return ((i, n), { b with fat := linkRun b.fat runs.getLast? runs' i n }, runs')

/-- The rounds of `alloc`; `last` is the last cluster so far. -/
def allocLoop : ℕ → Bitmap → Dict → ℕ → Option ℕ → Except AllocError (ℕ × Bitmap × Dict)
  | 0, _, _, _ + 1, _ => .error .endless
  | _, b, runs, 0, last =>
    match last with
    | none => .error .unbound
    | some last =>
      .ok (last, { b with fat := if 1 < runs.length then b.fat.set last Fat.last else b.fat }, runs)
  | rounds + 1, b, runs, count + 1, _ =>
    match allocRound b runs (count + 1) with
    | .error e => .error e
    | .ok ((i, n), b, runs) => allocLoop rounds b runs (count + 1 - n) (some (i + n - 1))

/-- `alloc(runs_map, count)`: the last cluster of the chain, and the bitmap and the runs that
result. Each round takes a run, so there are no more rounds than clusters and runs. -/
def alloc (b : Bitmap) (runs : Dict) (count : ℕ) : Except AllocError (ℕ × Bitmap × Dict) :=
  let b := b.mapCompact
  let left := b.freeClusters
  if left < count then
    .error (.exhausted
      s!"FATAL! Free clusters exhausted, couldn't allocate {count}, only {left} left!")
  else allocLoop (count + b.freeClustersMap.length) b runs count none

/-- `free1(start, length)`. -/
def free1 (b : Bitmap) (start length : ℕ) : Except AllocError Bitmap :=
  { b with
    freeClustersFlag := true
    freeClusters := b.freeClusters + length
    freeClustersMap := put start length b.freeClustersMap }.set start length true

/-- `free(start)`: the clusters that the table leads through. -/
def free : ℕ → Bitmap → ℕ → Except AllocError Bitmap
  | 0, _, _ => .error .endless
  | rounds + 1, b, start => do
    let ((length, next), fat) := b.fat.countRun start 1
    let b ← { b with fat }.free1 start length
    if next = Fat.last then return b else free rounds b next

/-- `free(start, runs)`: the runs are known. -/
def freeRuns (b : Bitmap) (runs : Dict) : Except AllocError Bitmap :=
  runs.foldlM (fun b r => b.free1 r.1 r.2) b

/-- The rounds of `trunc`: runs are given back from the last one on, until `n` clusters are. -/
def truncLoop : ℕ → Bitmap → Dict → ℕ → Except AllocError (Bitmap × Dict)
  | _, b, runs, 0 => .ok (b, runs)
  | 0, _, _, _ + 1 => .error .endless
  | rounds + 1, b, runs, n + 1 =>
    match runs.getLast? with
    | none => .error .missing
    | some (start, length) =>
      let runs := runs.dropLast
      if length ≤ n + 1 then
        match b.free1 start length with
        | .error e => .error e
        | .ok b =>
          let fat :=
            if n + 1 = length ∧ 1 < runs.length then
              let r := runs.getLastD (0, 0)
              b.fat.set (r.1 + r.2 - 1) Fat.last
            else b.fat
          truncLoop rounds { b with fat } runs (n + 1 - length)
      else
        match b.free1 (start + length - (n + 1)) (n + 1) with
        | .error e => .error e
        | .ok b =>
          let fat :=
            if runs.isEmpty then b.fat else b.fat.set (start + length - (n + 1) - 1) Fat.last
          .ok ({ b with fat }, put start (length - (n + 1)) runs)

/-- The clusters of a chain: its size by that of a cluster. -/
def clusters (runs : Dict) : ℕ := (runs.map Prod.snd).sum

/-- `trunc()` of the class `Chain`, at the cluster `x` of the chain, which is the last one that is
kept. -/
def trunc (b : Bitmap) (runs : Dict) (x : ℕ) : Except AllocError (Bitmap × Dict) :=
  truncLoop runs.length b runs (clusters runs - x - 1)

/-- The bitmap as it is opened. -/
def mount (regionLength : ℕ) (bits : Bytes) (fat : Fat) : Option Bitmap := do
  let (map, free) ← FreeSpace.mapFreeSpace bits regionLength
  return ⟨regionLength, bits, free, map, false, fat⟩

/-- The marks of `exfat_mkfs`, for the bitmap, the up-case table behind it and the root directory.
The runs of free clusters are left as they were. -/
def markSystem (b : Bitmap) (bitmapClusters upcaseClusters : ℕ) : Except AllocError Bitmap := do
  let b ← b.set 2 bitmapClusters false
  let b ← b.set (2 + bitmapClusters) upcaseClusters false
  b.set (2 + bitmapClusters + upcaseClusters) 1 false

/-! ### What holds of a bitmap -/

/-- The clusters that have an owner are those that are not free, and the bits, the runs and the
count say so. -/
structure Sound (b : Bitmap) (owned : List ℕ) : Prop where
  perm : (expand b.freeClustersMap ++ owned).Perm (List.range' 2 b.regionLength)
  pos : ∀ r ∈ b.freeClustersMap, 0 < r.2
  count : b.freeClusters = (expand b.freeClustersMap).length
  bits : ∀ k, lsbFirst.bit b.bits k = true ↔ k + 2 ∈ owned
  length : b.regionLength ≤ 8 * b.bits.length
  size : b.fat.size = b.regionLength
  representable : b.regionLength + 1 < Fat.reserved

variable {b b' : Bitmap} {owned owned' others : List ℕ} {runs : Dict} {start length count n i c : ℕ}

namespace Sound

theorem nodup (h : b.Sound owned) : (expand b.freeClustersMap ++ owned).Nodup :=
  h.perm.nodup_iff.2 List.nodup_range'

theorem proper (h : b.Sound owned) : Proper b.freeClustersMap :=
  ⟨h.pos, (List.nodup_append.1 h.nodup).1⟩

theorem owned_nodup (h : b.Sound owned) : owned.Nodup := (List.nodup_append.1 h.nodup).2.1

theorem not_free (h : b.Sound owned) (hc : c ∈ owned) : c ∉ expand b.freeClustersMap :=
  fun hfree => (List.nodup_append.1 h.nodup).2.2 c hfree c hc rfl

theorem realLast (h : b.Sound owned) : b.fat.realLast = b.regionLength + 1 := by
  rw [Fat.realLast, h.size]
  have := h.representable
  omega

theorem free_bounds (h : b.Sound owned) (hc : c ∈ expand b.freeClustersMap) :
    2 ≤ c ∧ c < 2 + b.regionLength :=
  List.mem_range'_1.1 (h.perm.mem_iff.1 (List.mem_append_left _ hc))

theorem owned_bounds (h : b.Sound owned) (hc : c ∈ owned) : 2 ≤ c ∧ c < 2 + b.regionLength :=
  List.mem_range'_1.1 (h.perm.mem_iff.1 (List.mem_append_right _ hc))

theorem of_perm (h : b.Sound owned) (hperm : owned.Perm owned') : b.Sound owned' :=
  { h with
    perm := (hperm.append_left _).symm.trans h.perm
    bits := fun k => (h.bits k).trans hperm.mem_iff }

theorem withFat (h : b.Sound owned) {fat : Fat} (hsize : fat.size = b.fat.size) :
    { b with fat }.Sound owned :=
  ⟨h.perm, h.pos, h.count, h.bits, h.length, hsize.trans h.size, h.representable⟩

theorem mapCompact (h : b.Sound owned) : b.mapCompact.Sound owned := by
  rw [Bitmap.mapCompact]
  split
  · obtain ⟨hproper, hperm, -⟩ := FreeSpace.compactRuns_spec h.proper
      (Nat.le_add_left 2 b.freeClustersMap.length)
    exact { h with
      perm := (hperm.append_right _).trans h.perm
      pos := hproper.pos
      count := h.count.trans (by rw [hperm.length_eq]) }
  · exact h

end Sound

theorem mapCompact_fat (b : Bitmap) : b.mapCompact.fat = b.fat := by
  rw [mapCompact]
  split <;> rfl

theorem mapCompact_freeClusters (b : Bitmap) : b.mapCompact.freeClusters = b.freeClusters := by
  rw [mapCompact]
  split <;> rfl

theorem mapCompact_regionLength (b : Bitmap) : b.mapCompact.regionLength = b.regionLength := by
  rw [mapCompact]
  split <;> rfl

/-- The bits of clusters of the volume can be set. -/
theorem set_spec (b : Bitmap) (clear : Bool) (hstart : 2 ≤ start)
    (hend : start + length ≤ 2 + 8 * b.bits.length) :
    ∃ bits, b.set start length clear = .ok { b with bits } ∧ bits.length = b.bits.length ∧
      ∀ k, lsbFirst.bit bits k =
        if start ≤ k + 2 ∧ k + 2 < start + length then !clear else lsbFirst.bit b.bits k := by
  obtain ⟨bits, hset, hlength, hbits⟩ := BitOrder.bit_setRun lsbFirst clear
    (by omega : start - 2 + length ≤ 8 * b.bits.length)
  refine ⟨bits, ?_, hlength, fun k => ?_⟩
  · rw [set, if_neg (by omega), hset]
  · rw [hbits]
    congr 1
    exact propext (by omega)

/-- The clusters of a run of a chain are those of the volume. -/
theorem Sound.run_bounds (h : b.Sound owned) (hpos : 0 < length)
    (hrun : ∀ c, start ≤ c → c < start + length → c ∈ owned) :
    2 ≤ start ∧ start + length ≤ 2 + b.regionLength := by
  have hfirst := h.owned_bounds (hrun start le_rfl (by omega))
  have hlast := h.owned_bounds (hrun (start + length - 1) (by omega) (by omega))
  omega

/-- **A run is given back.** -/
theorem free1_spec (h : b.Sound (List.range' start length ++ others)) (hpos : 0 < length) :
    ∃ b', b.free1 start length = .ok b' ∧ b'.Sound others ∧ b'.fat = b.fat ∧
      b'.regionLength = b.regionLength ∧ b'.freeClusters = b.freeClusters + length := by
  have hmem : ∀ c, start ≤ c → c < start + length → c ∈ List.range' start length ++ others :=
    fun c hc hc' => List.mem_append_left _ (List.mem_range'_1.2 ⟨hc, hc'⟩)
  obtain ⟨hstart, hend⟩ := h.run_bounds hpos hmem
  have hput : put start length b.freeClustersMap = b.freeClustersMap ++ [(start, length)] :=
    h.proper.put_fresh (h.not_free (hmem start le_rfl (by omega)))
  have hbound : start + length ≤ 2 + 8 * b.bits.length := by
    have := h.length
    omega
  obtain ⟨bits, hset, hlength, hbits⟩ := set_spec
    { b with
      freeClustersFlag := true
      freeClusters := b.freeClusters + length
      freeClustersMap := put start length b.freeClustersMap }
    true hstart hbound
  refine ⟨_, hset, ?_, rfl, rfl, rfl⟩
  rw [hput]
  exact
    { perm := by simpa using h.perm
      pos := fun r hr => by
        rcases List.mem_append.1 hr with hr | hr
        · exact h.pos r hr
        · rwa [List.mem_singleton.1 hr]
      count := by simp [h.count]
      bits := fun k => by
        have hk := h.bits k
        rw [List.mem_append, List.mem_range'_1] at hk
        have hother : start ≤ k + 2 ∧ k + 2 < start + length → k + 2 ∉ others := fun hin hout =>
          (List.nodup_append.1 h.owned_nodup).2.2 _ (List.mem_range'_1.2 hin) _ hout rfl
        rw [hbits]
        by_cases hin : start ≤ k + 2 ∧ k + 2 < start + length
        · simp [hin, hother hin]
        · rw [if_neg hin, hk]
          simp [hin]
      length := hlength.symm ▸ h.length
      size := h.size
      representable := h.representable }

/-- A run of free clusters, or a part of it, is no longer free. -/
theorem findfree_spec (h : b.Sound owned) (hcount : 0 < count)
    (hfree : (count : ℤ) ≤ b.freeClusters) :
    ∃ i n map, b.findfree count = some ((i, n),
        { b with freeClustersMap := map, freeClusters := b.freeClusters - n }) ∧
      0 < n ∧ n ≤ count ∧ Proper map ∧
      (expand b.freeClustersMap).Perm (List.range' i n ++ expand map) := by
  have hproper := h.proper
  have hsome : b.freeClustersMap ≠ [] := by
    intro hnil
    rw [h.count, hnil, expand_nil, List.length_nil] at hfree
    omega
  obtain ⟨map, ⟨i, l⟩, hmap⟩ : ∃ map r, b.freeClustersMap = map ++ [r] :=
    ⟨_, _, (List.dropLast_concat_getLast hsome).symm⟩
  rw [hmap] at hproper
  have hl : 0 < l := hproper.pos (i, l) (by simp)
  rw [findfree, hmap, List.getLast?_concat]
  simp only [List.dropLast_concat]
  by_cases hpart : count < l
  · have hback := hproper.back hpart
    have hput : put (i + count) (l - count) map = map ++ [(i + count, l - count)] :=
      put_of_fresh hback.before_fresh
    rw [if_pos hpart, Nat.min_eq_right hpart.le, hput]
    refine ⟨i, count, _, rfl, hcount, le_rfl, hback, ?_⟩
    rw [expand_append, expand_append, expand_cons, expand_cons, expand_nil, List.append_nil,
      List.append_nil]
    have hsplit : List.range' i l = List.range' i count ++ List.range' (i + count) (l - count) := by
      rw [List.range'_append_1, Nat.add_sub_cancel' hpart.le]
    rw [hsplit, ← List.append_assoc, ← List.append_assoc]
    exact List.perm_append_comm.append_right _
  · rw [if_neg hpart, Nat.min_eq_left (by omega)]
    refine ⟨i, l, _, rfl, hl, by omega, hproper.left, ?_⟩
    simpa using List.perm_append_comm

/-- **A run of free clusters gets an owner.** -/
theorem take_spec (h : b.Sound owned) (hcount : 0 < count) (hfree : (count : ℤ) ≤ b.freeClusters) :
    ∃ i n b₁ b', b.findfree count = some ((i, n), b₁) ∧ b₁.set i n false = .ok b' ∧ 0 < n ∧
      n ≤ count ∧ b'.Sound (List.range' i n ++ owned) ∧ b'.fat = b.fat ∧
      b'.regionLength = b.regionLength ∧ b'.freeClusters = b.freeClusters - n := by
  obtain ⟨i, n, map, hfind, hpos, hn, hproper, hperm⟩ := findfree_spec h hcount hfree
  have hmem : ∀ c, i ≤ c → c < i + n → c ∈ expand b.freeClustersMap := fun c hc hc' =>
    hperm.mem_iff.2 (List.mem_append_left _ (List.mem_range'_1.2 ⟨hc, hc'⟩))
  have hfirst := h.free_bounds (hmem i le_rfl (by omega))
  have hlast := h.free_bounds (hmem (i + n - 1) (by omega) (by omega))
  have hbound : i + n ≤ 2 + 8 * b.bits.length := by
    have := h.length
    omega
  obtain ⟨bits, hset, hlength, hbits⟩ := set_spec
    { b with freeClustersMap := map, freeClusters := b.freeClusters - n } false hfirst.1 hbound
  refine ⟨i, n, _, _, hfind, hset, hpos, hn, ?_, rfl, rfl, rfl⟩
  exact
    { perm := by
        refine List.Perm.trans ?_ h.perm
        rw [← List.append_assoc]
        exact (List.perm_append_comm.trans hperm.symm).append_right _
      pos := hproper.pos
      count := by
        have := hperm.length_eq
        rw [List.length_append, List.length_range'] at this
        have hall := h.count
        dsimp only
        omega
      bits := fun k => by
        rw [hbits, List.mem_append, List.mem_range'_1]
        by_cases hin : i ≤ k + 2 ∧ k + 2 < i + n
        · simp [hin]
        · rw [if_neg hin, h.bits k]
          simp [hin]
      length := hlength.symm ▸ h.length
      size := h.size
      representable := h.representable }

/-! ### Chains -/

/-- The run `r` leads to the run of `n` clusters at `i`, which is the last one. -/
theorem linkRun_spec {fat : Fat} {r : ℕ × ℕ} (hruns : 1 < runs.length)
    (hold : runs.length ≠ 2 → fat.Leads r.1 r.2 Fat.last) (hr : 2 ≤ r.1) (hr' : 0 < r.2)
    (hrlast : r.1 + r.2 ≤ fat.realLast + 1) (hi : 2 ≤ i) (hn : 0 < n)
    (hilast : i + n ≤ fat.realLast + 1)
    (hother : ∀ c, r.1 ≤ c → c < r.1 + r.2 → ¬(i ≤ c ∧ c < i + n)) :
    let fat' := linkRun fat (some r) runs i n
    fat'.size = fat.size ∧ fat'.Leads r.1 r.2 i ∧ fat'.Leads i n Fat.last ∧
      ∀ c, ¬(r.1 ≤ c ∧ c < r.1 + r.2) → ¬(i ≤ c ∧ c < i + n) → fat'.entry c = fat.entry c := by
  have hmark := Fat.entry_markRun (f := fat) hn hi hilast
  have hsize := Fat.size_markRun fat i n
  rw [linkRun, if_pos hruns]
  dsimp only [Option.getD_some]
  -- After the first run of the chain was marked, if it was the only one.
  obtain ⟨fat₂, heq, hsize₂, hfirst, hothers⟩ : ∃ fat₂, (if runs.length = 2 then
      (fat.markRun i n).markRun r.1 r.2 else fat.markRun i n) = fat₂ ∧ fat₂.size = fat.size ∧
      fat₂.Leads r.1 r.2 Fat.last ∧ ∀ c, ¬(r.1 ≤ c ∧ c < r.1 + r.2) →
        fat₂.entry c = (fat.markRun i n).entry c := by
    refine ⟨_, rfl, ?_⟩
    by_cases htwo : runs.length = 2
    · have hlast : r.1 + r.2 ≤ (fat.markRun i n).realLast + 1 := by
        rwa [Fat.realLast, hsize, ← Fat.realLast]
      have hentry := Fat.entry_markRun hr' hr hlast
      rw [if_pos htwo]
      refine ⟨(Fat.size_markRun ..).trans hsize, fun c hc hc' => ?_, fun c hc => ?_⟩
      · rw [hentry, if_pos ⟨hc, hc'⟩]
      · rw [hentry, if_neg hc]
    · rw [if_neg htwo]
      refine ⟨hsize, (hold htwo).congr fun c hc hc' => ?_, fun _ _ => rfl⟩
      rw [hmark, if_neg (hother c hc hc')]
  rw [heq]
  have hlast₂ : fat₂.realLast = fat.realLast := by rw [Fat.realLast, hsize₂, ← Fat.realLast]
  have hset : ∀ c, (fat₂.set (r.1 + r.2 - 1) i).entry c =
      if c = r.1 + r.2 - 1 then i else fat₂.entry c :=
    Fat.entry_set (by omega) (.inl (by omega))
  refine ⟨(Fat.size_set ..).trans hsize₂, fun c hc hc' => ?_, fun c hc hc' => ?_,
    fun c hc hc' => ?_⟩
  · rw [hset]
    by_cases hend : c = r.1 + r.2 - 1
    · rw [if_pos hend, if_pos (by omega)]
    · rw [if_neg hend, hfirst c hc hc', if_neg (by omega), if_neg (by omega)]
  · have hout : ¬(r.1 ≤ c ∧ c < r.1 + r.2) := fun hin => hother c hin.1 hin.2 ⟨hc, hc'⟩
    rw [hset, if_neg (by omega), hothers c hout, hmark, if_pos ⟨hc, hc'⟩]
  · rw [hset, if_neg (by omega), hothers c hc, hmark, if_neg hc']

end Bitmap

/-- A chain of several runs is led through by the table. -/
structure ChainOk (fat : Fat) (runs : Dict) : Prop where
  pos : ∀ r ∈ runs, 0 < r.2
  separate : Fat.Separate runs
  linked : 1 < runs.length → fat.Linked runs Fat.last

namespace ChainOk

variable {fat fat' : Fat} {runs front : Dict} {i n c : ℕ} {r : ℕ × ℕ}

theorem congr (h : ChainOk fat runs) (hfat : ∀ c ∈ expand runs, fat'.entry c = fat.entry c) :
    ChainOk fat' runs :=
  ⟨h.pos, h.separate, fun hlength => (h.linked hlength).congr hfat⟩

theorem proper (h : ChainOk fat runs) (hnodup : (expand runs).Nodup) : Proper runs :=
  ⟨h.pos, hnodup⟩

theorem nil (fat : Fat) : ChainOk fat [] :=
    ⟨fun _ h => absurd h List.not_mem_nil, trivial, fun _ => trivial⟩

/-- The table leads through all runs but the last one. -/
theorem linked_front (h : ChainOk fat (front ++ [r])) : fat.Linked front r.1 := by
  rcases hfront : front with _ | ⟨r', rest⟩
  · trivial
  · have hlinked := h.linked (by rw [hfront]; simp)
    rw [hfront] at hlinked
    exact (Fat.linked_concat.1 hlinked).1

/-- The new run, and the table that leads to it. -/
theorem addRun (h : ChainOk fat runs) (hnodup : (expand runs).Nodup) (hn : 0 < n)
    (hbounds : ∀ c ∈ expand runs, 2 ≤ c ∧ c ≤ fat.realLast) (hi : 2 ≤ i)
    (hilast : i + n ≤ fat.realLast + 1) (hnew : ∀ c ∈ expand runs, ¬(i ≤ c ∧ c < i + n)) :
    ∃ runs' fat', Bitmap.addRun runs i n = runs' ∧
      Bitmap.linkRun fat runs.getLast? runs' i n = fat' ∧
      expand runs' = expand runs ++ List.range' i n ∧ ChainOk fat' runs' ∧ fat'.size = fat.size ∧
      ∀ c, c ∉ expand runs → ¬(i ≤ c ∧ c < i + n) → fat'.entry c = fat.entry c := by
  have hproper := h.proper hnodup
  rcases List.eq_nil_or_concat' runs with rfl | ⟨front, r, rfl⟩
  · refine ⟨[(i, n)], fat, rfl, rfl, by simp, ?_, rfl, fun _ _ _ => rfl⟩
    exact ⟨by simpa using hn, trivial, fun hlt => absurd hlt (by simp)⟩
  · have hmem : ∀ c, r.1 ≤ c → c < r.1 + r.2 → c ∈ expand (front ++ [r]) := fun c hc hc' =>
      mem_expand.2 ⟨r, by simp, hc, hc'⟩
    have hpos : 0 < r.2 := h.pos r (by simp)
    have hfirst := hbounds r.1 (hmem r.1 le_rfl (by omega))
    have hlast := hbounds (r.1 + r.2 - 1) (hmem _ (by omega) (by omega))
    have hother : ∀ c, r.1 ≤ c → c < r.1 + r.2 → ¬(i ≤ c ∧ c < i + n) := fun c hc hc' =>
      hnew c (hmem c hc hc')
    have hfront : ∀ c ∈ expand front, ¬(r.1 ≤ c ∧ c < r.1 + r.2) ∧ ¬(i ≤ c ∧ c < i + n) := by
      intro c hc
      refine ⟨fun hin => hproper.disjoint hc (mem_expand.2 ⟨r, by simp, hin⟩), hnew c ?_⟩
      rw [expand_append]
      exact List.mem_append_left _ hc
    -- The table leads through a chain of several runs already.
    have hold : 1 < (front ++ [r]).length → fat.Leads r.1 r.2 Fat.last := fun hlt =>
      (Fat.linked_concat.1 (h.linked hlt)).2
    rw [Bitmap.addRun, List.getLast?_concat]
    dsimp only
    by_cases hnext : i = r.1 + r.2
    · -- The last run becomes longer.
      rw [if_pos hnext, put_last hproper.before_fresh]
      have hexpand : expand (front ++ [(r.1, n + r.2)]) =
          expand (front ++ [r]) ++ List.range' i n := by
        rw [Nat.add_comm n, expand_append, expand_append, List.append_assoc, hnext]
        simp [List.range'_append_1]
      have hseparate : Fat.Separate (front ++ [(r.1, n + r.2)]) :=
        Fat.Separate.last (k := r.1) (v := r.2) h.separate
      have hpos' : ∀ x ∈ front ++ [(r.1, n + r.2)], 0 < x.2 := by
        intro x hx
        rcases List.mem_append.1 hx with hx | hx
        · exact h.pos x (List.mem_append_left _ hx)
        · rw [List.mem_singleton.1 hx]
          exact Nat.add_pos_left hn _
      refine ⟨_, _, rfl, rfl, hexpand, ?_⟩
      by_cases hone : 1 < (front ++ [(r.1, n + r.2)]).length
      · obtain ⟨hsize, hleads, hleads', hsame⟩ := Bitmap.linkRun_spec (i := i) hone
          (fun _ => hold (by simpa using hone)) hfirst.1 hpos (by omega) hi hn hilast hother
        refine ⟨⟨hpos', hseparate, fun _ => Fat.linked_concat.2 ⟨?_, ?_⟩⟩, hsize,
          fun c hc hc' => ?_⟩
        · exact h.linked_front.congr fun c hc => hsame c (hfront c hc).1 (hfront c hc).2
        · intro c hc hc'
          dsimp only at hc hc' ⊢
          by_cases hin : c < r.1 + r.2
          · rw [hleads c hc hin, if_neg (by omega : ¬c + 1 = r.1 + (n + r.2))]
            split <;> omega
          · rw [hleads' c (by omega) (by omega)]
            congr 1
            exact propext (by omega)
        · exact hsame c (fun hin => hc (hmem c hin.1 hin.2)) hc'
      · rw [Bitmap.linkRun, if_neg hone]
        exact ⟨⟨hpos', hseparate, fun hlt => absurd hlt hone⟩, rfl, fun _ _ _ => rfl⟩
    · -- There is one run more.
      have hfresh : i ∉ expand (front ++ [r]) := fun hin => hnew i hin ⟨le_rfl, by omega⟩
      rw [if_neg hnext, hproper.put_fresh hfresh]
      have hone : 1 < (front ++ [r] ++ [(i, n)]).length := by simp
      obtain ⟨hsize, hleads, hleads', hsame⟩ := Bitmap.linkRun_spec (i := i) hone
        (fun hne => hold (by simp at hne ⊢; exact List.length_pos_iff.2 hne)) hfirst.1 hpos
        (by omega) hi hn hilast hother
      refine ⟨_, _, rfl, rfl, by simp, ⟨fun x hx => ?_, ?_, fun _ => ?_⟩, hsize, fun c hc hc' => ?_⟩
      · rcases List.mem_append.1 hx with hx | hx
        · exact h.pos x hx
        · rwa [List.mem_singleton.1 hx]
      · exact Fat.separate_concat.2 ⟨h.separate, hnext⟩
      · refine Fat.linked_concat.2 ⟨Fat.linked_concat.2 ⟨?_, hleads⟩, hleads'⟩
        exact h.linked_front.congr fun c hc => hsame c (hfront c hc).1 (hfront c hc).2
      · exact hsame c (fun hin => hc (hmem c hin.1 hin.2)) hc'

/-- The entry of the last cluster is the end mark already. -/
theorem entry_set_last (h : ChainOk fat runs) (hlength : 1 < runs.length) {last : ℕ}
    (hlast : (expand runs).getLast? = some last) (hbounds : 2 ≤ last ∧ last ≤ fat.realLast) :
    (fat.set last Fat.last).entry = fat.entry := by
  rcases List.eq_nil_or_concat' runs with rfl | ⟨front, r, rfl⟩
  · cases hlast
  · have hpos : 0 < r.2 := h.pos r (by simp)
    have hend : last = r.1 + r.2 - 1 := by
      rw [expand_append, expand_cons, expand_nil, List.append_nil,
        List.getLast?_append_of_ne_nil _ (by simp; omega), List.getLast?_range',
        if_neg (by omega)] at hlast
      have := Option.some.inj hlast
      omega
    have hleads := (Fat.linked_concat.1 (h.linked hlength)).2 last (by omega) (by omega)
    rw [if_pos (by omega)] at hleads
    funext c
    rw [Fat.entry_set hbounds (.inr (by decide))]
    split
    · next heq => rw [heq, hleads]
    · rfl

end ChainOk

namespace Bitmap

variable {b b' b'' : Bitmap} {owned others : List ℕ} {runs runs' runs'' : Dict} {count m n i : ℕ}

/-- A chain that got `count` clusters more. -/
structure Extended (others : List ℕ) (b : Bitmap) (runs : Dict) (count : ℕ) (b' : Bitmap)
    (runs' : Dict) : Prop where
  sound : b'.Sound (expand runs' ++ others)
  chain : ChainOk b'.fat runs'
  taken : ∃ new, expand runs' = expand runs ++ new ∧ new.length = count
  same : ∀ c ∈ others, b'.fat.entry c = b.fat.entry c
  regionLength : b'.regionLength = b.regionLength
  free : b'.freeClusters = b.freeClusters - count

theorem Extended.trans (h : Extended others b runs m b' runs')
    (h' : Extended others b' runs' n b'' runs'') : Extended others b runs (m + n) b'' runs'' := by
  obtain ⟨new, hnew, hm⟩ := h.taken
  obtain ⟨new', hnew', hn⟩ := h'.taken
  refine ⟨h'.sound, h'.chain, ⟨new ++ new', ?_, ?_⟩, fun c hc => (h'.same c hc).trans (h.same c hc),
    h'.regionLength.trans h.regionLength, ?_⟩
  · rw [hnew', hnew, List.append_assoc]
  · rw [List.length_append, hm, hn]
  · rw [h'.free, h.free]
    push_cast
    omega

theorem allocRound_spec (h : b.Sound (expand runs ++ others)) (hchain : ChainOk b.fat runs)
    (hcount : 0 < count) (hfree : (count : ℤ) ≤ b.freeClusters) :
    ∃ i n b' runs', allocRound b runs count = .ok ((i, n), b', runs') ∧ 0 < n ∧ n ≤ count ∧
      Extended others b runs n b' runs' ∧ (expand runs').getLast? = some (i + n - 1) := by
  obtain ⟨i, n, b₁, b₂, hfind, hset, hn, hle, hsound, hfat, hregion, hleft⟩ :=
    take_spec h hcount hfree
  have hnodup := hsound.owned_nodup
  have hin : ∀ c, i ≤ c → c < i + n → c ∈ List.range' i n ++ (expand runs ++ others) :=
    fun c hc hc' => List.mem_append_left _ (List.mem_range'_1.2 ⟨hc, hc'⟩)
  have hnew : ∀ c ∈ expand runs ++ others, ¬(i ≤ c ∧ c < i + n) := fun c hc hrange =>
    (List.nodup_append.1 hnodup).2.2 c (List.mem_range'_1.2 hrange) c hc rfl
  obtain ⟨hi, hilast⟩ := hsound.run_bounds hn hin
  have hreal := h.realLast
  obtain ⟨runs', fat', hadd, hlink, hexpand, hchain', hsize, hsame⟩ :=
    hchain.addRun (List.nodup_append.1 h.owned_nodup).1 hn
      (fun c hc => by have := h.owned_bounds (List.mem_append_left others hc); omega) hi
      (by omega) fun c hc => hnew c (List.mem_append_left _ hc)
  refine ⟨i, n, { b₂ with fat := fat' }, runs', ?_, hn, hle, ?_, ?_⟩
  · rw [allocRound, hfind]
    dsimp only
    rw [hset, hadd]
    show Except.ok (_, { b₂ with fat := linkRun b₂.fat runs.getLast? runs' i n }, runs') = _
    rw [hfat, hlink]
  · have hperm : (List.range' i n ++ (expand runs ++ others)).Perm (expand runs' ++ others) := by
      rw [hexpand, ← List.append_assoc]
      exact List.perm_append_comm.append_right _
    refine ⟨(hsound.of_perm hperm).withFat (by rw [hsize, hfat]), hchain',
      ⟨_, hexpand, List.length_range'⟩, fun c hc => hsame c (fun hmem => ?_) ?_, hregion, hleft⟩
    · exact (List.nodup_append.1 h.owned_nodup).2.2 c hmem c hc rfl
    · exact hnew c (List.mem_append_right _ hc)
  · rw [hexpand, List.getLast?_append_of_ne_nil _ (by simp; omega), List.getLast?_range',
      if_neg (by omega)]

/-- At the end the end mark is set once more. -/
theorem allocLoop_zero (rounds : ℕ) (h : b.Sound (expand runs ++ others))
    (hchain : ChainOk b.fat runs) {l : ℕ} (hlast : (expand runs).getLast? = some l) :
    ∃ b', allocLoop rounds b runs 0 (some l) = .ok (l, b', runs) ∧
      Extended others b runs 0 b' runs := by
  obtain ⟨fat, hfat, hsize, hentry⟩ : ∃ fat, (if 1 < runs.length then b.fat.set l Fat.last
      else b.fat) = fat ∧ fat.size = b.fat.size ∧ fat.entry = b.fat.entry := by
    refine ⟨_, rfl, ?_⟩
    split
    · have hbounds := h.owned_bounds (List.mem_append_left others (List.mem_of_getLast? hlast))
      have hreal := h.realLast
      exact ⟨Fat.size_set .., hchain.entry_set_last ‹_› hlast (by omega)⟩
    · exact ⟨rfl, rfl⟩
  refine ⟨{ b with fat }, ?_, h.withFat hsize, hchain.congr fun c _ => by rw [hentry],
    ⟨[], by simp, rfl⟩, fun c _ => by rw [hentry], rfl, by simp⟩
  rw [← hfat]
  cases rounds <;> rfl

/-- The rounds of `alloc`, one after the other. -/
theorem allocLoop_spec (rounds : ℕ) (last : Option ℕ) (h : b.Sound (expand runs ++ others))
    (hchain : ChainOk b.fat runs) (hrounds : count ≤ rounds) (hfree : (count : ℤ) ≤ b.freeClusters)
    (hlast : count = 0 → last.isSome ∧ (expand runs).getLast? = last) :
    ∃ l b' runs', allocLoop rounds b runs count last = .ok (l, b', runs') ∧
      Extended others b runs count b' runs' ∧ (expand runs').getLast? = some l := by
  induction rounds generalizing b runs count last with
  | zero =>
    obtain rfl : count = 0 := by omega
    obtain ⟨hsome, hend⟩ := hlast rfl
    obtain ⟨l, rfl⟩ := Option.isSome_iff_exists.1 hsome
    obtain ⟨b', hdone, hext⟩ := allocLoop_zero 0 h hchain hend
    exact ⟨l, b', runs, hdone, hext, hend⟩
  | succ rounds ih =>
    rcases count with _ | count
    · obtain ⟨hsome, hend⟩ := hlast rfl
      obtain ⟨l, rfl⟩ := Option.isSome_iff_exists.1 hsome
      obtain ⟨b', hdone, hext⟩ := allocLoop_zero (rounds + 1) h hchain hend
      exact ⟨l, b', runs, hdone, hext, hend⟩
    · obtain ⟨i, n, b₁, runs₁, hround, hn, hle, hext, hend⟩ :=
        allocRound_spec h hchain (Nat.succ_pos count) hfree
      have hfree' : ((count + 1 - n : ℕ) : ℤ) ≤ b₁.freeClusters := by
        have := hext.free
        omega
      obtain ⟨l, b', runs', hrest, hext', hend'⟩ := ih (some (i + n - 1)) hext.sound hext.chain
        (by omega) hfree' fun _ => ⟨rfl, hend⟩
      refine ⟨l, b', runs', ?_, ?_, hend'⟩
      · rw [allocLoop, hround]
        exact hrest
      · have htotal : n + (count + 1 - n) = count + 1 := by omega
        exact htotal ▸ hext.trans hext'

/-- **Clusters are allocated.**  If enough of them are free, the chain gets `count` clusters that
nobody had, behind those that it had, and the entries of the others are as they were. -/
theorem alloc_spec (h : b.Sound (expand runs ++ others)) (hchain : ChainOk b.fat runs)
    (hcount : 0 < count) (hfree : (count : ℤ) ≤ b.freeClusters) :
    ∃ l b' runs', b.alloc runs count = .ok (l, b', runs') ∧
      Extended others b runs count b' runs' ∧ (expand runs').getLast? = some l := by
  have hleft := b.mapCompact_freeClusters
  obtain ⟨l, b', runs', hloop, hext, hend⟩ := allocLoop_spec
    (count + b.mapCompact.freeClustersMap.length) none h.mapCompact
    (by rwa [mapCompact_fat] : ChainOk b.mapCompact.fat runs) (Nat.le_add_right ..) (hleft ▸ hfree)
    (by omega)
  refine ⟨l, b', runs', ?_, ?_, hend⟩
  · rw [alloc, if_neg (by omega), hloop]
  · exact
      { hext with
        same := fun c hc => (hext.same c hc).trans (by rw [mapCompact_fat])
        regionLength := hext.regionLength.trans (mapCompact_regionLength b)
        free := hext.free.trans (by rw [hleft]) }

/-- Too many clusters are refused. -/
theorem alloc_exhausted (hfree : b.freeClusters < count) :
    b.alloc runs count =
      let left := b.freeClusters
      .error (.exhausted
        s!"FATAL! Free clusters exhausted, couldn't allocate {count}, only {left} left!") := by
  rw [alloc, mapCompact_freeClusters, if_pos hfree]

/-! ### Giving clusters back -/

theorem length_expand (runs : Dict) : (expand runs).length = clusters runs := by
  induction runs with
  | nil => rfl
  | cons r rest ih => rw [expand_cons, List.length_append, List.length_range', ih,
    clusters, clusters,
      List.map_cons, List.sum_cons]

theorem clusters_concat (front : Dict) (r : ℕ × ℕ) :
    clusters (front ++ [r]) = clusters front + r.2 := by
  simp [clusters]

/-- A chain of which only the first clusters are left. -/
structure Shortened (others : List ℕ) (b : Bitmap) (runs : Dict) (n : ℕ) (b' : Bitmap)
    (runs' : Dict) :
    Prop where
  sound : b'.Sound (expand runs' ++ others)
  chain : ChainOk b'.fat runs'
  kept : expand runs' = (expand runs).take (clusters runs - n)
  same : ∀ c ∈ others, b'.fat.entry c = b.fat.entry c
  regionLength : b'.regionLength = b.regionLength
  free : b'.freeClusters = b.freeClusters + n

/-- The end mark in the last cluster of a chain. -/
theorem Sound.set_last {front : Dict} {k v w : ℕ} {next : ℕ}
    (h : b.Sound (expand (front ++ [(k, w)]) ++ others))
    (hpos : ∀ r ∈ front ++ [(k, w)], 0 < r.2) (hw : w ≤ v) (hlinked : b.fat.Linked front k)
    (hleads : b.fat.Leads k v next) :
    (b.fat.set (k + w - 1) Fat.last).Linked (front ++ [(k, w)]) Fat.last ∧
      ∀ c ∈ others, (b.fat.set (k + w - 1) Fat.last).entry c = b.fat.entry c := by
  have hw' : 0 < w := hpos (k, w) (by simp)
  have hmem : ∀ c, k ≤ c → c < k + w → c ∈ expand (front ++ [(k, w)]) := fun c hc hc' =>
    mem_expand.2 ⟨(k, w), by simp, hc, hc'⟩
  have hproper : Proper (front ++ [(k, w)]) := ⟨hpos, (List.nodup_append.1 h.owned_nodup).1⟩
  have hreal := h.realLast
  obtain ⟨hk, hlast⟩ := h.run_bounds hw' fun c hc hc' => List.mem_append_left _ (hmem c hc hc')
  have hset : ∀ c, c ≠ k + w - 1 → (b.fat.set (k + w - 1) Fat.last).entry c = b.fat.entry c :=
    fun c hc => by rw [Fat.entry_set (by omega) (.inr (by decide)), if_neg hc]
  refine ⟨Fat.linked_concat.2 ⟨hlinked.congr fun c hc => hset c ?_,
    hleads.set_last hw' hw hk (by omega)⟩, fun c hc => hset c ?_⟩
  · rintro rfl
    exact hproper.disjoint hc (mem_expand.2 ⟨(k, w), by simp, by dsimp only; omega,
      by dsimp only; omega⟩)
  · rintro rfl
    exact (List.nodup_append.1 h.owned_nodup).2.2 _ (hmem _ (by omega) (by omega)) _ hc rfl

/-- The end mark at the end of what is left of a chain, if nothing more is given back. -/
theorem Sound.endFront {front : Dict} {next : ℕ} (h : b.Sound (expand front ++ others))
    (hpos : ∀ r ∈ front, 0 < r.2) (hlinked : b.fat.Linked front next) :
    ∃ fat, (if n = 0 ∧ 1 < front.length then
        b.fat.set ((front.getLastD (0, 0)).1 + (front.getLastD (0, 0)).2 - 1) Fat.last
      else b.fat) = fat ∧ fat.size = b.fat.size ∧
      (1 < front.length → ∃ next, fat.Linked front next ∧ (n = 0 → next = Fat.last)) ∧
      ∀ c ∈ others, fat.entry c = b.fat.entry c := by
  refine ⟨_, rfl, ?_⟩
  split
  · rename_i hend
    obtain ⟨rest, r, rfl⟩ := (List.eq_nil_or_concat' front).resolve_left fun hnil => by
      rw [hnil] at hend
      exact absurd hend.2 (by simp)
    obtain ⟨hrest, hleads⟩ := Fat.linked_concat.1 hlinked
    obtain ⟨hall, hsame⟩ := h.set_last (k := r.1) (w := r.2) hpos le_rfl hrest hleads
    have hlast : (rest ++ [r]).getLastD (0, 0) = r := by simp
    rw [hlast]
    exact ⟨Fat.size_set .., fun _ => ⟨_, hall, fun _ => rfl⟩, hsame⟩
  · rename_i hend
    exact ⟨rfl, fun hlt => ⟨next, hlinked, fun hzero => absurd ⟨hzero, hlt⟩ hend⟩, fun _ _ => rfl⟩

/-- The rounds of `trunc`.  Between two of them the last entry need not be the end mark. -/
theorem truncLoop_spec (rounds : ℕ) (h : b.Sound (expand runs ++ others))
    (hpos : ∀ r ∈ runs, 0 < r.2) (hseparate : Fat.Separate runs)
    (hlinked : 1 < runs.length → ∃ next, b.fat.Linked runs next ∧ (n = 0 → next = Fat.last))
    (hrounds : runs.length ≤ rounds) (hn : n < clusters runs) :
    ∃ b' runs', truncLoop rounds b runs n = .ok (b', runs') ∧
      Shortened others b runs n b' runs' := by
  induction rounds generalizing b runs n with
  | zero =>
    obtain rfl := List.length_eq_zero_iff.1 (by omega : runs.length = 0)
    exact absurd hn (Nat.not_lt_zero _)
  | succ rounds ih =>
    rcases n with _ | n
    · refine ⟨b, runs, rfl, h, ⟨hpos, hseparate, fun hlt => ?_⟩, ?_, fun _ _ => rfl, rfl, by simp⟩
      · obtain ⟨next, hall, hnext⟩ := hlinked hlt
        exact hnext rfl ▸ hall
      · rw [Nat.sub_zero, ← length_expand, List.take_length]
    · rcases List.eq_nil_or_concat' runs with rfl | ⟨front, ⟨s, l⟩, rfl⟩
      · exact absurd hn (Nat.not_lt_zero _)
      have hl : 0 < l := hpos (s, l) (by simp)
      have hfront : b.fat.Linked front s := by
        rcases hcase : front with _ | ⟨r, rest⟩
        · trivial
        · obtain ⟨next, hall, -⟩ := hlinked (by simp [hcase])
          rw [hcase] at hall
          exact (Fat.linked_concat.1 hall).1
      rw [clusters_concat] at hn
      rw [truncLoop, List.getLast?_concat]
      dsimp only
      rw [List.dropLast_concat]
      by_cases hwhole : l ≤ n + 1
      · -- The whole run is given back.
        have hperm : (expand (front ++ [(s, l)]) ++ others).Perm
            (List.range' s l ++ (expand front ++ others)) := by
          rw [expand_append, expand_cons, expand_nil, List.append_nil, ← List.append_assoc]
          exact List.perm_append_comm.append_right _
        obtain ⟨b₁, hfree, hsound, hfat, hregion, hleft⟩ := free1_spec (h.of_perm hperm) hl
        rw [if_pos hwhole, hfree]
        dsimp only
        have hpos' : ∀ r ∈ front, 0 < r.2 := fun r hr => hpos r (List.mem_append_left _ hr)
        obtain ⟨fat, heq, hsize, hlinked', hsame⟩ := hsound.endFront (n := n + 1 - l) hpos'
          (hfat ▸ hfront)
        have hcond : (n + 1 = l ∧ 1 < front.length) = (n + 1 - l = 0 ∧ 1 < front.length) :=
          propext (by omega)
        obtain ⟨b', runs', hrest, hshort⟩ := ih (hsound.withFat hsize) hpos'
          hseparate.front (fun hlt => hlinked' hlt) (by simpa using hrounds) (by omega)
        simp only [hcond, heq]
        refine ⟨b', runs', hrest, hshort.sound, hshort.chain, ?_, fun c hc => ?_,
          hshort.regionLength.trans hregion, ?_⟩
        · rw [hshort.kept, clusters_concat, expand_append, List.take_append_of_le_length]
          · congr 1
            omega
          · rw [length_expand]
            omega
        · rw [hshort.same c hc, hsame c hc, hfat]
        · rw [hshort.free]
          show b₁.freeClusters + _ = _
          omega
      · have hsplit : List.range' s l =
            List.range' s (l - (n + 1)) ++ List.range' (s + l - (n + 1)) (n + 1) := by
          rw [show s + l - (n + 1) = s + (l - (n + 1)) by omega, List.range'_append_1]
          congr 1
          omega
        have hperm : (expand (front ++ [(s, l)]) ++ others).Perm
            (List.range' (s + l - (n + 1)) (n + 1) ++
              (expand (front ++ [(s, l - (n + 1))]) ++ others)) := by
          rw [expand_append, expand_append, expand_cons, expand_cons, expand_nil, List.append_nil,
            List.append_nil, hsplit, ← List.append_assoc, ← List.append_assoc]
          exact List.perm_append_comm.append_right _
        obtain ⟨b₁, hfree, hsound, hfat, hregion, hleft⟩ :=
          free1_spec (h.of_perm hperm) (Nat.succ_pos n)
        rw [if_neg hwhole, hfree]
        dsimp only
        have hproper : Proper (front ++ [(s, l)]) := ⟨hpos, (List.nodup_append.1 h.owned_nodup).1⟩
        have hpos' : ∀ r ∈ front ++ [(s, l - (n + 1))], 0 < r.2 :=
          (hproper.front (by omega) (by omega)).pos
        have hkept : expand (front ++ [(s, l - (n + 1))]) =
            (expand (front ++ [(s, l)])).take (clusters (front ++ [(s, l)]) - (n + 1)) := by
          have hlength : (expand (front ++ [(s, l - (n + 1))])).length =
              clusters (front ++ [(s, l)]) - (n + 1) := by
            rw [length_expand, clusters_concat, clusters_concat]
            dsimp only
            omega
          rw [expand_split front (by omega : l - (n + 1) ≤ l), ← hlength, List.take_left]
        rw [put_of_fresh hproper.before_fresh]
        by_cases hempty : front = []
        · subst hempty
          refine ⟨_, _, rfl, hsound, ⟨hpos', trivial, fun hlt => absurd hlt (by simp)⟩, hkept,
            fun c _ => by rw [← hfat]; rfl, hregion, hleft⟩
        · have hmany : 1 < (front ++ [(s, l)]).length := by
            have := List.length_pos_iff.2 hempty
            simpa using this
          obtain ⟨next, hall, -⟩ := hlinked hmany
          obtain ⟨hall', hsame⟩ := hsound.set_last hpos' (by omega : l - (n + 1) ≤ l)
            (hfat ▸ (Fat.linked_concat.1 hall).1) (hfat ▸ (Fat.linked_concat.1 hall).2)
          have hindex : s + l - (n + 1) - 1 = s + (l - (n + 1)) - 1 := by omega
          rw [if_neg (by simpa using hempty), hindex]
          refine ⟨_, _, rfl, hsound.withFat (Fat.size_set ..),
            ⟨hpos', Fat.Separate.last hseparate, fun _ => hall'⟩, hkept, fun c hc => ?_, hregion,
            hleft⟩
          rw [← hfat]
          exact hsame c hc

/-- **A chain is cut off.**  The clusters up to the `x`-th stay with it, in their order, and the
others are free. -/
theorem trunc_spec (h : b.Sound (expand runs ++ others)) (hchain : ChainOk b.fat runs) {x : ℕ}
    (hx : x < clusters runs) :
    ∃ b' runs', b.trunc runs x = .ok (b', runs') ∧
      Shortened others b runs (clusters runs - x - 1) b' runs' :=
  truncLoop_spec runs.length h hchain.pos hchain.separate
    (fun hlt => ⟨_, hchain.linked hlt, fun _ => rfl⟩) le_rfl (by omega)

/-- There are no more runs than clusters. -/
theorem Sound.runs_le (h : b.Sound (expand runs ++ others)) (hpos : ∀ r ∈ runs, 0 < r.2) :
    runs.length ≤ b.regionLength := by
  have hlength := h.perm.length_eq
  rw [List.length_append, List.length_append, List.length_range'] at hlength
  have hle : runs.length ≤ (expand runs).length := by
    clear h hlength
    induction runs with
    | nil => exact le_rfl
    | cons r rest ih =>
      have hr := hpos r List.mem_cons_self
      have hrest := ih fun x hx => hpos x (List.mem_cons_of_mem _ hx)
      rw [expand_cons, List.length_append, List.length_range', List.length_cons]
      omega
  omega

/-- What is left when the runs of a chain were given back. -/
structure Released (others : List ℕ) (b : Bitmap) (n : ℕ) (b' : Bitmap) : Prop where
  sound : b'.Sound others
  same : b'.fat.entry = b.fat.entry
  regionLength : b'.regionLength = b.regionLength
  free : b'.freeClusters = b.freeClusters + n

theorem Released.trans (h : Released owned b m b') (h' : Released others b' n b'') :
    Released others b (m + n) b'' := by
  refine ⟨h'.sound, h'.same.trans h.same, h'.regionLength.trans h.regionLength, ?_⟩
  rw [h'.free, h.free]
  push_cast
  omega

theorem free1_released {start length : ℕ} (h : b.Sound (List.range' start length ++ others))
    (hpos : 0 < length) : ∃ b', b.free1 start length = .ok b' ∧ Released others b length b' := by
  obtain ⟨b', hfree, hsound, hfat, hregion, hleft⟩ := free1_spec h hpos
  exact ⟨b', hfree, hsound, by rw [hfat], hregion, hleft⟩

/-- The runs that are known are given back. -/
theorem freeRuns_spec (h : b.Sound (expand runs ++ others)) (hpos : ∀ r ∈ runs, 0 < r.2) :
    ∃ b', b.freeRuns runs = .ok b' ∧ Released others b (clusters runs) b' := by
  induction runs generalizing b with
  | nil => exact ⟨b, rfl, h, rfl, rfl, by simp [clusters]⟩
  | cons r rest ih =>
    rw [expand_cons, List.append_assoc] at h
    obtain ⟨b₁, hfree, hreleased⟩ := free1_released h (hpos r List.mem_cons_self)
    obtain ⟨b', hrest, hreleased'⟩ := ih hreleased.sound fun x hx =>
      hpos x (List.mem_cons_of_mem _ hx)
    refine ⟨b', ?_, hreleased.trans hreleased'⟩
    rw [freeRuns, List.foldlM_cons, hfree]
    exact hrest

/-- A run that is found in the table is given back. -/
theorem free_round {r : ℕ × ℕ} {next : ℕ} (h : b.Sound (List.range' r.1 r.2 ++ others))
    (hpos : 0 < r.2) (hleads : b.fat.Leads r.1 r.2 next) (hnext : next ≠ r.1 + r.2) :
    ∃ fat b', b.fat.countRun r.1 1 = ((r.2, next), fat) ∧
      { b with fat }.free1 r.1 r.2 = .ok b' ∧ Released others b r.2 b' := by
  have hreal := h.realLast
  obtain ⟨-, hlast⟩ := h.run_bounds hpos fun c hc hc' =>
    List.mem_append_left _ (List.mem_range'_1.2 ⟨hc, hc'⟩)
  obtain ⟨fat, hcount, hsame⟩ := Fat.countRun_spec (by omega) hpos hleads hnext 1
  obtain ⟨b', hfree, hreleased⟩ := free1_released (h.withFat hsame.size) hpos
  refine ⟨fat, b', ?_, hfree, hreleased.sound, hreleased.same.trans hsame.entry,
    hreleased.regionLength, hreleased.free⟩
  rw [hcount, Nat.add_sub_cancel_left]

/-- **A chain is given back through the table.**  What the entries lead through is what the chain
has. -/
theorem free_spec {r : ℕ × ℕ} {rest : Dict} (rounds : ℕ)
    (h : b.Sound (expand (r :: rest) ++ others)) (hpos : ∀ x ∈ r :: rest, 0 < x.2)
    (hseparate : Fat.Separate (r :: rest)) (hlinked : b.fat.Linked (r :: rest) Fat.last)
    (hrounds : rest.length < rounds) :
    ∃ b', free rounds b r.1 = .ok b' ∧ Released others b (clusters (r :: rest)) b' := by
  have hlast := b.fat.realLast_lt_last
  have hreal := h.realLast
  have hr := hpos r List.mem_cons_self
  induction rest generalizing b r rounds with
  | nil =>
    obtain ⟨rounds, rfl⟩ : ∃ k, rounds = k + 1 := ⟨rounds - 1, by omega⟩
    rw [expand_cons, expand_nil, List.append_nil] at h
    obtain ⟨-, hend⟩ := h.run_bounds hr fun c hc hc' =>
      List.mem_append_left _ (List.mem_range'_1.2 ⟨hc, hc'⟩)
    obtain ⟨fat, b', hcount, hfree, hreleased⟩ := free_round h hr hlinked (by omega)
    refine ⟨b', ?_, hreleased⟩
    rw [free, hcount]
    dsimp only
    rw [hfree]
    show (if Fat.last = Fat.last then Except.ok b' else free rounds b' Fat.last) = _
    rw [if_pos rfl]
  | cons r' rest ih =>
    obtain ⟨rounds, rfl⟩ : ∃ k, rounds = k + 1 := ⟨rounds - 1, by omega⟩
    have hmem : r'.1 ∈ expand (r :: r' :: rest) ++ others := by
      have := hpos r' (by simp)
      exact List.mem_append_left _ (mem_expand.2 ⟨r', by simp, le_rfl, by omega⟩)
    have hbound := h.owned_bounds hmem
    rw [expand_cons, List.append_assoc] at h
    obtain ⟨fat, b₁, hcount, hfree, hreleased⟩ := free_round h hr hlinked.1 hseparate.1
    obtain ⟨b', hrest, hreleased'⟩ := ih rounds hreleased.sound
      (fun x hx => hpos x (List.mem_cons_of_mem _ hx)) hseparate.2
      (hlinked.2.congr fun c _ => by rw [hreleased.same]) (by simpa using hrounds)
      b₁.fat.realLast_lt_last hreleased.sound.realLast (hpos r' (by simp))
    refine ⟨b', ?_, hreleased.trans hreleased'⟩
    rw [free, hcount]
    dsimp only
    rw [hfree]
    show (if r'.1 = Fat.last then _ else free rounds b₁ r'.1) = _
    rw [if_neg (by omega), hrest]

end Bitmap

end Ps2Ripper
