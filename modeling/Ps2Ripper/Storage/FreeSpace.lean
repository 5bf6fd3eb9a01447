import Mathlib.Data.List.Sort
import Ps2Ripper.Binary.Bits
import Ps2Ripper.Binary.Runs
import Ps2Ripper.Core.Models

/-!
# The free clusters of a volume

How the class `Bitmap` of `FATtools/exFAT.py` finds the free clusters in the allocation bitmap, and
how it compacts the runs it knows of.

* `scanRun`, `mapPage`, `mapPages`, `mapFreeSpace`: the scan of the bitmap, a page at a time;
* `mapFreeSpace_spec`: it finds the clear bits, one for each cluster, in their order;
* `absorb`, `compactPass`, `compactRuns`: neighbouring runs are merged until there are none;
* `compactRuns_spec`: the same clusters remain, and no run ends where another begins.
-/

namespace Ps2Ripper

open Binary Runs
open scoped List

namespace FreeSpace

/-! ### The scan -/

/-- A run becomes longer, or begins. -/
def grow (found : Option (ℕ × ℕ)) (first n : ℕ) : Option (ℕ × ℕ) :=
  match found with
  | some r => some (r.1, r.2 + n)
  | none => some (first, n)

/-- The next run of free clusters from the bit `j` of a page on, and where the search ended.  Empty
and full bytes are passed at once. -/
def scanRun (page : Bytes) (base j : ℕ) (found : Option (ℕ × ℕ)) : ℕ × Option (ℕ × ℕ) :=
  if j < 8 * page.length then
    let byte := page.getD (j / 8) 0
    if j % 8 = 0 ∧ byte = 0 then scanRun page base (j + 8) (grow found (base + j) 8)
    else if j % 8 = 0 ∧ byte = 0xFF then
      if found.isSome then (j, found) else scanRun page base (j + 8) found
    else if lsbFirst.bit page j then
      if found.isSome then (j, found) else scanRun page base (j + 1) found
    else scanRun page base (j + 1) (grow found (base + j) 1)
  else (j, found)
termination_by 8 * page.length - j

/-- The free clusters of a page from the bit `j` on. -/
def clears (page : Bytes) (base j : ℕ) : List ℕ :=
  ((List.range' j (8 * page.length - j)).filter fun k => !lsbFirst.bit page k).map (base + ·)

variable {page bits : Bytes} {base j n k : ℕ} {found : Option (ℕ × ℕ)}

theorem clears_end (h : 8 * page.length ≤ j) : clears page base j = [] := by
  rw [clears, Nat.sub_eq_zero_of_le h]
  rfl

theorem clears_split (h : j + n ≤ 8 * page.length) :
    clears page base j =
      ((List.range' j n).filter fun k => !lsbFirst.bit page k).map (base + ·) ++
        clears page base (j + n) := by
  have hrange : List.range' j (8 * page.length - j) =
      List.range' j n ++ List.range' (j + n) (8 * page.length - (j + n)) := by
    rw [List.range'_append_1]
    congr 1
    omega
  rw [clears, hrange, List.filter_append, List.map_append, clears]

theorem clears_taken (h : j + n ≤ 8 * page.length)
    (hset : ∀ k, j ≤ k → k < j + n → lsbFirst.bit page k = true) :
    clears page base j = clears page base (j + n) := by
  have hnone : (List.range' j n).filter (fun k => !lsbFirst.bit page k) = [] := by
    rw [List.filter_eq_nil_iff]
    intro k hk
    rw [List.mem_range'_1] at hk
    simp [hset k hk.1 hk.2]
  rw [clears_split h, hnone, List.map_nil, List.nil_append]

theorem clears_free (h : j + n ≤ 8 * page.length)
    (hclear : ∀ k, j ≤ k → k < j + n → lsbFirst.bit page k = false) :
    clears page base j = List.range' (base + j) n ++ clears page base (j + n) := by
  have hall : (List.range' j n).filter (fun k => !lsbFirst.bit page k) = List.range' j n := by
    rw [List.filter_eq_self]
    intro k hk
    rw [List.mem_range'_1] at hk
    simp [hclear k hk.1 hk.2]
  rw [clears_split h, hall, List.map_add_range']

theorem mem_clears : base + k ∈ clears page base j ↔
    j ≤ k ∧ k < 8 * page.length ∧ lsbFirst.bit page k = false := by
  simp only [clears, List.mem_map, List.mem_filter, List.mem_range'_1]
  constructor
  · rintro ⟨k', ⟨hrange, hbit⟩, heq⟩
    obtain rfl : k' = k := by omega
    exact ⟨hrange.1, by omega, by simpa using hbit⟩
  · rintro ⟨hle, hlt, hbit⟩
    exact ⟨k, ⟨⟨hle, by omega⟩, by simp [hbit]⟩, rfl⟩

theorem bit_octet (hj : j % 8 = 0) (hk : j ≤ k) (hk' : k < j + 8) :
    lsbFirst.bit page k = (page.getD (j / 8) 0 &&& lsbUnit (k % 8) != 0) := by
  have hdiv : k / 8 = j / 8 := by omega
  rw [BitOrder.bit, hdiv]
  rfl

theorem bit_empty (hj : j % 8 = 0) (hbyte : page.getD (j / 8) 0 = 0) (hk : j ≤ k)
    (hk' : k < j + 8) : lsbFirst.bit page k = false := by
  rw [bit_octet hj hk hk', hbyte]
  simp

theorem bit_full (hj : j % 8 = 0) (hbyte : page.getD (j / 8) 0 = 0xFF) (hk : j ≤ k)
    (hk' : k < j + 8) : lsbFirst.bit page k = true := by
  have hunit := lsbUnit_ne (k % 8) (Nat.mod_lt _ (by decide))
  have hfull : ∀ u : UInt8, 0xFF &&& u = u := fun u => UInt8.neg_one_and
  rw [bit_octet hj hk hk', hbyte, hfull]
  simpa using hunit

/-- The run that was found, if any, ends at the bit `j`. -/
def EndsAt (base j : ℕ) (found : Option (ℕ × ℕ)) : Prop :=
  ∀ r ∈ found, r.1 + r.2 = base + j ∧ 0 < r.2

theorem EndsAt.grow (h : EndsAt base j found) (hn : 0 < n) :
    EndsAt base (j + n) (grow found (base + j) n) := by
  rintro r hr
  rcases found with _ | r'
  · obtain rfl := Option.some.inj hr
    exact ⟨by dsimp only; omega, hn⟩
  · obtain rfl := Option.some.inj hr
    have := h r' rfl
    exact ⟨by dsimp only; omega, by dsimp only; omega⟩

theorem EndsAt.expand_grow (h : EndsAt base j found) (n : ℕ) :
    expand (FreeSpace.grow found (base + j) n).toList =
      expand found.toList ++ List.range' (base + j) n := by
  rcases found with _ | r
  · simp [FreeSpace.grow]
  · have := (h r rfl).1
    simp [FreeSpace.grow, ← this, List.range'_append_1]

/-- What a search for a run leaves to be found, and where it stops. -/
structure Scanned (page : Bytes) (base j : ℕ) (found : Option (ℕ × ℕ)) (out : ℕ × Option (ℕ × ℕ)) :
    Prop where
  clears_eq : expand out.2.toList ++ clears page base out.1 =
    expand found.toList ++ clears page base j
  le : j ≤ out.1
  le_length : j ≤ 8 * page.length → out.1 ≤ 8 * page.length
  endsAt : EndsAt base out.1 out.2
  through : out.2 = none → 8 * page.length ≤ out.1
  stop : out.1 < 8 * page.length → lsbFirst.bit page out.1 = true

theorem scanRun_spec (page : Bytes) (h : EndsAt base j found) :
    Scanned page base j found (scanRun page base j found) := by
  induction j, found using scanRun.induct page base with
  | case1 j found hj byte hb ih =>
    have hfree : clears page base j = List.range' (base + j) 8 ++ clears page base (j + 8) :=
      clears_free (by omega) fun k => bit_empty hb.1 hb.2
    have hscan := ih (h.grow (by omega))
    rw [scanRun, if_pos hj, if_pos hb]
    refine { hscan with
      clears_eq := ?_
      le := by have := hscan.le; omega
      le_length := fun _ => hscan.le_length (by omega) }
    rw [hscan.clears_eq, h.expand_grow, List.append_assoc, ← hfree]
  | case2 j found hj byte hb hb' hf =>
    rw [scanRun, if_pos hj, if_neg hb, if_pos hb', if_pos hf]
    exact
      { clears_eq := rfl
        le := le_rfl
        le_length := id
        endsAt := h
        through := fun (hnone : found = none) => by rw [hnone] at hf; cases hf
        stop := fun _ => bit_full hb'.1 hb'.2 le_rfl (by omega) }
  | case3 j found hj byte hb hb' hf ih =>
    have hnone : found = none := by simpa using hf
    have htaken : clears page base j = clears page base (j + 8) :=
      clears_taken (by omega) fun k => bit_full hb'.1 hb'.2
    have hscan := ih (by rw [hnone]; intro r hr; cases hr)
    rw [scanRun, if_pos hj, if_neg hb, if_pos hb', if_neg hf]
    exact { hscan with
      clears_eq := hscan.clears_eq.trans (by rw [htaken])
      le := by have := hscan.le; omega
      le_length := fun _ => hscan.le_length (by omega) }
  | case4 j found hj byte hb hb' hbit hf =>
    rw [scanRun, if_pos hj, if_neg hb, if_neg hb', if_pos hbit, if_pos hf]
    exact
      { clears_eq := rfl
        le := le_rfl
        le_length := id
        endsAt := h
        through := fun (hnone : found = none) => by rw [hnone] at hf; cases hf
        stop := fun _ => hbit }
  | case5 j found hj byte hb hb' hbit hf ih =>
    have hnone : found = none := by simpa using hf
    have htaken : clears page base j = clears page base (j + 1) :=
      clears_taken (by omega) fun k hk hk' => by
        obtain rfl : k = j := by omega
        exact hbit
    have hscan := ih (by rw [hnone]; intro r hr; cases hr)
    rw [scanRun, if_pos hj, if_neg hb, if_neg hb', if_pos hbit, if_neg hf]
    exact { hscan with
      clears_eq := hscan.clears_eq.trans (by rw [htaken])
      le := by have := hscan.le; omega
      le_length := fun _ => hscan.le_length (by omega) }
  | case6 j found hj byte hb hb' hbit ih =>
    have hfree : clears page base j = List.range' (base + j) 1 ++ clears page base (j + 1) :=
      clears_free (by omega) fun k hk hk' => by
        obtain rfl : k = j := by omega
        simpa using hbit
    have hscan := ih (h.grow (by omega))
    rw [scanRun, if_pos hj, if_neg hb, if_neg hb', if_neg hbit]
    refine { hscan with
      clears_eq := ?_
      le := by have := hscan.le; omega
      le_length := fun _ => hscan.le_length (by omega) }
    rw [hscan.clears_eq, h.expand_grow, List.append_assoc, ← hfree]
  | case7 j found hj =>
    rw [scanRun, if_neg hj]
    exact
      { clears_eq := rfl
        le := le_rfl
        le_length := id
        endsAt := h
        through := fun _ => Nat.le_of_not_lt hj
        stop := fun hlt => absurd hlt hj }

theorem endsAt_none (base j : ℕ) : EndsAt base j none := fun _ h => nomatch h

/-- A run that was found is free, from its first cluster on. -/
theorem Scanned.start_le {j' : ℕ} {r : ℕ × ℕ} (h : Scanned page base j none (j', some r)) :
    ∃ k, r.1 = base + k ∧ j ≤ k ∧ k < 8 * page.length ∧ ∀ p, j ≤ p → p < 8 * page.length →
      lsbFirst.bit page p = false → k ≤ p := by
  obtain ⟨hend, hpos⟩ := h.endsAt r rfl
  have hclears : List.range' r.1 r.2 ++ clears page base j' = clears page base j := by
    simpa using h.clears_eq
  have hfirst : r.1 ∈ clears page base j := by
    rw [← hclears, List.mem_append, List.mem_range'_1]
    omega
  obtain ⟨k, hk, heq⟩ := List.mem_map.1 hfirst
  rw [← heq] at hfirst
  refine ⟨k, heq.symm, (mem_clears.1 hfirst).1, (mem_clears.1 hfirst).2.1, fun p hp hp' hbit => ?_⟩
  have hmem : base + p ∈ List.range' r.1 r.2 ++ clears page base j' :=
    hclears ▸ mem_clears.2 ⟨hp, hp', hbit⟩
  rcases List.mem_append.1 hmem with hrun | hrest
  · have := (List.mem_range'_1.1 hrun).1
    omega
  · have := (mem_clears.1 hrest).1
    omega

theorem lt_scanRun (page : Bytes) (base : ℕ) (hj : j < 8 * page.length) :
    j < (scanRun page base j none).1 := by
  have hscan := scanRun_spec page (endsAt_none base j)
  rcases hout : scanRun page base j none with ⟨j', found⟩
  rw [hout] at hscan
  rcases found with _ | r
  · exact lt_of_lt_of_le hj (hscan.through rfl)
  · obtain ⟨k, hk, hle, -⟩ := hscan.start_le
    have := hscan.endsAt r rfl
    show j < j'
    omega

/-- The runs of a page from the bit `j` on are added, and their clusters counted. -/
def mapPage (page : Bytes) (base j : ℕ) (map : Dict) (free : ℕ) : Dict × ℕ :=
  if j < 8 * page.length then
    let next := scanRun page base j none
    match next.2 with
    | none => mapPage page base next.1 map free
    | some r => mapPage page base next.1 (put r.1 r.2 map) (free + r.2)
  else (map, free)
termination_by 8 * page.length - j
decreasing_by all_goals
  have := lt_scanRun page base (j := j) (by assumption)
  omega

/-- The bytes of the bitmap that have a bit of a cluster. -/
def endOfClusters (regionLength : ℕ) : ℕ := (regionLength + 7) / 8

/-- What is read of the bitmap at the byte `i`: up to 1 MiB. -/
def pageAt (bits : Bytes) (last i : ℕ) : Bytes := (bits.drop i).take (min (1 <<< 20) (last - i))

/-- The pages of the bitmap from the byte `i` on.  A bitmap that is too short is read for ever. -/
def mapPages (bits : Bytes) (last i : ℕ) (map : Dict) (free : ℕ) : Option (Dict × ℕ) :=
  if i < last then
    if pageAt bits last i = [] then none
    else
      let found := mapPage (pageAt bits last i) (2 + 8 * i) 0 map free
      mapPages bits last (i + (pageAt bits last i).length) found.1 found.2
  else some (map, free)
termination_by last - i
decreasing_by
  have := List.length_pos_of_ne_nil ‹_›
  omega

/-- `map_free_space()`: the runs of free clusters, and how many clusters these are.  What was
counted beyond the last cluster is taken off. -/
def mapFreeSpace (bits : Bytes) (regionLength : ℕ) : Option (Dict × ℤ) := do
  let last := endOfClusters regionLength
  let remainder := 8 * last - regionLength
  let (map, free) ← mapPages bits last 0 [] 0
  if remainder = 0 then return (map, (free : ℤ))
  let run ← map.getLast?
  let map := map.dropLast
  return (if remainder < run.2 then put run.1 (run.2 - remainder) map else map,
    (free : ℤ) - remainder)

theorem bit_take {bits : Bytes} {last k : ℕ} (hk : k < 8 * last) :
    lsbFirst.bit (bits.take last) k = lsbFirst.bit bits k := by
  rw [BitOrder.bit, BitOrder.bit, List.getD_eq_getElem?_getD, List.getElem?_take_of_lt (by omega),
    ← List.getD_eq_getElem?_getD]

theorem bit_take_of_le {bits : Bytes} {last k : ℕ} (hk : 8 * last ≤ k) :
    lsbFirst.bit (bits.take last) k = false := by
  have hnone : (bits.take last)[k / 8]? = none :=
    List.getElem?_eq_none (by rw [List.length_take]; omega)
  rw [BitOrder.bit, List.getD_eq_getElem?_getD, hnone]
  simp

/-! ### What is found -/

/-- The clusters whose bits are clear. -/
def freeClusters (bits : Bytes) (regionLength : ℕ) : List ℕ :=
  (List.range' 2 regionLength).filter fun c => !lsbFirst.bit bits (c - 2)

variable {map : Dict} {p last i : ℕ}

/-- What is known of the runs of a page. -/
structure Mapped (page : Bytes) (base j : ℕ) (map : Dict) (out : Dict × ℕ) : Prop where
  proper : Proper out.1
  expand_eq : expand out.1 = expand map ++ clears page base j
  free_eq : out.2 = (expand out.1).length
  -- The clear bits at the end of a page belong to the last run.
  tail : ∀ p, j ≤ p → p < 8 * page.length →
    (∀ k, p ≤ k → k < 8 * page.length → lsbFirst.bit page k = false) →
    ∃ init r, out.1 = init ++ [r] ∧ r.1 ≤ base + p ∧ r.1 + r.2 = base + 8 * page.length

theorem mapPage_spec (page : Bytes) (hproper : Proper map)
    (hbelow : ∀ c ∈ expand map, c < base + j) :
    Mapped page base j map (mapPage page base j map (expand map).length) := by
  induction hm : 8 * page.length - j using Nat.strongRecOn generalizing j map with
  | _ m ih =>
    rw [mapPage]
    by_cases hj : j < 8 * page.length
    · rw [if_pos hj]
      have hscan := scanRun_spec page (endsAt_none base j)
      have hlt := lt_scanRun page base hj
      dsimp only
      rcases hout : scanRun page base j none with ⟨j', _ | r⟩
      · rw [hout] at hscan hlt
        have hend : 8 * page.length ≤ j' := hscan.through rfl
        have hnone : clears page base j = [] := by
          simpa [clears_end hend] using hscan.clears_eq.symm
        rw [mapPage, if_neg (by omega)]
        refine ⟨hproper, by rw [hnone, List.append_nil], rfl, fun p hp hp' hclear => ?_⟩
        have hmem : base + p ∈ clears page base j :=
          mem_clears.2 ⟨hp, hp', hclear p le_rfl hp'⟩
        rw [hnone] at hmem
        cases hmem
      · rw [hout] at hscan hlt
        obtain ⟨hends, hpos⟩ := hscan.endsAt r rfl
        obtain ⟨k, hk, hle, -, hfirst⟩ := hscan.start_le
        have hclears : expand [r] ++ clears page base j' = clears page base j := by
          simpa using hscan.clears_eq
        have hput : put r.1 r.2 map = map ++ [r] :=
          hproper.put_fresh fun hmem => by have := hbelow _ hmem; omega
        have hproper' : Proper (map ++ [r]) := hproper.concat hpos fun c hc => by
          have := hbelow c hc
          omega
        have hbelow' : ∀ c ∈ expand (map ++ [r]), c < base + j' := by
          intro c hc
          rw [expand_append, List.mem_append] at hc
          rcases hc with hmem | hmem
          · have := hbelow c hmem
            dsimp only at hlt
            omega
          · obtain ⟨x, hx, -, hlast⟩ := mem_expand.1 hmem
            rw [List.mem_singleton.1 hx] at hlast
            exact hends ▸ hlast
        have hlength : (expand map).length + r.2 = (expand (map ++ [r])).length := by simp
        have hrest := ih (8 * page.length - j') (by dsimp only at hlt; omega) hproper' hbelow' rfl
        show Mapped page base j map (mapPage page base j' (put r.1 r.2 map) (_ + r.2))
        rw [hput, hlength]
        refine ⟨hrest.proper, ?_, hrest.free_eq, fun p hp hp' hclear => ?_⟩
        · rw [hrest.expand_eq, expand_append, List.append_assoc, hclears]
        · by_cases hj' : j' < 8 * page.length
          · refine hrest.tail p (le_of_not_gt fun hlt' => ?_) hp' hclear
            have hset : lsbFirst.bit page j' = true := hscan.stop hj'
            rw [hclear j' (by omega) hj'] at hset
            cases hset
          · have hend := hscan.le_length (by omega)
            have hstart := hfirst p hp hp' (hclear p le_rfl hp')
            dsimp only at hends hend
            rw [mapPage, if_neg hj']
            exact ⟨map, r, rfl, by omega, by omega⟩
    · rw [if_neg hj]
      refine ⟨hproper, by rw [clears_end (by omega), List.append_nil], rfl, fun p hp hp' => ?_⟩
      omega

theorem length_pageAt (h : last ≤ bits.length) :
    (pageAt bits last i).length = min (1 <<< 20) (last - i) := by
  rw [pageAt, List.length_take, List.length_drop]
  omega

theorem bit_pageAt (h : last ≤ bits.length) (hk : k < 8 * (pageAt bits last i).length) :
    lsbFirst.bit (pageAt bits last i) k = lsbFirst.bit (bits.take last) (8 * i + k) := by
  have hlength := length_pageAt (i := i) h
  have hdiv : (8 * i + k) / 8 = i + k / 8 := by omega
  have hmod : (8 * i + k) % 8 = k % 8 := by omega
  rw [BitOrder.bit, BitOrder.bit, hdiv, hmod]
  congr 2
  rw [List.getD_eq_getElem?_getD, List.getD_eq_getElem?_getD, pageAt,
    List.getElem?_take_of_lt (by omega), List.getElem?_drop, List.getElem?_take_of_lt (by omega)]

theorem clears_pageAt (h : last ≤ bits.length) (hi : i ≤ last) :
    clears (pageAt bits last i) (2 + 8 * i) 0 ++
        clears (bits.take last) 2 (8 * (i + (pageAt bits last i).length)) =
      clears (bits.take last) 2 (8 * i) := by
  have hlength := length_pageAt (i := i) h
  have hfit : 8 * i + 8 * (pageAt bits last i).length ≤ 8 * (bits.take last).length := by
    rw [List.length_take]
    omega
  rw [clears_split hfit, Nat.mul_add]
  congr 1
  have hrange : List.range' (8 * i) (8 * (pageAt bits last i).length) =
      (List.range' 0 (8 * (pageAt bits last i).length)).map (8 * i + ·) := by
    rw [List.map_add_range', Nat.add_zero]
  have hbits : ∀ k ∈ List.range' 0 (8 * (pageAt bits last i).length),
      (!lsbFirst.bit (pageAt bits last i) k) = !lsbFirst.bit (bits.take last) (8 * i + k) :=
    fun k hk => by rw [bit_pageAt h (by have := (List.mem_range'_1.1 hk).2; omega)]
  rw [hrange, List.filter_map, List.map_map, clears, Nat.sub_zero, List.filter_congr hbits]
  exact List.map_congr_left fun k _ => Nat.add_assoc 2 (8 * i) k

theorem mapPages_spec (map : Dict) (i : ℕ) (h : last ≤ bits.length) (hproper : Proper map)
    (hbelow : ∀ c ∈ expand map, c < 2 + 8 * i) (hi : i ≤ last) :
    ∃ map', mapPages bits last i map (expand map).length = some (map', (expand map').length) ∧
      Proper map' ∧ expand map' = expand map ++ clears (bits.take last) 2 (8 * i) ∧
      ∀ p, i < last → 8 * (last - 1) ≤ p → p < 8 * last →
        (∀ k, p ≤ k → k < 8 * last → lsbFirst.bit (bits.take last) k = false) →
        ∃ init r, map' = init ++ [r] ∧ r.1 ≤ 2 + p ∧ r.1 + r.2 = 2 + 8 * last := by
  induction hm : last - i using Nat.strongRecOn generalizing i map with
  | _ m ih =>
    have htake : (bits.take last).length = last := by
      rw [List.length_take]
      omega
    rw [mapPages]
    by_cases hlast : i < last
    · have hlength := length_pageAt (i := i) h
      have hpos : 0 < (pageAt bits last i).length := by omega
      have hpage : Mapped (pageAt bits last i) (2 + 8 * i) 0 map
          (mapPage (pageAt bits last i) (2 + 8 * i) 0 map (expand map).length) :=
        mapPage_spec _ hproper hbelow
      rw [if_pos hlast, if_neg (List.length_pos_iff.1 hpos)]
      rcases hout : mapPage (pageAt bits last i) (2 + 8 * i) 0 map (expand map).length with
        ⟨map₁, free⟩
      rw [hout] at hpage
      obtain rfl : free = (expand map₁).length := hpage.free_eq
      have hexpand : expand map₁ = expand map ++ clears (pageAt bits last i) (2 + 8 * i) 0 :=
        hpage.expand_eq
      have hbelow' : ∀ c ∈ expand map₁, c < 2 + 8 * (i + (pageAt bits last i).length) := by
        intro c hc
        rw [hexpand, List.mem_append] at hc
        rcases hc with hmem | hmem
        · have := hbelow c hmem
          omega
        · obtain ⟨k, hk, rfl⟩ := List.mem_map.1 hmem
          have := (mem_clears.1 hmem).2.1
          omega
      obtain ⟨map', hrest, hproper', hexpand', htail⟩ :=
        ih (last - (i + (pageAt bits last i).length)) (by omega) map₁
          (i + (pageAt bits last i).length)
          hpage.proper hbelow' (by omega) rfl
      refine ⟨map', hrest, hproper', ?_, fun p _ hp hp' hclear => ?_⟩
      · rw [hexpand', hexpand, List.append_assoc, clears_pageAt h hi]
      · by_cases hmore : i + (pageAt bits last i).length < last
        · exact htail p hmore hp hp' hclear
        · -- This was the last page.
          rw [mapPages, if_neg hmore] at hrest
          simp only [Option.some.injEq, Prod.mk.injEq] at hrest
          obtain ⟨init, r, hmap, hstart, hend⟩ := hpage.tail (p - 8 * i) (by omega) (by omega)
            fun k hk hk' => by
              rw [bit_pageAt h hk']
              exact hclear _ (by omega) (by omega)
          exact ⟨init, r, hrest.1 ▸ hmap, by omega, by omega⟩
    · rw [if_neg hlast]
      refine ⟨map, rfl, hproper, ?_, fun p hi' => absurd hi' hlast⟩
      rw [clears_end (by omega), List.append_nil]

theorem freeClusters_eq (h : last ≤ bits.length) {regionLength : ℕ}
    (hregion : regionLength ≤ 8 * last)
    (hpadding : ∀ k, regionLength ≤ k → k < 8 * last → lsbFirst.bit bits k = false) :
    clears (bits.take last) 2 0 =
      freeClusters bits regionLength ++ List.range' (2 + regionLength)
      (8 * last - regionLength) := by
  have htake : (bits.take last).length = last := by
    rw [List.length_take]
    omega
  have hrest : clears (bits.take last) 2 regionLength =
      List.range' (2 + regionLength) (8 * last - regionLength) := by
    rw [clears_free (n := 8 * last - regionLength) (by omega) fun k hk hk' => by
      rw [bit_take (by omega), hpadding k hk (by omega)], clears_end (by omega), List.append_nil]
  rw [clears_split (n := regionLength) (by omega), Nat.zero_add, hrest, freeClusters,
    ← List.map_add_range' (a := 2) (s := 0), List.filter_map]
  congr 2
  refine List.filter_congr fun k hk => ?_
  rw [bit_take (by have := (List.mem_range'_1.1 hk).2; omega), Function.comp,
    Nat.add_sub_cancel_left]

/-- **The free clusters are found.**  The scan of the bitmap finds the clusters whose bits are
clear, in their order, and counts them, provided the bits behind the last cluster are clear. -/
theorem mapFreeSpace_spec (bits : Bytes) (regionLength : ℕ)
    (hlength : endOfClusters regionLength ≤ bits.length)
    (hpadding : ∀ k, regionLength ≤ k → k < 8 * endOfClusters regionLength →
      lsbFirst.bit bits k = false) :
    ∃ map, mapFreeSpace bits regionLength =
        some (map, ((freeClusters bits regionLength).length : ℤ)) ∧
      Proper map ∧ expand map = freeClusters bits regionLength := by
  have hregion : regionLength ≤ 8 * endOfClusters regionLength ∧
      8 * endOfClusters regionLength < regionLength + 8 := by
    rw [endOfClusters]
    omega
  obtain ⟨map, hpages, hproper, hexpand, htail⟩ := mapPages_spec [] 0 hlength
    proper_nil (fun c hc => nomatch hc) (Nat.zero_le _)
  have hall := freeClusters_eq hlength hregion.1 hpadding
  rw [Nat.mul_zero, expand_nil, List.nil_append, hall] at hexpand
  rw [expand_nil, List.length_nil] at hpages
  rw [mapFreeSpace]
  simp only [hpages, Option.bind_eq_bind, Option.bind_some]
  by_cases hzero : 8 * endOfClusters regionLength - regionLength = 0
  · rw [hzero, List.range'_zero, List.append_nil] at hexpand
    rw [if_pos hzero, hexpand]
    exact ⟨map, rfl, hproper, hexpand⟩
  · -- The bits behind the last cluster were counted with the last run.
    obtain ⟨init, ⟨start, length⟩, rfl, hstart, hend⟩ :=
      htail regionLength (by omega) (by omega) (by omega) fun k hk hk' => by
        rw [bit_take hk']
        exact hpadding k hk hk'
    dsimp only at hstart hend
    generalize hrem : 8 * endOfClusters regionLength - regionLength = remainder at *
    have hsplit : List.range' start length =
        List.range' start (length - remainder) ++ List.range' (2 + regionLength) remainder := by
      rw [← Nat.sub_add_cancel (by omega : remainder ≤ length), ← List.range'_append_1]
      congr 2 <;> omega
    have hrest : expand init ++ List.range' start (length - remainder) =
        freeClusters bits regionLength := by
      rw [expand_append, expand_cons, expand_nil, List.append_nil, hsplit,
        ← List.append_assoc] at hexpand
      exact List.append_cancel_right hexpand
    have hcount : ((expand (init ++ [(start, length)])).length : ℤ) - remainder =
        ((freeClusters bits regionLength).length : ℤ) := by
      rw [hexpand, List.length_append, List.length_range']
      push_cast
      omega
    rw [if_neg hzero, List.getLast?_concat, Option.bind_some, List.dropLast_concat, hcount]
    by_cases hpart : remainder < length
    · have hshort : Proper (init ++ [(start, length - remainder)]) :=
        hproper.front (by omega) (by omega)
      rw [if_pos hpart, put_of_fresh hproper.before_fresh]
      exact ⟨_, rfl, hshort, by simpa using hrest⟩
    · rw [if_neg hpart]
      refine ⟨init, rfl, hproper.left, ?_⟩
      rw [← hrest, Nat.sub_eq_zero_of_le (by omega), List.range'_zero, List.append_nil]

/-! ### Compacting -/

/-- Runs that begin where the run at `k` ends are merged into it; there are not more of them than
entries. -/
def absorb : ℕ → ℕ → ℕ → Dict → Dict
  | 0, _, _, d => d
  | n + 1, k, v, d =>
    match d.lookup (k + v) with
    | some w => if w = 0 then d else absorb n k (v + w) (remove (k + v) (put k (v + w) d))
    | none => d

/-- One pass over the runs, by their starts. -/
def compactPass (d : Dict) : Dict :=
  (d.insertionSort fun r r' => r.1 ≤ r'.1).foldl (fun d' r => absorb d'.length r.1 r.2 d') d

/-- Passes until the runs stay the same. -/
def compactRuns : ℕ → Dict → Dict
  | 0, d => d
  | n + 1, d => if (compactPass d).Perm d then d else compactRuns n (compactPass d)

/-- No run begins where another ends. -/
def Compact (d : Dict) : Prop := ∀ r ∈ d, ∀ r' ∈ d, r'.1 ≠ r.1 + r.2

variable {d d' : Dict} {v w : ℕ} {r : ℕ × ℕ}

/-- No run begins at `k`. -/
def Fresh (d : Dict) (k : ℕ) : Prop := ∀ r ∈ d, r.1 ≠ k

/-- A run that a pass has still to look at is there, or it was merged, and so was what followed
it. -/
def Pending (d : Dict) (r : ℕ × ℕ) : Prop := r ∈ d ∨ Fresh d r.1 ∧ Fresh d (r.1 + r.2)

/-- What merging the runs behind the run at `k` leaves. -/
structure Absorbed (d : Dict) (k v : ℕ) (d' : Dict) : Prop where
  proper : Proper d'
  expand_perm : (expand d').Perm (expand d)
  fresh : ∃ v', (k, v') ∈ d' ∧ Fresh d' (k + v')
  keys : ∀ c, Fresh d c → Fresh d' c
  mem : ∀ r ∈ d', r.1 ≠ k → r ∈ d
  pending : ∀ r, r.1 ≠ k → r ∈ d ∨ Fresh d r.1 ∧ (Fresh d (r.1 + r.2) ∨ r.1 + r.2 = k + v) →
    Pending d' r

theorem absorb_spec (h : Proper d) (hk : (k, v) ∈ d) (hn : d.length ≤ n) :
    Absorbed d k v (absorb n k v d) := by
  induction n generalizing d v with
  | zero =>
    have := List.length_pos_of_mem hk
    omega
  | succ n ih =>
    rw [absorb]
    rcases hnext : d.lookup (k + v) with _ | w
    · have hfresh : Fresh d (k + v) := lookup_eq_none.1 hnext
      refine ⟨h, List.Perm.refl _, ⟨v, hk, hfresh⟩, fun _ hc => hc, fun _ hr _ => hr, ?_⟩
      rintro r - (hr | ⟨hr, hr' | heq⟩)
      · exact .inl hr
      · exact .inr ⟨hr, hr'⟩
      · exact .inr ⟨hr, heq ▸ hfresh⟩
    · have hmem : (k + v, w) ∈ d := h.keyed.lookup_eq.1 hnext
      have hpos := h.pos _ hmem
      obtain ⟨rest, hd, hd'⟩ := h.join hk hmem
      dsimp only at hpos ⊢
      rw [if_neg (by omega)]
      generalize remove (k + v) (put k (v + w) d) = d₁ at hd'
      have hexpand : (expand d₁).Perm (expand d) := by
        refine (expand_perm hd').trans (List.Perm.trans ?_ (expand_perm hd).symm)
        simp [List.range'_append_1, ← List.append_assoc]
      have hproper : Proper d₁ := by
        refine ⟨fun r hr => ?_, hexpand.nodup_iff.2 h.nodup⟩
        rcases List.mem_cons.1 (hd'.mem_iff.1 hr) with rfl | hr
        · dsimp only
          omega
        · exact h.pos r (hd.mem_iff.2 (by simp [hr]))
      have hkeyed := h.keyed.perm hd
      have hlength : d₁.length ≤ n := by
        rw [hd'.length_eq]
        rw [hd.length_eq] at hn
        simpa using hn
      have hrest := ih hproper (hd'.mem_iff.2 List.mem_cons_self) hlength
      have hkeys : ∀ c, Fresh d c → Fresh d₁ c := by
        intro c hc r hr
        rcases List.mem_cons.1 (hd'.mem_iff.1 hr) with rfl | hr
        · exact hc (k, v) hk
        · exact hc r (hd.mem_iff.2 (by simp [hr]))
      have hgone : Fresh d₁ (k + v) := by
        intro r hr
        rcases List.mem_cons.1 (hd'.mem_iff.1 hr) with rfl | hr
        · have := h.pos _ hk
          dsimp only at this ⊢
          omega
        · exact (keyed_cons.1 (keyed_cons.1 hkeyed).2).1 r hr
      refine ⟨hrest.proper, hrest.expand_perm.trans hexpand, hrest.fresh,
        fun c hc => hrest.keys c (hkeys c hc), fun r hr hne => ?_, fun r hne hr => ?_⟩
      · rcases List.mem_cons.1 (hd'.mem_iff.1 (hrest.mem r hr hne)) with rfl | hr
        · exact absurd rfl hne
        · exact hd.mem_iff.2 (by simp [hr])
      · refine hrest.pending r hne ?_
        rcases hr with hr | ⟨hr, hr' | heq⟩
        · -- The run may be the one that was merged.
          rcases List.mem_cons.1 (hd.mem_iff.1 hr) with rfl | hr
          · exact absurd rfl hne
          rcases List.mem_cons.1 hr with rfl | hr
          · exact .inr ⟨hgone, .inr (by dsimp only; omega)⟩
          · exact .inl (hd'.mem_iff.2 (List.mem_cons_of_mem _ hr))
        · exact .inr ⟨hkeys _ hr, .inl (hkeys _ hr')⟩
        · exact .inr ⟨hkeys _ hr, .inl (heq ▸ hgone)⟩

/-- A pass over the runs `todo`: those before them are merged with what followed them. -/
theorem foldl_absorb_spec (todo : Dict) (h : Proper d) (htodo : Keyed todo)
    (hpending : ∀ r ∈ todo, Pending d r)
    (hdone : ∀ r ∈ d, r ∈ todo ∨ Fresh d (r.1 + r.2)) :
    let d' := todo.foldl (fun d' r => absorb d'.length r.1 r.2 d') d
    Proper d' ∧ (expand d').Perm (expand d) ∧ Compact d' := by
  induction todo generalizing d with
  | nil =>
    exact ⟨h, List.Perm.refl _, fun r hr => (hdone r hr).resolve_left List.not_mem_nil⟩
  | cons r todo ih =>
    obtain ⟨hother, htodo'⟩ := keyed_cons.1 htodo
    rw [List.foldl_cons]
    rcases hpending r List.mem_cons_self with hr | ⟨hr, hr'⟩
    · have hnext := absorb_spec h hr le_rfl
      obtain ⟨v', hmem, hfresh⟩ := hnext.fresh
      have hrest := ih hnext.proper htodo'
        (fun x hx => hnext.pending x (hother x hx) <| by
          rcases hpending x (List.mem_cons_of_mem _ hx) with hx | ⟨hx, hx'⟩
          · exact .inl hx
          · exact .inr ⟨hx, .inl hx'⟩)
        (fun x hx => by
          by_cases hkey : x.1 = r.1
          · obtain rfl : x = (r.1, v') := hnext.proper.keyed.unique hx hmem hkey
            exact .inr hfresh
          · rcases hdone x (hnext.mem x hx hkey) with hx' | hx'
            · rcases List.mem_cons.1 hx' with rfl | hx'
              · exact absurd rfl hkey
              · exact .inl hx'
            · exact .inr (hnext.keys _ hx'))
      exact ⟨hrest.1, hrest.2.1.trans hnext.expand_perm, hrest.2.2⟩
    · -- The run was merged before, and nothing follows it.
      have hsame : absorb d.length r.1 r.2 d = d := by
        rcases d.length with _ | n
        · rfl
        · rw [absorb, lookup_eq_none.2 hr']
      rw [hsame]
      refine ih h htodo' (fun x hx => hpending x (List.mem_cons_of_mem _ hx)) fun x hx => ?_
      rcases hdone x hx with hx' | hx'
      · rcases List.mem_cons.1 hx' with rfl | hx'
        · exact .inr hr'
        · exact .inl hx'
      · exact .inr hx'

theorem compactPass_spec (h : Proper d) :
    Proper (compactPass d) ∧ (expand (compactPass d)).Perm (expand d) ∧
    Compact (compactPass d) := by
  have hperm := List.perm_insertionSort (fun r r' : ℕ × ℕ => r.1 ≤ r'.1) d
  exact foldl_absorb_spec _ h (h.keyed.perm hperm.symm) (fun r hr => .inl (hperm.mem_iff.1 hr))
    fun r hr => .inl (hperm.mem_iff.2 hr)

/-- Runs that do not follow each other stay as they are. -/
theorem compactPass_of_compact (hcompact : Compact d) : compactPass d = d := by
  have hmem : ∀ r ∈ d.insertionSort (fun r r' => r.1 ≤ r'.1), r ∈ d := fun r hr =>
    (List.perm_insertionSort (fun r r' : ℕ × ℕ => r.1 ≤ r'.1) d).mem_iff.1 hr
  rw [compactPass]
  generalize d.insertionSort (fun r r' => r.1 ≤ r'.1) = todo at hmem
  induction todo with
  | nil => rfl
  | cons r todo ih =>
    have hsame : absorb d.length r.1 r.2 d = d := by
      rcases d.length with _ | n
      · rfl
      · rw [absorb, lookup_eq_none.2 (hcompact r (hmem r List.mem_cons_self))]
    rw [List.foldl_cons, hsame]
    exact ih fun r' hr' => hmem r' (List.mem_cons_of_mem _ hr')

/-- **Compacting.**  The same clusters remain, and no run begins where another ends; the second pass
finds that nothing is left to merge. -/
theorem compactRuns_spec (h : Proper d) (hn : 2 ≤ n) :
    Proper (compactRuns n d) ∧ (expand (compactRuns n d)).Perm (expand d) ∧
      compactPass (compactRuns n d) = compactRuns n d := by
  obtain ⟨n, rfl⟩ : ∃ m, n = m + 2 := ⟨n - 2, by omega⟩
  obtain ⟨hproper, hperm, hcompact⟩ := compactPass_spec h
  have hfix := compactPass_of_compact hcompact
  rw [compactRuns]
  by_cases hsame : (compactPass d).Perm d
  · rw [if_pos hsame]
    refine ⟨h, List.Perm.refl _, compactPass_of_compact fun r hr r' hr' => ?_⟩
    exact hcompact r (hsame.mem_iff.2 hr) r' (hsame.mem_iff.2 hr')
  · rw [if_neg hsame, compactRuns, hfix, if_pos (List.Perm.refl _)]
    exact ⟨hproper, hperm, hfix⟩

end FreeSpace

end Ps2Ripper
