import Ps2Ripper.Binary.Runs
import Ps2Ripper.Core.Models

/-!
# The table of an exFAT volume

The class `FAT` of `FATtools/FAT.py` for exFAT, and how the class `Chain` finds the runs of clusters
of a file in it.

* `Fat`: the entries on the disk, and those that were decoded;
* `Fat.get`, `Fat.set`, `Fat.markRun`: the accesses to entries;
* `Fat.countRun`, `Fat.getFrags`: following the entries from the first cluster of a chain;
* `Linked`: the entries lead through the runs, and `getFrags_eq`: then these runs are found.
-/

namespace Ps2Ripper

open Runs

/-- The end of a chain. -/
def Fat.last : ℕ := 0xFFFFFFFF

def Fat.reserved : ℕ := 0xFFFFFFF7

/-- The entries of `size` clusters, and the entries that were read or written before. -/
structure Fat where
  size : ℕ
  slots : ℕ → ℕ
  decoded : ℕ → Option ℕ
  decoded_eq : ∀ i v, decoded i = some v → v = slots i

namespace Fat

variable (f : Fat)

/-- The last cluster that has an entry. -/
def realLast : ℕ := min (reserved - 1) (f.size + 1)

/-- What an index is found to hold: the end mark if there is no such cluster. -/
def entry (index : ℕ) : ℕ :=
  if 2 ≤ index ∧ index ≤ f.realLast then f.slots index else last

theorem decoded_update {slots : ℕ → ℕ} {decoded : ℕ → Option ℕ}
    (h : ∀ i v, decoded i = some v → v = slots i) (index : ℕ) (i v : ℕ)
    (hi : Function.update decoded index (some (slots index)) i = some v) : v = slots i := by
  by_cases heq : i = index
  · subst heq
    rw [Function.update_self] at hi
    exact (Option.some.inj hi).symm
  · rw [Function.update_of_ne heq] at hi
    exact h i v hi

/-- The entry is read from the disk. -/
def load (index : ℕ) : ℕ × Fat :=
  (f.slots index, { f with
    decoded := Function.update f.decoded index (some (f.slots index))
    decoded_eq := decoded_update f.decoded_eq index })

/-- `fat[index]`. -/
def get (index : ℕ) : ℕ × Fat :=
  if 2 ≤ index ∧ index ≤ f.realLast then
    match f.decoded index with
    | some slot => if slot ≠ 0 then (slot, f) else f.load index
    | none => f.load index
  else (last, f)

theorem decoded_write {slots : ℕ → ℕ} {decoded : ℕ → Option ℕ}
    (h : ∀ i v, decoded i = some v → v = slots i) (new : ℕ → Option ℕ) (i v : ℕ)
    (hi : (new i).or (decoded i) = some v) : v = (new i).getD (slots i) := by
  rcases hnew : new i with _ | w
  · rw [hnew, Option.none_or] at hi
    exact h i v hi
  · rw [hnew, Option.some_or] at hi
    exact (Option.some.inj hi).symm

/-- Entries are written, and recorded as decoded. -/
def write (new : ℕ → Option ℕ) : Fat where
  size := f.size
  slots i := (new i).getD (f.slots i)
  decoded i := (new i).or (f.decoded i)
  decoded_eq := decoded_write f.decoded_eq new

/-- `fat[index] = value`; what is out of range is ignored. -/
def set (index value : ℕ) : Fat :=
  if 2 ≤ index ∧ index ≤ f.realLast then
    if value ≤ f.realLast ∨ reserved ≤ value then
      f.write fun i => if i = index then some value else none
    else f
  else f

/-- `mark_run(start, count)`: every cluster of the run is followed by the next one. -/
def markRun (start count : ℕ) : Fat :=
  if count = 0 then f
  else if start < 2 ∨ f.realLast < start then f
  else f.write fun i =>
    if start ≤ i ∧ i < start + count then some (if i + 1 = start + count then last else i + 1)
    else none

theorem get_fst (index : ℕ) : (f.get index).1 = f.entry index := by
  rw [get, entry]
  split
  · rcases hslot : f.decoded index with _ | slot
    · rfl
    · dsimp only
      split
      · exact f.decoded_eq _ _ hslot
      · rfl
  · rfl

/-- Reading changes no entry. -/
structure Same (f f' : Fat) : Prop where
  size : f'.size = f.size
  slots : f'.slots = f.slots

theorem Same.refl : Same f f := ⟨rfl, rfl⟩

variable {f} {f' f'' : Fat} {start count next index value i l s : ℕ} {runs : Dict}

theorem Same.trans (h : Same f f') (h' : Same f' f'') : Same f f'' :=
  ⟨h'.size.trans h.size, h'.slots.trans h.slots⟩

theorem Same.entry (h : Same f f') : f'.entry = f.entry := by
  funext i
  rw [Fat.entry, Fat.entry, realLast, realLast, h.size, h.slots]

theorem same_get (f : Fat) (index : ℕ) : Same f (f.get index).2 := by
  rw [get]
  split
  · split
    · split
      · exact .refl f
      · exact ⟨rfl, rfl⟩
    · exact ⟨rfl, rfl⟩
  · exact .refl f

theorem entry_of_lt (h : f.realLast < index) : f.entry index = last := if_neg (by omega)

theorem realLast_lt_last (f : Fat) : f.realLast + 1 < last := by
  rw [realLast, reserved, last]
  omega

/-! ### Following a chain -/

/-- `count_run(start)`: how many clusters of a run follow each other, and what comes after them. -/
def countRun (f : Fat) (start n : ℕ) : (ℕ × ℕ) × Fat :=
  if last ≤ start ∧ start ≤ last + 7 then ((n, start), f)
  else
    let next := f.get start
    if next.1 ≠ start + 1 then ((n, next.1), next.2) else countRun next.2 next.1 (n + 1)
termination_by last + 8 - start
decreasing_by
  have hnext : f.entry start = start + 1 := (f.get_fst start).symm.trans (not_not.1 ‹_›)
  have hlast := f.realLast_lt_last
  have hstart : start < last + 8 := by
    by_contra hlarge
    rw [entry_of_lt (by omega)] at hnext
    omega
  rw [get_fst, hnext]
  omega

/-- `_get_frags`: the runs of a chain, from its first cluster on.  The rounds are bounded, since the
entries may lead in a circle. -/
def getFrags : ℕ → Fat → ℕ → Dict → Option (Dict × Fat)
  | 0, _, _, _ => none
  | rounds + 1, f, start, runs =>
    let ((length, next), f) := f.countRun start 1
    let runs := put start length runs
    if next = last ∨ next + 1 = start + length then some (runs, f)
    else getFrags rounds f next runs

/-- In every cluster of the run there is the next one, and in the last `next`. -/
def Leads (f : Fat) (start count next : ℕ) : Prop :=
  ∀ i, start ≤ i → i < start + count → f.entry i = if i + 1 = start + count then next else i + 1

/-- The entries lead through the runs, and from the last of them to `next`. -/
def Linked (f : Fat) : Dict → ℕ → Prop
  | [], _ => True
  | [r], next => f.Leads r.1 r.2 next
  | r :: r' :: rest, next => f.Leads r.1 r.2 r'.1 ∧ f.Linked (r' :: rest) next

/-- No run begins where the run before it ends. -/
def Separate : Dict → Prop
  | r :: r' :: rest => r'.1 ≠ r.1 + r.2 ∧ Separate (r' :: rest)
  | _ => True

/-- The numbers are clusters of the volume. -/
def Within (f : Fat) (runs : Dict) : Prop := ∀ c ∈ expand runs, 2 ≤ c ∧ c ≤ f.realLast

theorem countRun_spec (hlast : start + count ≤ f.realLast + 1) (hcount : 0 < count)
    (h : f.Leads start count next) (hnext : next ≠ start + count) (n : ℕ) :
    ∃ f', f.countRun start n = ((n + count - 1, next), f') ∧ Same f f' := by
  induction count generalizing start n f with
  | zero => omega
  | succ count ih =>
    have hmax := f.realLast_lt_last
    have hentry := h start le_rfl (by omega)
    rw [countRun, if_neg (by omega)]
    dsimp only
    rw [get_fst, hentry]
    by_cases hone : count = 0
    · subst hone
      rw [if_pos rfl, if_pos hnext]
      exact ⟨_, rfl, same_get f start⟩
    · have hsame := same_get f start
      have hfollows : (if start + 1 = start + (count + 1) then next else start + 1) = start + 1 :=
        if_neg (by omega)
      have hlast' : start + 1 + count ≤ (f.get start).2.realLast + 1 := by
        rw [realLast, hsame.size]
        show _ ≤ f.realLast + 1
        omega
      have hleads : (f.get start).2.Leads (start + 1) count next := by
        intro i hi hi'
        rw [hsame.entry, h i (by omega) (by omega)]
        congr 1
        exact propext (by omega)
      rw [hfollows, if_neg (not_not.2 rfl)]
      obtain ⟨f', hrun, hsame'⟩ := ih hlast' (by omega) hleads (by omega) (n + 1)
      refine ⟨f', ?_, hsame.trans hsame'⟩
      rw [hrun]
      congr 2
      omega

/-! ### Links -/

theorem Leads.congr (h : f.Leads start count next)
    (hf : ∀ i, start ≤ i → i < start + count → f'.entry i = f.entry i) :
    f'.Leads start count next :=
  fun i hi hi' => (hf i hi hi').trans (h i hi hi')

/-- Only the entries of the clusters of the runs count. -/
theorem Linked.congr (h : f.Linked runs next) (hf : ∀ c ∈ expand runs, f'.entry c = f.entry c) :
    f'.Linked runs next := by
  induction runs with
  | nil => trivial
  | cons r rest ih =>
    have hhead : ∀ i, r.1 ≤ i → i < r.1 + r.2 → f'.entry i = f.entry i := fun i hi hi' =>
      hf i (mem_expand.2 ⟨r, List.mem_cons_self, hi, hi'⟩)
    cases rest with
    | nil => exact Leads.congr h hhead
    | cons r' rest =>
      exact ⟨h.1.congr hhead, ih h.2 fun c hc => hf c (List.mem_append_right _ hc)⟩

theorem linked_concat {r : ℕ × ℕ} :
    f.Linked (runs ++ [r]) next ↔ f.Linked runs r.1 ∧ f.Leads r.1 r.2 next := by
  induction runs with
  | nil => simp [Linked]
  | cons r' rest ih =>
    cases rest with
    | nil => exact Iff.rfl
    | cons r'' rest =>
      show _ ∧ f.Linked ((r'' :: rest) ++ [r]) next ↔ (_ ∧ _) ∧ _
      rw [ih, and_assoc]

theorem separate_concat {r r' : ℕ × ℕ} :
    Separate (runs ++ [r] ++ [r']) ↔ Separate (runs ++ [r]) ∧ r'.1 ≠ r.1 + r.2 := by
  induction runs with
  | nil => simp [Separate]
  | cons r'' rest ih =>
    cases rest with
    | nil => simp [Separate]
    | cons r₁ rest =>
      show _ ∧ Separate ((r₁ :: rest) ++ [r] ++ [r']) ↔ (_ ∧ Separate ((r₁ :: rest) ++ [r])) ∧ _
      rw [ih, and_assoc]

/-- The length of the last run does not matter. -/
theorem Separate.last {k v w : ℕ} (h : Separate (runs ++ [(k, v)])) :
    Separate (runs ++ [(k, w)]) := by
  induction runs with
  | nil => trivial
  | cons r rest ih =>
    cases rest with
    | nil => exact ⟨h.1, trivial⟩
    | cons r' rest => exact ⟨h.1, ih h.2⟩

theorem Separate.front {r : ℕ × ℕ} (h : Separate (runs ++ [r])) : Separate runs := by
  induction runs with
  | nil => trivial
  | cons r' rest ih =>
    cases rest with
    | nil => trivial
    | cons r'' rest => exact ⟨h.1, ih h.2⟩

theorem Within.end_le {r : ℕ × ℕ} (h : f.Within runs) (hr : r ∈ runs) (hpos : 0 < r.2) :
    2 ≤ r.1 ∧ r.1 + r.2 ≤ f.realLast + 1 := by
  have hfirst := h r.1 (mem_expand.2 ⟨r, hr, by omega, by omega⟩)
  have hlast := h (r.1 + r.2 - 1) (mem_expand.2 ⟨r, hr, by omega, by omega⟩)
  omega

/-- **A chain is found again.**  Where the entries lead through the runs, these runs are what is
found from the first cluster on, in their order. -/
theorem getFrags_eq {r : ℕ × ℕ} {rest : Dict} (found : Dict) (hproper : Proper (found ++ r :: rest))
    (hwithin : f.Within (r :: rest)) (hlinked : f.Linked (r :: rest) last)
    (hseparate : Separate (r :: rest)) (rounds : ℕ) (hrounds : rest.length < rounds) :
    ∃ f', getFrags rounds f r.1 found = some (found ++ r :: rest, f') ∧ Same f f' := by
  induction rest generalizing f r found rounds with
  | nil =>
    obtain ⟨rounds, rfl⟩ : ∃ k, rounds = k + 1 := ⟨rounds - 1, by omega⟩
    have hpos := hproper.pos r (by simp)
    have hend := (hwithin.end_le List.mem_cons_self hpos).2
    have hlast := f.realLast_lt_last
    obtain ⟨f', hrun, hsame⟩ := countRun_spec hend hpos hlinked (by omega) 1
    refine ⟨f', ?_, hsame⟩
    rw [getFrags, hrun]
    simp only [true_or, if_true]
    rw [put_of_fresh hproper.before_fresh, Nat.add_sub_cancel_left]
  | cons r' rest ih =>
    obtain ⟨rounds, rfl⟩ : ∃ k, rounds = k + 1 := ⟨rounds - 1, by omega⟩
    have hpos := hproper.pos r (by simp)
    have hend := (hwithin.end_le List.mem_cons_self hpos).2
    have hmem : r'.1 ∈ expand (r' :: rest) := hproper.right.tail.start_mem List.mem_cons_self
    have hlast := f.realLast_lt_last
    have hle := (hwithin _ (List.mem_append_right _ hmem)).2
    obtain ⟨f', hrun, hsame⟩ := countRun_spec hend hpos hlinked.1 hseparate.1 1
    -- The next run does not begin in this one.
    have hother : ¬r'.1 + 1 = r.1 + r.2 := by
      intro heq
      have hin : r'.1 ∈ expand [r] := mem_expand.2 ⟨r, List.mem_cons_self, by omega, by omega⟩
      exact (hproper.right : Proper ([r] ++ r' :: rest)).disjoint hin hmem
    have hwithin' : f'.Within (r' :: rest) := by
      intro c hc
      rw [realLast, hsame.size]
      exact hwithin c (List.mem_append_right _ hc)
    have hlinked' : f'.Linked (r' :: rest) last := hlinked.2.congr fun c _ => by rw [hsame.entry]
    obtain ⟨f'', hfrags, hsame'⟩ := ih (found ++ [r]) (by simpa using hproper) hwithin'
      hlinked' hseparate.2 rounds (by simpa using hrounds)
    refine ⟨f'', ?_, hsame.trans hsame'⟩
    rw [getFrags, hrun]
    dsimp only
    rw [put_of_fresh hproper.before_fresh, Nat.add_sub_cancel_left, if_neg (by omega), hfrags]
    simp

/-! ### Marking a chain -/

theorem realLast_write (f : Fat) (new : ℕ → Option ℕ) : (f.write new).realLast = f.realLast := rfl

theorem entry_write {new : ℕ → Option ℕ} (hindex : 2 ≤ index ∧ index ≤ f.realLast) :
    (f.write new).entry index = (new index).getD (f.entry index) := by
  rw [entry, entry, realLast_write, if_pos hindex, if_pos hindex]
  rfl

@[simp] theorem size_markRun (f : Fat) (start count : ℕ) :
    (f.markRun start count).size = f.size := by
  rw [markRun]
  split
  · rfl
  · split <;> rfl

@[simp] theorem size_set (f : Fat) (index value : ℕ) : (f.set index value).size = f.size := by
  rw [set]
  split
  · split <;> rfl
  · rfl

theorem entry_markRun (hpos : 0 < count) (hstart : 2 ≤ start)
    (hend : start + count ≤ f.realLast + 1) (i : ℕ) :
    (f.markRun start count).entry i =
      if start ≤ i ∧ i < start + count then if i + 1 = start + count then last else i + 1
      else f.entry i := by
  rw [markRun, if_neg (by omega), if_neg (by omega)]
  by_cases hindex : 2 ≤ i ∧ i ≤ f.realLast
  · rw [entry_write hindex]
    split <;> rfl
  · rw [if_neg (by omega), entry, entry, realLast_write, if_neg hindex, if_neg hindex]

theorem entry_set (hindex : 2 ≤ index ∧ index ≤ f.realLast)
    (hvalue : value ≤ f.realLast ∨ reserved ≤ value) (i : ℕ) :
    (f.set index value).entry i = if i = index then value else f.entry i := by
  rw [set, if_pos hindex, if_pos hvalue]
  by_cases hin : 2 ≤ i ∧ i ≤ f.realLast
  · rw [entry_write hin]
    split <;> rfl
  · rw [if_neg (by rintro rfl; exact hin hindex), entry, entry, realLast_write, if_neg hin,
      if_neg hin]

/-- A run of which the first clusters are kept, with the end mark in the last of them. -/
theorem Leads.set_last {w : ℕ} (h : f.Leads start count next) (hpos : 0 < w) (hw : w ≤ count)
    (hstart : 2 ≤ start) (hend : start + w ≤ f.realLast + 1) :
    (f.set (start + w - 1) last).Leads start w last := by
  intro i hi hi'
  rw [entry_set (by omega) (.inr (by decide))]
  by_cases heq : i = start + w - 1
  · rw [if_pos heq, if_pos (by omega)]
  · rw [if_neg heq, h i hi (by omega), if_neg (by omega), if_neg (by omega)]

end Fat

end Ps2Ripper
