import Mathlib.Data.List.Basic
import Mathlib.Data.List.Lattice
import Mathlib.Data.List.Perm.Basic
import Mathlib.Data.List.Nodup

/-!
# Runs of numbers

Sets of numbers as runs, a start and a length each, and dictionaries of runs that keep the order in
which their keys were inserted.

* `expand`: the numbers of the runs, one after the other;
* `put`, `remove`: assignment and deletion, where the key is the start of a run;
* `Keyed`: no key is there twice;
* `Proper`: no run is empty, and no number is in two of them;
* how the numbers change when a run is put or removed.
-/

open List (Perm)
open scoped List

namespace Runs

/-- Runs by their starts, in the order of insertion. -/
abbrev Dict : Type := List (ℕ × ℕ)

/-- The numbers of the runs. -/
def expand (runs : Dict) : List ℕ := runs.flatMap fun r => List.range' r.1 r.2

/-- `d[k] = v`. -/
def put (k v : ℕ) : Dict → Dict
  | [] => [(k, v)]
  | r :: rest => if r.1 = k then (k, v) :: rest else r :: put k v rest

/-- `del d[k]`. -/
def remove (k : ℕ) (d : Dict) : Dict := d.eraseP fun r => r.1 = k

/-- No key is there twice. -/
def Keyed (d : Dict) : Prop := (d.map Prod.fst).Nodup

/-- No run is empty, and no number is in two of them. -/
structure Proper (d : Dict) : Prop where
  pos : ∀ r ∈ d, 0 < r.2
  nodup : (expand d).Nodup

variable {d d' e : Dict} {k v w c : ℕ}

@[simp] theorem expand_nil : expand [] = [] := rfl

@[simp] theorem expand_cons (r : ℕ × ℕ) (d : Dict) :
    expand (r :: d) = List.range' r.1 r.2 ++ expand d := List.flatMap_cons ..

@[simp] theorem expand_append (d e : Dict) : expand (d ++ e) = expand d ++ expand e :=
  List.flatMap_append ..

theorem mem_expand : c ∈ expand d ↔ ∃ r ∈ d, r.1 ≤ c ∧ c < r.1 + r.2 := by
  simp [expand, List.mem_range'_1]

theorem expand_perm (h : d.Perm e) : (expand d).Perm (expand e) := h.flatMap_right _

theorem proper_nil : Proper [] := ⟨fun _ h => absurd h List.not_mem_nil, List.nodup_nil⟩

theorem Proper.perm (h : Proper d) (hd : d.Perm e) : Proper e :=
  ⟨fun r hr => h.pos r (hd.mem_iff.2 hr), (expand_perm hd).nodup_iff.1 h.nodup⟩

theorem Proper.start_mem (h : Proper d) (hk : (k, v) ∈ d) : k ∈ expand d := by
  have hpos := h.pos _ hk
  exact mem_expand.2 ⟨_, hk, Nat.le_refl k, Nat.lt_add_of_pos_right hpos⟩

theorem Proper.tail {r : ℕ × ℕ} (h : Proper (r :: d)) : Proper d :=
  ⟨fun x hx => h.pos x (List.mem_cons_of_mem _ hx),
    (List.nodup_append.1 (expand_cons r d ▸ h.nodup)).2.1⟩

/-- No other run has the start of the first. -/
theorem Proper.head_fresh {r : ℕ × ℕ} (h : Proper (r :: d)) : ∀ x ∈ d, x.1 ≠ r.1 := by
  intro x hx heq
  have hnodup := h.nodup
  rw [expand_cons] at hnodup
  have hpos := h.pos r List.mem_cons_self
  have hmem : r.1 ∈ List.range' r.1 r.2 := by
    rw [List.mem_range'_1]
    omega
  exact (List.nodup_append.1 hnodup).2.2 _ hmem _ (heq ▸ h.tail.start_mem (v := x.2) hx) rfl

theorem Proper.left (h : Proper (d ++ e)) : Proper d :=
  ⟨fun x hx => h.pos x (List.mem_append_left _ hx),
    (List.nodup_append.1 (expand_append d e ▸ h.nodup)).1⟩

theorem Proper.right (h : Proper (d ++ e)) : Proper e :=
  ⟨fun x hx => h.pos x (List.mem_append_right _ hx),
    (List.nodup_append.1 (expand_append d e ▸ h.nodup)).2.1⟩

theorem Proper.disjoint (h : Proper (d ++ e)) (hd : c ∈ expand d) : c ∉ expand e :=
  fun he => (List.nodup_append.1 (expand_append d e ▸ h.nodup)).2.2 c hd c he rfl

/-- No run before it has the start of a run. -/
theorem Proper.before_fresh {r : ℕ × ℕ} (h : Proper (d ++ r :: e)) : ∀ x ∈ d, x.1 ≠ r.1 :=
  fun x hx => (h.perm List.perm_middle).head_fresh x (List.mem_append_left _ hx)

/-! ### Assignment -/

theorem put_of_fresh (h : ∀ r ∈ d, r.1 ≠ k) : put k v d = d ++ [(k, v)] := by
  induction d with
  | nil => rfl
  | cons r d ih =>
    rw [put, if_neg (h r List.mem_cons_self), ih fun x hx => h x (List.mem_cons_of_mem _ hx)]
    rfl

theorem put_last (h : ∀ r ∈ d, r.1 ≠ k) : put k w (d ++ [(k, v)]) = d ++ [(k, w)] := by
  induction d with
  | nil => simp [put]
  | cons r d ih =>
    rw [List.cons_append, put, if_neg (h r List.mem_cons_self),
      ih fun x hx => h x (List.mem_cons_of_mem _ hx)]
    rfl

/-- A start that is no number of the runs is new. -/
theorem Proper.fresh (h : Proper d) (hk : k ∉ expand d) : ∀ r ∈ d, r.1 ≠ k := by
  rintro ⟨l, v⟩ hr rfl
  exact hk (h.start_mem hr)

theorem Proper.put_fresh (h : Proper d) (hk : k ∉ expand d) : put k v d = d ++ [(k, v)] :=
  put_of_fresh (h.fresh hk)

/-- A run behind all others is added. -/
theorem Proper.concat {r : ℕ × ℕ} (h : Proper d) (hpos : 0 < r.2)
    (hbelow : ∀ c ∈ expand d, c < r.1) : Proper (d ++ [r]) := by
  refine ⟨fun x hx => ?_, ?_⟩
  · rcases List.mem_append.1 hx with hmem | hmem
    · exact h.pos x hmem
    · rwa [List.mem_singleton.1 hmem]
  · rw [expand_append, expand_cons, expand_nil, List.append_nil]
    refine List.nodup_append.2 ⟨h.nodup, List.nodup_range', fun c hc c' hc' heq => ?_⟩
    have hlt := hbelow c hc
    have hle := (List.mem_range'_1.1 hc').1
    omega

/-- The numbers of a run, from some of them on. -/
theorem expand_split (d : Dict) (hw : w ≤ v) :
    expand (d ++ [(k, v)]) = expand (d ++ [(k, w)]) ++ List.range' (k + w) (v - w) := by
  have hrange : List.range' k v = List.range' k w ++ List.range' (k + w) (v - w) := by
    rw [List.range'_append_1, Nat.add_sub_cancel' hw]
  simp [hrange]

/-- The first numbers of the last run are kept. -/
theorem Proper.front (h : Proper (d ++ [(k, v)])) (hpos : 0 < w) (hw : w ≤ v) :
    Proper (d ++ [(k, w)]) := by
  refine ⟨fun x hx => ?_, ?_⟩
  · rcases List.mem_append.1 hx with hmem | hmem
    · exact h.left.pos x hmem
    · rwa [List.mem_singleton.1 hmem]
  · have hnodup := h.nodup
    rw [expand_split d hw] at hnodup
    exact (List.nodup_append.1 hnodup).1

/-- The last numbers of the last run are kept. -/
theorem Proper.back (h : Proper (d ++ [(k, v)])) (hw : w < v) :
    Proper (d ++ [(k + w, v - w)]) := by
  refine ⟨fun x hx => ?_, ?_⟩
  · rcases List.mem_append.1 hx with hmem | hmem
    · exact h.left.pos x hmem
    · rw [List.mem_singleton.1 hmem]
      dsimp only
      omega
  · have hnodup := h.nodup
    rw [expand_split d (Nat.le_of_lt hw)] at hnodup
    refine hnodup.sublist ?_
    simp only [expand_append, expand_cons, expand_nil, List.append_nil, List.append_assoc]
    exact (List.sublist_append_right _ _).append_left _

/-! ### Keys -/

theorem keyed_cons {r : ℕ × ℕ} : Keyed (r :: d) ↔ (∀ x ∈ d, x.1 ≠ r.1) ∧ Keyed d := by
  rw [Keyed, List.map_cons, List.nodup_cons, Keyed]
  simp only [List.mem_map, not_exists, not_and, ne_eq]

theorem Keyed.perm (h : Keyed d) (hd : d.Perm e) : Keyed e := (hd.map Prod.fst).nodup_iff.1 h

theorem Proper.keyed (h : Proper d) : Keyed d := by
  induction d with
  | nil => exact List.nodup_nil
  | cons r d ih => exact keyed_cons.2 ⟨h.head_fresh, ih h.tail⟩

/-- A run that is there is the only one with its start. -/
theorem Keyed.perm_remove (h : Keyed d) (hk : (k, v) ∈ d) : d.Perm ((k, v) :: remove k d) := by
  induction d with
  | nil => exact absurd hk List.not_mem_nil
  | cons r d ih =>
    obtain ⟨hfresh, hkeyed⟩ := keyed_cons.1 h
    rcases List.mem_cons.1 hk with rfl | hd
    · rw [remove, List.eraseP_cons_of_pos (by simp)]
    · have hne : ¬r.1 = k := fun heq => hfresh _ hd heq.symm
      rw [remove, List.eraseP_cons_of_neg (by simpa using hne)]
      exact ((ih hkeyed hd).cons r).trans (List.Perm.swap ..)

theorem put_perm (k v : ℕ) (d : Dict) : (put k v d).Perm ((k, v) :: remove k d) := by
  induction d with
  | nil => exact List.Perm.refl _
  | cons r d ih =>
    rw [put, remove]
    by_cases hr : r.1 = k
    · rw [if_pos hr, List.eraseP_cons_of_pos (by simpa using hr)]
    · rw [if_neg hr, List.eraseP_cons_of_neg (by simpa using hr)]
      exact (ih.cons r).trans (List.Perm.swap ..)

theorem Keyed.lookup_eq (h : Keyed d) : d.lookup k = some v ↔ (k, v) ∈ d := by
  induction d with
  | nil => simp
  | cons r d ih =>
    obtain ⟨l, w⟩ := r
    obtain ⟨hfresh, hkeyed⟩ := keyed_cons.1 h
    rw [List.lookup_cons]
    by_cases hl : k = l
    · subst hl
      have hother : (k, v) ∉ d := fun hmem => hfresh _ hmem rfl
      simp [hother, eq_comm]
    · have hbeq : (k == l) = false := by simpa using hl
      rw [hbeq]
      simp [hl, ih hkeyed]

theorem Keyed.unique {r r' : ℕ × ℕ} (h : Keyed d) (hr : r ∈ d) (hr' : r' ∈ d) (heq : r.1 = r'.1) :
    r = r' := by
  have hfound : d.lookup r.1 = some r.2 := h.lookup_eq.2 hr
  have hfound' : d.lookup r'.1 = some r'.2 := h.lookup_eq.2 hr'
  rw [heq, hfound'] at hfound
  exact Prod.ext heq (Option.some.inj hfound).symm

theorem lookup_eq_none : d.lookup k = none ↔ ∀ r ∈ d, r.1 ≠ k := by
  rw [List.lookup_eq_none_iff]
  exact forall₂_congr fun r _ => by rw [bne_iff_ne, ne_comm]

/-! ### Joining -/

/-- A run and the one that begins at its end become one run. -/
theorem Proper.join (h : Proper d) (hk : (k, v) ∈ d) (hnext : (k + v, w) ∈ d) :
    ∃ rest, d.Perm ((k, v) :: (k + v, w) :: rest) ∧
      (remove (k + v) (put k (v + w) d)).Perm ((k, v + w) :: rest) := by
  have hv : 0 < v := h.pos _ hk
  have hperm := h.keyed.perm_remove hk
  have hkeyed : Keyed (remove k d) := (keyed_cons.1 (h.keyed.perm hperm)).2
  have hnext' : (k + v, w) ∈ remove k d := by
    rcases List.mem_cons.1 (hperm.mem_iff.1 hnext) with heq | hmem
    · simp only [Prod.mk.injEq] at heq
      omega
    · exact hmem
  have hperm' := hkeyed.perm_remove hnext'
  refine ⟨_, hperm.trans (hperm'.cons _), ?_⟩
  -- The first of the two keeps its key.
  have hput := put_perm k (v + w) d
  have hkeyed' : Keyed (put k (v + w) d) := by
    refine Keyed.perm ?_ hput.symm
    exact keyed_cons.2 ⟨(keyed_cons.1 (h.keyed.perm hperm)).1, hkeyed⟩
  have hmem : (k + v, w) ∈ put k (v + w) d := hput.mem_iff.2 (List.mem_cons_of_mem _ hnext')
  refine List.Perm.cons_inv (a := (k + v, w)) ?_
  calc (k + v, w) :: remove (k + v) (put k (v + w) d)
      _ ~ put k (v + w) d := (hkeyed'.perm_remove hmem).symm
      _ ~ (k, v + w) :: remove k d := hput
      _ ~ (k, v + w) :: (k + v, w) :: remove (k + v) (remove k d) := hperm'.cons _
      _ ~ (k + v, w) :: (k, v + w) :: remove (k + v) (remove k d) := List.Perm.swap ..

end Runs
