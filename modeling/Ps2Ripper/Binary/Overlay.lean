import Mathlib.Data.List.Basic
import Mathlib.Data.List.GetD

/-!
# Overlays

Sequences in which stretches are read and overwritten.

* `stretch f pos n`: the `n` elements from `pos` on;
* `overlay f pos data`: the sequence after `data` was put at `pos`;
* the elements of an overlay, inside and outside of what was put there, and how stretches and
  overlays of neighbouring positions compose.
-/

namespace Binary

variable {α : Type*} {f g : ℕ → α} {pos n i : ℕ} {data : List α}

/-- The `n` elements from `pos` on. -/
def stretch (f : ℕ → α) (pos n : ℕ) : List α := (List.range n).map fun i => f (pos + i)

/-- `data` is put over the elements from `pos` on. -/
def overlay (f : ℕ → α) (pos : ℕ) (data : List α) : ℕ → α := fun i =>
  if pos ≤ i then data.getD (i - pos) (f i) else f i

/-! ### Stretches -/

@[simp] theorem length_stretch (f : ℕ → α) (pos n : ℕ) : (stretch f pos n).length = n := by
  simp [stretch]

@[simp] theorem stretch_zero (f : ℕ → α) (pos : ℕ) : stretch f pos 0 = [] := rfl

theorem getElem_stretch (h : i < (stretch f pos n).length) :
    (stretch f pos n)[i] = f (pos + i) := by
  simp [stretch]

theorem stretch_congr {pos' : ℕ} (h : ∀ i < n, f (pos + i) = g (pos' + i)) :
    stretch f pos n = stretch g pos' n :=
  List.map_congr_left fun i hi => h i (List.mem_range.1 hi)

theorem stretch_add (f : ℕ → α) (pos m n : ℕ) :
    stretch f pos (m + n) = stretch f pos m ++ stretch f (pos + m) n := by
  simp [stretch, List.range_add, Nat.add_assoc]

theorem take_stretch (h : i ≤ n) : (stretch f pos n).take i = stretch f pos i := by
  obtain ⟨k, rfl⟩ := Nat.exists_eq_add_of_le h
  rw [stretch_add, List.take_left' (length_stretch f pos i)]

theorem drop_stretch (h : i ≤ n) : (stretch f pos n).drop i = stretch f (pos + i) (n - i) := by
  obtain ⟨k, rfl⟩ := Nat.exists_eq_add_of_le h
  rw [stretch_add, List.drop_left' (length_stretch f pos i), Nat.add_sub_cancel_left]

/-! ### Overlays -/

@[simp] theorem overlay_nil (f : ℕ → α) (pos : ℕ) : overlay f pos [] = f := by
  funext i
  simp [overlay]

theorem overlay_of_lt (h : i < pos) : overlay f pos data i = f i := if_neg (by omega)

theorem overlay_of_le (h : pos + data.length ≤ i) : overlay f pos data i = f i := by
  rw [overlay, if_pos (by omega), List.getD_eq_default _ _ (by omega)]

theorem overlay_add (h : i < data.length) : overlay f pos data (pos + i) = data[i] := by
  rw [overlay, if_pos (by omega), Nat.add_sub_cancel_left, List.getD_eq_getElem _ _ h]

theorem overlay_apply_congr (h : f i = g i) : overlay f pos data i = overlay g pos data i := by
  unfold overlay
  rw [h]

/-- A sequence that is looked at from `base` on. -/
theorem overlay_shift (f : ℕ → α) (base pos : ℕ) (data : List α) (i : ℕ) :
    overlay f (base + pos) data (base + i) = overlay (fun i => f (base + i)) pos data i := by
  simp [overlay, Nat.add_sub_add_left]

/-- Inside it is the data that counts, whatever was there before. -/
theorem overlay_congr (h : pos ≤ i) (h' : i < pos + data.length) :
    overlay f pos data i = overlay g pos data i := by
  obtain ⟨k, rfl⟩ := Nat.exists_eq_add_of_le h
  rw [overlay_add (by omega), overlay_add (by omega)]

theorem overlay_append (f : ℕ → α) (pos : ℕ) (a b : List α) :
    overlay f pos (a ++ b) = overlay (overlay f pos a) (pos + a.length) b := by
  funext i
  by_cases hbefore : i < pos
  · rw [overlay_of_lt hbefore, overlay_of_lt (by omega), overlay_of_lt hbefore]
  obtain ⟨k, rfl⟩ := Nat.exists_eq_add_of_le (Nat.not_lt.1 hbefore)
  by_cases hend : (a ++ b).length ≤ k
  · rw [List.length_append] at hend
    rw [overlay_of_le (by simp; omega), overlay_of_le (by omega), overlay_of_le (by omega)]
  rw [overlay_add (Nat.not_le.1 hend)]
  by_cases hfirst : k < a.length
  · rw [overlay_of_lt (i := pos + k) (by omega), overlay_add hfirst,
      List.getElem_append_left hfirst]
  · obtain ⟨l, rfl⟩ := Nat.exists_eq_add_of_le (Nat.not_lt.1 hfirst)
    have hsecond : l < b.length := by
      rw [List.length_append] at hend
      omega
    rw [← Nat.add_assoc, overlay_add hsecond, List.getElem_append_right (by omega)]
    simp

@[simp] theorem stretch_overlay (f : ℕ → α) (pos : ℕ) (data : List α) :
    stretch (overlay f pos data) pos data.length = data := by
  refine List.ext_getElem (by simp) fun i hi hi' => ?_
  rw [getElem_stretch, overlay_add hi']

end Binary
