import Ps2Ripper.Storage.BootSector

/-!
# The compressed up-case table

`upcase_expand` of `FATtools/exFAT.py`, and that it undoes what `gen_upcase_compressed` of
`FATtools/mkfat.py` does to the table of upper cases.

* `upcaseExpand`: the expansion, which fails where `struct` does;
* `Expands`: what a part of a compressed table expands to, whatever follows it;
* `upcaseExpand_genUpcaseCompressed`: the round trip.
-/

namespace Ps2Ripper

open Binary

/-- `upcase_expand` from the expanded unit `i` on.  The last unit is never the head of a run, and a
byte alone is no unit. -/
def upcaseExpand : Bytes → ℕ → Option Bytes
  | [], _ => some []
  | [_], _ => none
  | [a, b], _ => some [a, b]
  | [_, _, _], _ => none
  | a :: b :: c :: d :: rest, i =>
    if value [a, b] = 0xFFFF then
      let word := value [c, d]
      if word = 0 ∨ i + word ≤ 65536 then
        (upcaseExpand rest (i + word)).map ((List.range' i word).flatMap (bytes 2) ++ ·)
      else none
    else (upcaseExpand (c :: d :: rest) (i + 1)).map ([a, b] ++ ·)

variable {upcase : ℕ → Field 2} {a b c n : ℕ} {l l' : List Bytes}

/-- Entries of a compressed table that stand for the units from `a` to `b`. -/
def Expands (upcase : ℕ → Field 2) (a b : ℕ) (l : List Bytes) : Prop :=
  a ≤ b ∧ ∀ tail, tail ≠ [] → upcaseExpand (l.flatten ++ tail) a =
    (upcaseExpand tail b).map (((List.range' a (b - a)).flatMap fun j => (upcase j).1) ++ ·)

theorem Expands.nil (upcase : ℕ → Field 2) (a : ℕ) : Expands upcase a a [] :=
  ⟨le_rfl, fun tail _ => by simp⟩

theorem Expands.append (h : Expands upcase a b l) (h' : Expands upcase b c l') :
    Expands upcase a c (l ++ l') := by
  refine ⟨h.1.trans h'.1, fun tail htail => ?_⟩
  have hsplit : List.range' a (c - a) = List.range' a (b - a) ++ List.range' b (c - b) := by
    have hb : b = a + (b - a) := by have := h.1; omega
    have hc : c - a = b - a + (c - b) := by have := h.1; have := h'.1; omega
    rw [hc, ← List.range'_append_1, ← hb]
  rw [List.flatten_append, List.append_assoc, h.2 _ (by simp [htail]), h'.2 tail htail, hsplit,
    List.flatMap_append, Option.map_map]
  congr 1
  funext out
  simp

theorem value_pair {f : Field 2} (h : f.1 ≠ [0xFF, 0xFF]) : ∃ x y, f.1 = [x, y] ∧
    value [x, y] ≠ 0xFFFF := by
  obtain ⟨data, hdata⟩ := f
  obtain ⟨x, y, rfl⟩ := List.length_eq_two.1 hdata
  refine ⟨x, y, rfl, fun hvalue => h ?_⟩
  have hbytes := bytes_value [x, y]
  rw [hvalue] at hbytes
  exact hbytes.symm

/-- A unit as it is. -/
theorem expands_unit (h : (upcase a).1 ≠ [0xFF, 0xFF]) :
    Expands upcase a (a + 1) [(upcase a).1] := by
  obtain ⟨x, y, hpair, hvalue⟩ := value_pair h
  refine ⟨Nat.le_succ a, fun tail htail => ?_⟩
  have hunit : (List.range' a (a + 1 - a)).flatMap (fun j => (upcase j).1) = [x, y] := by
    rw [Nat.add_sub_cancel_left]
    simp [hpair]
  rw [hunit, hpair]
  rcases tail with _ | ⟨t, _ | ⟨u, rest⟩⟩
  · exact absurd rfl htail
  · rfl
  · show upcaseExpand (x :: y :: t :: u :: rest) a = _
    rw [upcaseExpand, if_neg hvalue]

/-- A run of units that are their own upper case. -/
theorem expands_run (hend : a + n < 65536)
    (hown : ∀ j, a ≤ j → j < a + n → (upcase j).1 = bytes 2 j) :
    Expands upcase a (a + n) [[0xFF, 0xFF], bytes 2 n] := by
  refine ⟨Nat.le_add_right a n, fun tail htail => ?_⟩
  obtain ⟨x, y, hpair⟩ := List.length_eq_two.1 (length_bytes 2 n)
  have hvalue : value [x, y] = n := by
    rw [← hpair, value_bytes_of_lt (by omega)]
  have hunits : (List.range' a (a + n - a)).flatMap (fun j => (upcase j).1) =
      (List.range' a n).flatMap (bytes 2) := by
    rw [Nat.add_sub_cancel_left]
    refine List.flatMap_congr fun j hj => ?_
    rw [List.mem_range'_1] at hj
    exact hown j hj.1 hj.2
  rw [hunits, hpair]
  show upcaseExpand (0xFF :: 0xFF :: x :: y :: tail) a = _
  rw [upcaseExpand, if_pos (by decide), hvalue, if_pos (.inr (by omega))]

/-- Units that are their own upper case, as they are. -/
theorem expands_own (hend : a + n < 65536)
    (hown : ∀ j, a ≤ j → j < a + n → (upcase j).1 = bytes 2 j) :
    Expands upcase a (a + n) ((List.range' a n).map (bytes 2)) := by
  induction n with
  | zero => exact Expands.nil upcase a
  | succ n ih =>
    have hlast : (upcase (a + n)).1 = bytes 2 (a + n) := hown _ (by omega) (by omega)
    have hne : (upcase (a + n)).1 ≠ [0xFF, 0xFF] := by
      intro heq
      have hvalue : value (bytes 2 (a + n)) = value [0xFF, 0xFF] := by rw [← hlast, heq]
      rw [value_bytes_of_lt (by omega)] at hvalue
      have : value [0xFF, 0xFF] = 65535 := by decide
      omega
    rw [List.range'_1_concat, List.map_append, List.map_singleton, ← hlast]
    exact (ih (by omega) fun j hj hj' => hown j hj (by omega)).append (expands_unit hne)

/-! ### The compression -/

/-- What the loop has made of the units before `n`: the run that may be replaced is at the end. -/
def Compressed (upcase : ℕ → Field 2) (n : ℕ) : List Bytes × Option ℕ → Prop
  | (tab, none) => Expands upcase 0 n tab
  | (tab, some start) => start < n ∧ (∀ j, start ≤ j → j < n → (upcase j).1 = bytes 2 j) ∧
      ∃ front, tab = front ++ (List.range' start (n - start)).map (bytes 2) ∧
        Expands upcase 0 start front

variable {tab : List Bytes} {run : Option ℕ}

theorem Compressed.expands (h : Compressed upcase n (tab, run)) (hn : n < 65536) :
    Expands upcase 0 n tab := by
  rcases run with _ | start
  · exact h
  · obtain ⟨hlt, hown, front, rfl, hfront⟩ := h
    have hend : start + (n - start) = n := by omega
    have hpending := expands_own (a := start) (n := n - start) (by omega) fun j hj hj' =>
      hown j hj (by omega)
    rw [hend] at hpending
    exact hfront.append hpending

/-- The unit is the last entry, and those before it stand for the units before it. -/
theorem compressUnit_front (h : Compressed upcase n (tab, run)) (hn : n < 65536) :
    ∃ front, (compressUnit upcase (tab, run) n).1 = front ++ [(upcase n).1] ∧
      Expands upcase 0 n front := by
  rw [compressUnit.eq_def]
  dsimp only
  by_cases hown : Binary.bytes 2 n ≠ (upcase n).1
  · rw [if_pos hown]
    rcases run with _ | start
    · exact ⟨tab, rfl, h⟩
    · dsimp only
      by_cases hlong : 2 < n - start
      · obtain ⟨hlt, hruns, front, rfl, hfront⟩ := h
        have htake : (front ++ (List.range' start (n - start)).map (bytes 2)).take
            ((front ++ (List.range' start (n - start)).map (bytes 2)).length - (n - start)) =
              front := by
          rw [List.length_append, List.length_map, List.length_range', Nat.add_sub_cancel,
            List.take_left]
        have hend : start + (n - start) = n := by omega
        have hrun := expands_run (a := start) (n := n - start) (by omega) fun j hj hj' =>
          hruns j hj (by omega)
        rw [hend] at hrun
        rw [if_pos hlong, htake]
        exact ⟨_, rfl, hfront.append hrun⟩
      · rw [if_neg hlong]
        exact ⟨tab, rfl, h.expands hn⟩
  · rw [if_neg hown]
    exact ⟨tab, rfl, h.expands hn⟩

theorem compressUnit_compressed (h : Compressed upcase n (tab, run)) (hn : n < 65535)
    (hne : (upcase n).1 ≠ [0xFF, 0xFF]) :
    Compressed upcase (n + 1) (compressUnit upcase (tab, run) n) := by
  by_cases hown : Binary.bytes 2 n ≠ (upcase n).1
  · obtain ⟨front, hfront, hexpands⟩ := compressUnit_front h (by omega)
    have hrun : (compressUnit upcase (tab, run) n).2 = none := by
      rw [compressUnit.eq_def]
      dsimp only
      rw [if_pos hown]
      rcases run with _ | start
      · rfl
      · dsimp only
        split <;> rfl
    have hout : compressUnit upcase (tab, run) n = (front ++ [(upcase n).1], none) :=
      Prod.ext hfront hrun
    rw [hout]
    exact hexpands.append (expands_unit hne)
  · have hself : (upcase n).1 = bytes 2 n := (not_not.1 hown).symm
    rw [compressUnit.eq_def]
    dsimp only
    rw [if_neg hown]
    rcases run with _ | start
    · refine ⟨Nat.lt_succ_self n, fun j hj hj' => ?_, tab, ?_, h⟩
      · obtain rfl : j = n := by
          simp only [Option.getD_none] at hj
          omega
        exact hself
      · simp [hself]
    · obtain ⟨hlt, hruns, front, rfl, hfront⟩ := h
      refine ⟨by simp only [Option.getD_some]; omega, fun j hj hj' => ?_, front, ?_, hfront⟩
      · by_cases hj'' : j < n
        · exact hruns j hj hj''
        · obtain rfl : j = n := by omega
          exact hself
      · have hlength : n + 1 - start = n - start + 1 := by omega
        have hend : start + (n - start) = n := by omega
        rw [Option.getD_some, hlength, List.range'_1_concat, hend, List.map_append,
          List.map_singleton, hself, List.append_assoc]

theorem compressUnits_compressed (hne : ∀ i < 65535, (upcase i).1 ≠ [0xFF, 0xFF]) (hn : n ≤ 65535) :
    Compressed upcase n ((List.range n).foldl (compressUnit upcase) ([], none)) := by
  induction n with
  | zero => exact Expands.nil upcase 0
  | succ n ih =>
    rw [List.range_succ, List.foldl_concat]
    exact compressUnit_compressed (ih (by omega)) (by omega) (hne n (by omega))

theorem upcaseExpand_compressUnits (hne : ∀ i < 65535, (upcase i).1 ≠ [0xFF, 0xFF])
    (hn : n = 65535) :
    upcaseExpand ((List.range (n + 1)).foldl (compressUnit upcase) ([], none)).1.flatten 0 =
      some ((List.range (n + 1)).flatMap fun i => (upcase i).1) := by
  have hbefore := compressUnits_compressed hne hn.le
  obtain ⟨front, hfront, -, hexpands⟩ := compressUnit_front hbefore (by omega)
  obtain ⟨x, y, hpair⟩ := List.length_eq_two.1 (upcase n).2
  rw [List.range_succ, List.foldl_concat, hfront, List.flatten_append, List.flatten_singleton,
    hexpands _ (by rw [hpair]; simp), hpair, List.flatMap_append, List.flatMap_singleton, hpair,
    Nat.sub_zero, ← List.range_eq_range']
  rfl

/-- **The table is found again.**  Expanding the compressed table gives the upper case of each of
the 65536 units, provided none but the last has 0xFFFF for its upper case, which is the head of a
run. -/
theorem upcaseExpand_genUpcaseCompressed (upcase : ℕ → Field 2)
    (hne : ∀ i < 65535, (upcase i).1 ≠ [0xFF, 0xFF]) :
    upcaseExpand (genUpcaseCompressed upcase) 0 =
      some ((List.range 65536).flatMap fun i => (upcase i).1) :=
  upcaseExpand_compressUnits hne rfl

theorem upcaseExpand_genUpcaseCompressed_ascii :
    upcaseExpand (genUpcaseCompressed fun i => ⟨bytes 2 (if 97 ≤ i ∧ i ≤ 122 then i - 32 else i),
        length_bytes 2 _⟩) 0 =
      some ((List.range 65536).flatMap fun i =>
        bytes 2 (if 97 ≤ i ∧ i ≤ 122 then i - 32 else i)) := by
  refine upcaseExpand_genUpcaseCompressed _ fun i hi heq => ?_
  have hvalue := congrArg value heq
  rw [value_bytes_of_lt (by split <;> omega)] at hvalue
  have : value [0xFF, 0xFF] = 65535 := by decide
  split at hvalue <;> omega

end Ps2Ripper
