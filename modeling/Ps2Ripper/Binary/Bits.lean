import Mathlib.Data.List.Basic
import Mathlib.Data.List.GetD
import Mathlib.Data.Nat.Bits

/-!
# Bits of byte strings

A byte string as a string of bits, and runs of bits that are set or cleared a byte at a time.

* `BitOrder`: which bit of a byte comes first, with `lsbFirst` and `msbFirst`;
* `setRun`: the bits of the first byte, full bytes, and the bits of the last byte;
* `bit_setRun`: the bits of the run have the new value, the others that which they had.
-/

namespace Binary

/-- An order of the bits of a byte: the byte with nothing but the `r`-th of them, and that with
`todo` of them from `rem` on. -/
structure BitOrder where
  unit : ℕ → UInt8
  mask : ℕ → ℕ → UInt8
  unit_ne : ∀ r < 8, unit r ≠ 0
  mask_and : ∀ rem < 8, ∀ todo ≤ 8 - rem, ∀ r < 8,
    mask rem todo &&& unit r = if rem ≤ r ∧ r < rem + todo then unit r else 0

def lsbUnit (r : ℕ) : UInt8 := UInt8.ofNat (1 <<< r)

def lsbMask (rem todo : ℕ) : UInt8 := UInt8.ofNat ((0xFF >>> (8 - todo)) <<< rem)

theorem lsbUnit_ne : ∀ r < 8, lsbUnit r ≠ 0 := by decide

theorem lsbMask_and : ∀ rem < 8, ∀ todo ≤ 8 - rem, ∀ r < 8,
    lsbMask rem todo &&& lsbUnit r = if rem ≤ r ∧ r < rem + todo then lsbUnit r else 0 := by
  decide +kernel

/-- The lowest bit comes first. -/
def lsbFirst : BitOrder := ⟨lsbUnit, lsbMask, lsbUnit_ne, lsbMask_and⟩

def msbUnit (r : ℕ) : UInt8 := UInt8.ofNat (128 >>> r)

def msbMask (rem todo : ℕ) : UInt8 := UInt8.ofNat (((0xFF <<< (8 - todo)) &&& 0xFF) >>> rem)

theorem msbUnit_ne : ∀ r < 8, msbUnit r ≠ 0 := by decide

theorem msbMask_and : ∀ rem < 8, ∀ todo ≤ 8 - rem, ∀ r < 8,
    msbMask rem todo &&& msbUnit r = if rem ≤ r ∧ r < rem + todo then msbUnit r else 0 := by
  decide +kernel

/-- The highest bit comes first. -/
def msbFirst : BitOrder := ⟨msbUnit, msbMask, msbUnit_ne, msbMask_and⟩

namespace BitOrder

variable (o : BitOrder)

/-- Whether the `k`-th bit is set. -/
def bit (data : List UInt8) (k : ℕ) : Bool := data.getD (k / 8) 0 &&& o.unit (k % 8) != 0

/-- `todo` bits of a byte from `rem` on are set or cleared. -/
def setBits (clear : Bool) (rem todo : ℕ) (b : UInt8) : UInt8 :=
  if clear then b &&& ~~~o.mask rem todo else b ||| o.mask rem todo

/-- The bytes at `pos` are replaced. -/
def splice (data : List UInt8) (pos : ℕ) (new : List UInt8) : List UInt8 :=
  data.take pos ++ new ++ data.drop (pos + new.length)

/-- Full bytes are put at `pos`, up to 32768 of them at a time. -/
def fillOctets (clear : Bool) (data : List UInt8) (pos octets : ℕ) : List UInt8 :=
  if octets = 0 then data
  else
    let n := min 32768 octets
    fillOctets clear (splice data pos (List.replicate n (if clear then 0 else 0xFF))) (pos + n)
      (octets - n)
termination_by octets
decreasing_by omega

/-- Bits of the byte at `pos`, which has to be there. -/
def setByte (clear : Bool) (data : List UInt8) (pos rem todo : ℕ) : Option (List UInt8) :=
  (data[pos]?).map fun b => data.set pos (o.setBits clear rem todo b)

/-- The bits from the byte at `pos` on. -/
def setFrom (clear : Bool) (data : List UInt8) (pos length : ℕ) : Option (List UInt8) :=
  let octets := length / 8
  let data := fillOctets clear data pos octets
  let rem := length % 8
  if rem = 0 then some data else o.setByte clear data (pos + octets) 0 rem

/-- A run of bits is set or cleared. -/
def setRun (clear : Bool) (data : List UInt8) (start length : ℕ) : Option (List UInt8) :=
  let pos := start / 8
  let rem := start % 8
  if rem = 0 then o.setFrom clear data pos length
  else do
    let todo := min (8 - rem) length
    let data ← o.setByte clear data pos rem todo
    o.setFrom clear data (pos + 1) (length - todo)

variable {o} {clear : Bool} {data new : List UInt8} {pos rem todo start length k n : ℕ}

theorem setBits_and (hrem : rem < 8) (htodo : todo ≤ 8 - rem) {r : ℕ} (hr : r < 8) (b : UInt8) :
    (o.setBits clear rem todo b &&& o.unit r != 0) =
      if rem ≤ r ∧ r < rem + todo then !clear else b &&& o.unit r != 0 := by
  have hmask := o.mask_and rem hrem todo htodo r hr
  have hunit := o.unit_ne r hr
  have hor : ∀ m u : UInt8, (b ||| m) &&& u = (b &&& u) ||| (m &&& u) := by
    intro m u
    simp [← UInt8.toBitVec_inj, BitVec.and_or_distrib_right]
  have hclear : ∀ m u : UInt8, (b &&& ~~~m) &&& u = (b &&& u) &&& ~~~(m &&& u) := by
    intro m u
    simp only [← UInt8.toBitVec_inj, UInt8.toBitVec_and, UInt8.toBitVec_not]
    ext i hi
    simp
    cases b.toBitVec[i] <;> cases m.toBitVec[i] <;> cases u.toBitVec[i] <;> rfl
  rw [setBits]
  cases clear with
  | false =>
    rw [if_neg (by decide), hor, hmask]
    split <;> simp [hunit]
  | true =>
    rw [if_pos rfl, hclear, hmask]
    split
    · have hnone : (b &&& o.unit r) &&& ~~~o.unit r = 0 := by
        simp [← UInt8.toBitVec_inj, BitVec.and_assoc]
      simp [hnone]
    · simp

/-- The bits of one byte. -/
theorem bit_setByte (o : BitOrder) (clear : Bool) (hpos : pos < data.length) (hrem : rem < 8)
    (htodo : todo ≤ 8 - rem) :
    ∃ data', o.setByte clear data pos rem todo = some data' ∧ data'.length = data.length ∧
      ∀ k, o.bit data' k =
        if 8 * pos + rem ≤ k ∧ k < 8 * pos + rem + todo then !clear else o.bit data k := by
  refine ⟨data.set pos (o.setBits clear rem todo data[pos]), ?_, by simp, fun k => ?_⟩
  · rw [setByte, List.getElem?_eq_getElem hpos]
    rfl
  have hr : k % 8 < 8 := Nat.mod_lt _ (by decide)
  by_cases hk : k / 8 = pos
  · subst hk
    rw [bit, bit, List.getD_eq_getElem _ _ (by simpa using hpos), List.getElem_set_self,
      setBits_and hrem htodo hr, List.getD_eq_getElem _ _ hpos]
    congr 1
    exact propext ⟨fun _ => by omega, fun _ => by omega⟩
  · rw [if_neg (by omega), bit, bit, List.getD_eq_getElem?_getD, List.getD_eq_getElem?_getD,
      List.getElem?_set_ne (Ne.symm hk)]

/-- What is put there is what was there. -/
theorem splice_self (h : (data.drop pos).take new.length = new) : splice data pos new = data := by
  have hsplit := List.take_append_drop new.length (data.drop pos)
  rw [h, List.drop_drop] at hsplit
  unfold splice
  rw [List.append_assoc, hsplit, List.take_append_drop]

theorem length_splice (h : pos + new.length ≤ data.length) :
    (splice data pos new).length = data.length := by
  simp [splice]
  omega

theorem getD_splice (h : pos + new.length ≤ data.length) (i : ℕ) :
    (splice data pos new).getD i 0 =
      if pos ≤ i ∧ i < pos + new.length then new.getD (i - pos) 0 else data.getD i 0 := by
  have htake : (data.take pos).length = pos := by
    rw [List.length_take]
    omega
  rw [splice, List.append_assoc]
  by_cases hbefore : i < pos
  · rw [if_neg (by omega), List.getD_append _ _ _ _ (by omega), List.getD_eq_getElem?_getD,
      List.getElem?_take_of_lt hbefore, ← List.getD_eq_getElem?_getD]
  · rw [List.getD_append_right _ _ _ _ (by omega), htake]
    by_cases hin : i < pos + new.length
    · rw [if_pos (by omega), List.getD_append _ _ _ _ (by omega)]
    · rw [if_neg (by omega), List.getD_append_right _ _ _ _ (by omega), List.getD_eq_getElem?_getD,
        List.getElem?_drop, List.getD_eq_getElem?_getD]
      congr 2
      omega

/-- The bits of full bytes. -/
theorem bit_splice (h : pos + n ≤ data.length) (k : ℕ) :
    o.bit (splice data pos (List.replicate n (if clear then 0 else 0xFF))) k =
      if 8 * pos ≤ k ∧ k < 8 * (pos + n) then !clear else o.bit data k := by
  have hunit := o.unit_ne (k % 8) (Nat.mod_lt _ (by decide))
  rw [bit, getD_splice (by simpa using h), List.length_replicate]
  by_cases hin : pos ≤ k / 8 ∧ k / 8 < pos + n
  · have hrange : 8 * pos ≤ k ∧ k < 8 * (pos + n) := by omega
    rw [if_pos hin, if_pos hrange, List.getD_replicate _ (by omega)]
    cases clear with
    | true => simp
    | false =>
      have hfull : ∀ u : UInt8, 0xFF &&& u = u := fun u => UInt8.neg_one_and
      simpa [hfull] using hunit
  · rw [if_neg hin, if_neg (by omega), bit]

theorem bit_fillOctets (o : BitOrder) (clear : Bool) {octets : ℕ} (h : pos + octets ≤ data.length) :
    (fillOctets clear data pos octets).length = data.length ∧
      ∀ k, o.bit (fillOctets clear data pos octets) k =
        if 8 * pos ≤ k ∧ k < 8 * (pos + octets) then !clear else o.bit data k := by
  induction octets using Nat.strongRecOn generalizing data pos with
  | _ octets ih =>
    rw [fillOctets]
    split
    · rename_i hzero
      exact ⟨rfl, fun k => by rw [if_neg (by omega)]⟩
    · rename_i hne
      have hn : 0 < min 32768 octets ∧ min 32768 octets ≤ octets := by omega
      generalize min 32768 octets = n at hn
      dsimp only
      have hlength : (splice data pos (List.replicate n (if clear then 0 else 0xFF))).length =
          data.length := length_splice (by simp; omega)
      have hfit : pos + n + (octets - n) ≤
          (splice data pos (List.replicate n (if clear then 0 else 0xFF))).length := by omega
      obtain ⟨hlength', hbits⟩ := ih (octets - n) (by omega) hfit
      refine ⟨hlength'.trans hlength, fun k => ?_⟩
      rw [hbits, bit_splice (by omega)]
      by_cases hrest : 8 * (pos + n) ≤ k ∧ k < 8 * (pos + n + (octets - n))
      · rw [if_pos hrest, if_pos (by omega)]
      · rw [if_neg hrest]
        congr 1
        exact propext ⟨fun _ => by omega, fun _ => by omega⟩

theorem bit_setFrom (o : BitOrder) (clear : Bool) (h : 8 * pos + length ≤ 8 * data.length) :
    ∃ data', o.setFrom clear data pos length = some data' ∧ data'.length = data.length ∧
      ∀ k, o.bit data' k =
        if 8 * pos ≤ k ∧ k < 8 * pos + length then !clear else o.bit data k := by
  obtain ⟨hlength, hbits⟩ := bit_fillOctets o clear
    (by omega : pos + length / 8 ≤ data.length)
  rw [setFrom]
  generalize fillOctets clear data pos (length / 8) = full at hlength hbits
  split
  · refine ⟨full, rfl, hlength, fun k => ?_⟩
    rw [hbits]
    congr 1
    exact propext ⟨fun _ => by omega, fun _ => by omega⟩
  · obtain ⟨data', hlast, hlength', hbits'⟩ := bit_setByte o clear
      (by omega : pos + length / 8 < full.length) (by decide : 0 < 8)
      (by omega : length % 8 ≤ 8 - 0)
    refine ⟨data', hlast, hlength'.trans hlength, fun k => ?_⟩
    rw [hbits', hbits]
    by_cases hlast : 8 * (pos + length / 8) + 0 ≤ k ∧ k < 8 * (pos + length / 8) + 0 + length % 8
    · rw [if_pos hlast, if_pos (by omega)]
    · rw [if_neg hlast]
      congr 1
      exact propext ⟨fun _ => by omega, fun _ => by omega⟩

/-- The bits of the run have the new value, the others that which they had. -/
theorem bit_setRun (o : BitOrder) (clear : Bool) (h : start + length ≤ 8 * data.length) :
    ∃ data', o.setRun clear data start length = some data' ∧ data'.length = data.length ∧
      ∀ k, o.bit data' k =
        if start ≤ k ∧ k < start + length then !clear else o.bit data k := by
  rw [setRun]
  split
  · obtain ⟨data', hset, hlength, hbits⟩ := bit_setFrom o clear
      (by omega : 8 * (start / 8) + length ≤ 8 * data.length)
    refine ⟨data', hset, hlength, fun k => ?_⟩
    rw [hbits]
    congr 1
    exact propext ⟨fun _ => by omega, fun _ => by omega⟩
  · dsimp only
    obtain ⟨first, hfirst, hlength, hbits⟩ := bit_setByte o clear
      (by omega : start / 8 < data.length) (Nat.mod_lt start (by decide)) (Nat.min_le_left _ length)
    obtain ⟨data', hset, hlength', hbits'⟩ := bit_setFrom o clear
      (by omega : 8 * (start / 8 + 1) + (length - min (8 - start % 8) length) ≤ 8 * first.length)
    rw [hfirst, Option.bind_eq_bind, Option.bind_some]
    refine ⟨data', hset, hlength'.trans hlength, fun k => ?_⟩
    rw [hbits', hbits]
    by_cases hrest : 8 * (start / 8 + 1) ≤ k ∧
        k < 8 * (start / 8 + 1) + (length - min (8 - start % 8) length)
    · rw [if_pos hrest, if_pos (by omega)]
    · rw [if_neg hrest]
      congr 1
      exact propext ⟨fun _ => by omega, fun _ => by omega⟩

end BitOrder

end Binary
