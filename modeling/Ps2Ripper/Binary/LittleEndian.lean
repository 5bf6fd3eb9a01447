import Mathlib.Data.List.Basic
import Mathlib.Algebra.Order.Ring.Nat
import Mathlib.Tactic.Ring

/-!
# Little-endian fields

Numbers as bytes with the least significant first, and the regions of a byte string.

* `value`, `bytes`: inverse to each other on numbers that fit (`value_bytes`, `bytes_value`);
* `Field`: byte strings of a fixed length;
* `region`: the bytes at an offset, if all of them are there; `region_flatten` finds a field of a
  record that is written field after field.
-/

namespace Binary

/-- The number that bytes spell. -/
def value : List UInt8 → ℕ
  | [] => 0
  | b :: bs => b.toNat + 256 * value bs

/-- The low `n` bytes of a number. -/
def bytes : ℕ → ℕ → List UInt8
  | 0, _ => []
  | n + 1, v => UInt8.ofNat v :: bytes n (v / 256)

/-- Byte strings of length `n`. -/
abbrev Field (n : ℕ) : Type := {data : List UInt8 // data.length = n}

variable {n offset size : ℕ} {a b data : List UInt8}

@[simp] theorem length_bytes (n v : ℕ) : (bytes n v).length = n := by
  induction n generalizing v with
  | zero => rfl
  | succ n ih => simp [bytes, ih]

theorem value_bytes (n v : ℕ) : value (bytes n v) = v % 256 ^ n := by
  induction n generalizing v with
  | zero => simp [bytes, value, Nat.mod_one]
  | succ n ih =>
    have hbyte : (UInt8.ofNat v).toNat = v % 256 := rfl
    rw [bytes, value, ih, hbyte, pow_succ', Nat.mod_mul]

theorem value_bytes_of_lt {v : ℕ} (h : v < 256 ^ n) : value (bytes n v) = v := by
  rw [value_bytes, Nat.mod_eq_of_lt h]

theorem value_lt (data : List UInt8) : value data < 256 ^ data.length := by
  induction data with
  | nil => simp [value]
  | cons b bs ih =>
    have hb := b.toNat_lt
    rw [value, List.length_cons, pow_succ']
    omega

theorem bytes_value (data : List UInt8) : bytes data.length (value data) = data := by
  induction data with
  | nil => rfl
  | cons b bs ih =>
    have hb := b.toNat_lt
    have hlow : UInt8.ofNat (b.toNat + 256 * value bs) = b := by
      apply UInt8.toNat_inj.1
      show (b.toNat + 256 * value bs) % 256 = b.toNat
      omega
    have hhigh : (b.toNat + 256 * value bs) / 256 = value bs := by omega
    rw [value, List.length_cons, bytes, hlow, hhigh, ih]

theorem value_field_lt (f : Field n) : value f.1 < 256 ^ n := by
  have hlt := value_lt f.1
  rwa [f.2] at hlt

theorem bytes_field (f : Field n) : bytes n (value f.1) = f.1 := by
  have hf := bytes_value f.1
  rwa [f.2] at hf

/-- The `size` bytes at `offset`. -/
def region (data : List UInt8) (offset size : ℕ) : Option (List UInt8) :=
  if offset + size ≤ data.length then some ((data.drop offset).take size) else none

theorem region_self (data : List UInt8) : region data 0 data.length = some data := by
  simp [region]

theorem region_append_left (h : offset + size ≤ a.length) :
    region (a ++ b) offset size = region a offset size := by
  have hab : offset + size ≤ (a ++ b).length := by
    rw [List.length_append]
    omega
  rw [region, region, if_pos h, if_pos hab, List.drop_append_of_le_length (by omega),
    List.take_append_of_le_length (by rw [List.length_drop]; omega)]

theorem region_append_right (h : a.length ≤ offset) :
    region (a ++ b) offset size = region b (offset - a.length) size := by
  have hiff : offset + size ≤ (a ++ b).length ↔ offset - a.length + size ≤ b.length := by
    rw [List.length_append]
    omega
  obtain ⟨k, rfl⟩ := Nat.exists_eq_add_of_le h
  simp only [region, hiff, List.drop_append, Nat.add_sub_cancel_left]
  rw [List.drop_eq_nil_of_le (by omega), List.nil_append]

/-- What lies in a part of the data is read there as in the part itself. -/
theorem region_within {pre block post : List UInt8} (h : offset + size ≤ block.length) :
    region (pre ++ block ++ post) (pre.length + offset) size = region block offset size := by
  rw [List.append_assoc, region_append_right (by omega), Nat.add_sub_cancel_left,
    region_append_left h]

theorem region_skip {n : ℕ} (h : a.length = n) :
    region (a ++ b) (n + offset) size = region b offset size := by
  rw [region_append_right (by omega), ← h, Nat.add_sub_cancel_left]

theorem region_head (h : a.length = size) : region (a ++ b) 0 size = some a := by
  rw [region_append_left (by omega), ← h, region_self]

/-- A field of a record lies behind the fields before it. -/
theorem region_flatten {parts : List (List UInt8)} {field : List UInt8} {k : ℕ}
    (hfield : parts[k]? = some field) (hoffset : ((parts.take k).map List.length).sum = offset)
    (hsize : field.length = size) : region parts.flatten offset size = some field := by
  obtain ⟨hk, rfl⟩ := List.getElem?_eq_some_iff.1 hfield
  have hsplit : parts = parts.take k ++ parts[k] :: parts.drop (k + 1) := by simp
  have hlength : (parts.take k).flatten.length = offset := by rw [List.length_flatten, hoffset]
  conv_lhs => rw [hsplit]
  rw [List.flatten_append, List.flatten_cons, ← Nat.add_zero offset, region_skip hlength,
    region_head hsize]

theorem getElem?_of_region {byte : UInt8} (h : region data offset 1 = some [byte]) :
    data[offset]? = some byte := by
  rw [region] at h
  split_ifs at h
  have hhead := congrArg List.head? (Option.some.inj h)
  rwa [List.head?_take, if_neg Nat.one_ne_zero, List.head?_drop] at hhead

end Binary
