import Ps2Ripper.Binary.Overlay
import Ps2Ripper.Core.Models

/-!
# Unbuffered files

An image file as its users open it, without a buffer: its bytes, its length and where it stands.

* `RawFile`, with `seek`, `read` and `write`;
* what a read finds, that a write inside of the file keeps its length, and writes one behind the
  other.
-/

namespace Ps2Ripper

open Binary

structure RawFile where
  size : ℕ
  content : ℕ → UInt8
  pos : ℕ

namespace RawFile

variable (f : RawFile)

def seek (offset : ℕ) : RawFile := { f with pos := offset }

/-- `seek(-back, 2)`. -/
def seekEnd (back : ℕ) : RawFile := { f with pos := f.size - back }

/-- The bytes of the file that lie in a range. -/
def bytes (offset count : ℕ) : Bytes := stretch f.content offset (min count (f.size - offset))

/-- `read`, or `readinto` with a buffer of that length. -/
def read (count : ℕ) : Bytes × RawFile :=
  (f.bytes f.pos count, { f with pos := f.pos + min count (f.size - f.pos) })

/-- Behind the end of the file there are zeros up to what is written. -/
def write (data : Bytes) : RawFile :=
  if data = [] then f
  else
    { size := max f.size (f.pos + data.length)
      content := overlay (fun i => if i < f.size then f.content i else 0) f.pos data
      pos := f.pos + data.length }

variable {f}

@[simp] theorem seek_size (offset : ℕ) : (f.seek offset).size = f.size := rfl

@[simp] theorem seek_content (offset : ℕ) : (f.seek offset).content = f.content := rfl

@[simp] theorem seek_pos (offset : ℕ) : (f.seek offset).pos = offset := rfl

@[simp] theorem seekEnd_seek (back offset : ℕ) : (f.seekEnd back).seek offset = f.seek offset := rfl

theorem seekEnd_pos (back : ℕ) : (f.seekEnd back).pos = f.size - back := rfl

theorem bytes_of_le {offset count : ℕ} (h : offset + count ≤ f.size) :
    f.bytes offset count = stretch f.content offset count := by
  rw [bytes, min_eq_left (by omega)]

theorem read_of_le {count : ℕ} (h : f.pos + count ≤ f.size) :
    f.read count = (stretch f.content f.pos count, f.seek (f.pos + count)) := by
  rw [read, bytes_of_le h, min_eq_left (by omega)]
  rfl

theorem write_size {data : Bytes} (h : f.pos + data.length ≤ f.size) :
    (f.write data).size = f.size := by
  rw [write]
  split
  · rfl
  · exact max_eq_left h

@[simp] theorem write_pos (data : Bytes) : (f.write data).pos = f.pos + data.length := by
  rw [write]
  split
  · rename_i hnil
    simp [hnil]
  · rfl

theorem write_content {data : Bytes} {i : ℕ} (h : i < f.size) :
    (f.write data).content i = overlay f.content f.pos data i := by
  rw [write]
  split
  · rename_i hnil
    simp [hnil]
  · dsimp only
    by_cases hin : f.pos ≤ i ∧ i < f.pos + data.length
    · exact overlay_congr hin.1 hin.2
    · by_cases hlt : i < f.pos
      · rw [overlay_of_lt hlt, overlay_of_lt hlt, if_pos h]
      · rw [overlay_of_le (by omega), overlay_of_le (by omega), if_pos h]

/-- A write that reaches the end of the file, or goes on behind it. -/
theorem write_end (data : Bytes) (hpos : f.pos ≤ f.size) (hend : f.size ≤ f.pos + data.length) :
    (f.write data).size = f.pos + data.length ∧
      ∀ i < f.pos + data.length, (f.write data).content i = overlay f.content f.pos data i := by
  unfold write
  by_cases hnil : data = []
  · simp_all
    omega
  · rw [if_neg hnil]
    refine ⟨max_eq_right hend, fun i hi => ?_⟩
    dsimp only
    by_cases hlt : i < f.pos
    · rw [overlay_of_lt hlt, overlay_of_lt hlt, if_pos (by omega)]
    · exact overlay_congr (by omega) hi

/-- Two writes, one behind the other, are one. -/
theorem write_write (f : RawFile) (a b : Bytes) : (f.write a).write b = f.write (a ++ b) := by
  by_cases ha : a = []
  · simp [ha, write]
  by_cases hb : b = []
  · simp [hb, write]
  unfold write
  simp only [ha, hb, List.append_eq_nil_iff, and_false, if_false, List.length_append, mk.injEq]
  refine ⟨by omega, ?_, by omega⟩
  rw [overlay_append]
  funext i
  by_cases hin : f.pos + a.length ≤ i ∧ i < f.pos + a.length + b.length
  · exact overlay_congr hin.1 hin.2
  · have hout : ∀ g : ℕ → UInt8, overlay g (f.pos + a.length) b i = g i := fun g => by
      by_cases hlt : i < f.pos + a.length
      · exact overlay_of_lt hlt
      · exact overlay_of_le (by omega)
    rw [hout, hout]
    by_cases hsize : i < max f.size (f.pos + a.length)
    · rw [if_pos hsize]
    · rw [if_neg hsize, overlay_of_le (by omega), if_neg (by omega)]

end RawFile

variable {ε σ α β : Type} {s s' : σ}

theorem get_eq (s : σ) : (get : EStateM ε σ σ) s = .ok s s := rfl

theorem modify_eq (f : σ → σ) (s : σ) : (modify f : EStateM ε σ Unit) s = .ok () (f s) := rfl

/-- The first part of a program on a state has returned. -/
theorem bind_of_ok {x : EStateM ε σ α} {f : α → EStateM ε σ β} {a : α} (h : x s = .ok a s') :
    (x >>= f) s = f a s' := by
  show EStateM.bind x f s = _
  rw [EStateM.bind, h]

end Ps2Ripper
