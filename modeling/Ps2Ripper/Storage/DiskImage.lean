import Ps2Ripper.Storage.Exfat

/-!
# Disk images

The stream `disk` of `FATtools/disk.py` over an image file, as the environment of the formatter.  It
caches sectors; what it shows and what the file holds after a flush are the bytes of the image.

* `DiskImage`, `runImage`: the bytes, where the stream stands, and the runs on it;
* `wp_runImage`: a run and a guarantee for the program say the same;
* `KeptBelow`, `WritesAbove`: what is left alone by a program that writes from a limit on, and the
  rules by which such programs are put together.
-/

namespace Ps2Ripper

open Interactive Prog

/-- An image of `size` bytes. -/
structure DiskImage where
  pos : ℕ
  size : ℕ
  content : ℕ → UInt8

namespace DiskImage

/-- An image that has just been opened. -/
def new (size : ℕ) (content : ℕ → UInt8) : DiskImage := ⟨0, size, content⟩

/-- The bytes from `offset` on, up to the end of the image. -/
def bytes (s : DiskImage) (offset count : ℕ) : Bytes :=
  (List.range (min count (s.size - offset))).map fun i => s.content (offset + i)

/-- The position is kept between the ends of the image. -/
def seek (s : DiskImage) (offset whence : ℤ) : DiskImage :=
  let target := if whence = 1 then s.pos + offset
    else if whence = 2 then (if s.size = 0 then (s.pos : ℤ) else s.size + offset)
    else offset
  { s with pos := (max 0 (min target s.size)).toNat }

/-- A negative size stands for that of the image. -/
def read (s : DiskImage) (size : ℤ) : Bytes × DiskImage :=
  let data := s.bytes s.pos (if size < 0 then s.size else size.toNat)
  (data, { s with pos := s.pos + data.length })

def write (s : DiskImage) (data : Bytes) : DiskImage :=
  { s with
    pos := min s.size (s.pos + data.length)
    content := fun i => if s.pos ≤ i then data.getD (i - s.pos) (s.content i) else s.content i }

/-- Carry out one call. -/
def perform (s : DiskImage) : (o : RawOp) → Except PyError o.Answer × DiskImage
  | .seek offset whence => (.ok (), s.seek offset whence)
  | .tell => (.ok s.pos, s)
  | .read size => (.ok (s.read size).1, (s.read size).2)
  | .write data => (.ok (), s.write data)
  | .flush => (.ok (), s)

end DiskImage

def runImage {α : Type} (p : RawProgram α) (s : DiskImage) : Outcome PyError α DiskImage :=
  run (fun _ s o => DiskImage.perform s o) p 0 s

def imageContract : Contract rawInterface PyError DiskImage where
  may _ _ := True
  answers s o r s' := s.perform o = (r, s')

theorem imageContract_admits : imageContract.Admits fun _ s o => DiskImage.perform s o :=
  fun _ _ _ => rfl

/-- The image has its size and its bytes below `limit`. -/
structure KeptBelow (limit : ℕ) (s s' : DiskImage) : Prop where
  size : s'.size = s.size
  content : ∀ i < limit, s'.content i = s.content i

/-- From `limit` on the program writes only what lies there; it raises only if `raises`. -/
def WritesAbove {α : Type} (limit : ℕ) (raises : Prop) (p : RawProgram α) : Prop :=
  ∀ s : DiskImage, limit ≤ s.pos → limit ≤ s.size →
    wp imageContract p (fun _ s' => KeptBelow limit s s' ∧ limit ≤ s'.pos)
      (fun _ s' => raises ∧ KeptBelow limit s s') s

variable {α β : Type} {limit : ℕ} {raises : Prop} {s s' s'' : DiskImage}
  {E : PyError → DiskImage → Prop}

/-! ### The bytes of an image -/

theorem KeptBelow.refl (limit : ℕ) (s : DiskImage) : KeptBelow limit s s := ⟨rfl, fun _ _ => rfl⟩

theorem KeptBelow.trans (h : KeptBelow limit s s') (h' : KeptBelow limit s' s'') :
    KeptBelow limit s s'' :=
  ⟨h'.size.trans h.size, fun i hi => (h'.content i hi).trans (h.content i hi)⟩

theorem KeptBelow.mono {lower : ℕ} (h : KeptBelow limit s s') (hle : lower ≤ limit) :
    KeptBelow lower s s' :=
  ⟨h.size, fun i hi => h.content i (hi.trans_le hle)⟩

theorem KeptBelow.bytes {offset count : ℕ} (h : KeptBelow limit s s')
    (hle : offset + count ≤ limit) : s'.bytes offset count = s.bytes offset count := by
  rw [DiskImage.bytes, DiskImage.bytes, h.size]
  refine List.map_congr_left fun i hi => h.content _ ?_
  have := List.mem_range.1 hi
  omega

namespace DiskImage

theorem length_bytes (s : DiskImage) (offset count : ℕ) :
    (s.bytes offset count).length = min count (s.size - offset) := by
  simp [bytes]

/-- What was written is there. -/
theorem bytes_write (s : DiskImage) (data : Bytes) (h : s.pos + data.length ≤ s.size) :
    (s.write data).bytes s.pos data.length = data := by
  have hlength : min data.length (s.size - s.pos) = data.length := by omega
  rw [bytes, write, hlength]
  refine List.ext_getElem (by simp) fun i hi hi' => ?_
  simp [hi']

theorem keptBelow_write (s : DiskImage) (data : Bytes) (h : limit ≤ s.pos) :
    KeptBelow limit s (s.write data) := by
  refine ⟨rfl, fun i hi => ?_⟩
  show (if s.pos ≤ i then _ else _) = _
  rw [if_neg (by omega)]

/-! ### Rules for single calls -/

theorem wp_call {o : RawOp} {a : o.Answer} {Q : o.Answer → DiskImage → Prop}
    (h : s.perform o = (.ok a, s')) (hQ : Q a s') : wp imageContract (raw o) Q E s := by
  refine wp_perform.2 ⟨trivial, fun b t hb => ?_, fun e t he => ?_⟩
  · obtain ⟨⟨⟩, rfl⟩ := Prod.mk.inj (h.symm.trans hb)
    exact hQ
  · obtain ⟨⟨⟩, -⟩ := Prod.mk.inj (h.symm.trans he)

theorem wp_seek {target : ℕ} {Q : Unit → DiskImage → Prop}
    (hQ : Q () { s with pos := min target s.size }) :
    wp imageContract (raw (.seek target 0)) Q E s := by
  refine wp_call ?_ hQ
  have htarget : (max 0 (min (target : ℤ) s.size)).toNat = min target s.size := by omega
  rw [perform, seek]
  simp only [if_neg (by decide : ¬(0 : ℤ) = 1), if_neg (by decide : ¬(0 : ℤ) = 2), htarget]

theorem wp_write {data : Bytes} {Q : Unit → DiskImage → Prop} (hQ : Q () (s.write data)) :
    wp imageContract (raw (.write data)) Q E s :=
  wp_call rfl hQ

theorem wp_read {size : ℕ} {Q : Bytes → DiskImage → Prop}
    (hQ : Q (s.bytes s.pos size) { s with pos := s.pos + min size (s.size - s.pos) }) :
    wp imageContract (raw (.read size)) Q E s := by
  refine wp_call ?_ hQ
  rw [perform, read]
  simp only [if_neg (by omega : ¬(size : ℤ) < 0), Int.toNat_natCast, length_bytes]

theorem wp_flush {Q : Unit → DiskImage → Prop} (hQ : Q () s) :
    wp imageContract (raw .flush) Q E s :=
  wp_call rfl hQ

theorem wp_partitionSeek {p : DiskPartition} {target : ℕ} {Q : Unit → DiskImage → Prop}
    (hin : p.offset + p.size ≤ s.size)
    (hQ : Q () { s with pos := p.offset + min target p.size }) :
    wp imageContract (p.seek target) Q E s := by
  refine wp_seek ?_
  have hpos : min (min target p.size + p.offset) s.size = p.offset + min target p.size := by omega
  rwa [hpos]

end DiskImage

/-- A program ends as its run does: an image answers every call in one way, at any time. -/
theorem wp_runImage (p : RawProgram α) (s : DiskImage) :
    wp imageContract p
      (fun a s' => (runImage p s).result = .ok a ∧ (runImage p s).world = s')
      (fun e s' => (runImage p s).result = .error e ∧ (runImage p s).world = s') s := by
  rw [runImage]
  generalize 0 = clock
  induction p generalizing s clock with
  | pure a => exact ⟨rfl, rfl⟩
  | raise e => exact ⟨rfl, rfl⟩
  | call o k ih =>
    refine ⟨trivial, fun r s' h => ?_⟩
    have hstep : s.perform o = (r, s') := h
    rw [run]
    simp only [hstep]
    exact ih r s' (clock + 1)

/-! ### Programs that write from a limit on -/

theorem WritesAbove.return (a : α) : WritesAbove limit raises (return a : RawProgram α) :=
  fun s hpos _ => ⟨.refl limit s, hpos⟩

theorem WritesAbove.bind {p : RawProgram α} {f : α → RawProgram β} (hp : WritesAbove limit raises p)
    (hf : ∀ a, WritesAbove limit raises (f a)) : WritesAbove limit raises (p >>= f) := by
  intro s hpos hsize
  refine wp_seq (hp s hpos hsize) ?_ fun _ _ h => h
  rintro a s₁ ⟨hkept, hpos₁⟩
  refine wp_mono (hf a s₁ hpos₁ (hkept.size.symm ▸ hsize)) ?_ ?_
  · rintro b s₂ ⟨hkept₂, hpos₂⟩
    exact ⟨hkept.trans hkept₂, hpos₂⟩
  · rintro e s₂ ⟨hraises, hkept₂⟩
    exact ⟨hraises, hkept.trans hkept₂⟩

theorem WritesAbove.lift {x : Except PyError α} (h : ∀ e, x = .error e → raises) :
    WritesAbove limit raises (Prog.lift x : RawProgram α) := by
  intro s hpos _
  refine (wp_lift x).2 ⟨fun _ _ => ?_, fun e he => ?_⟩
  · exact ⟨.refl limit s, hpos⟩
  · exact ⟨h e he, .refl limit s⟩

theorem WritesAbove.write (data : Bytes) : WritesAbove limit raises (raw (.write data)) := by
  intro s hpos hsize
  refine DiskImage.wp_write ⟨s.keptBelow_write data hpos, ?_⟩
  show limit ≤ min s.size (s.pos + data.length)
  omega

theorem WritesAbove.flush : WritesAbove limit raises (raw .flush) :=
  fun s hpos _ => DiskImage.wp_flush ⟨.refl limit s, hpos⟩

theorem WritesAbove.seek {target : ℕ} (h : limit ≤ target) :
    WritesAbove limit raises (raw (.seek target 0)) := by
  intro s _ hsize
  refine DiskImage.wp_seek ⟨⟨rfl, fun _ _ => rfl⟩, ?_⟩
  show limit ≤ min target s.size
  omega

/-- A position in a partition that begins at the limit or behind it, or far enough in it. -/
theorem WritesAbove.partitionSeek {p : DiskPartition} {target : ℕ}
    (h : limit ≤ p.offset + min target p.size) : WritesAbove limit raises (p.seek target) := by
  refine WritesAbove.seek ?_
  omega

theorem WritesAbove.writeAt {p : DiskPartition} {target : ℕ} {data : Bytes} {q : RawProgram α}
    (h : limit ≤ p.offset + min target p.size) (hq : WritesAbove limit raises q) :
    WritesAbove limit raises (p.seek target >>= fun _ => raw (.write data) >>= fun _ => q) :=
  (WritesAbove.partitionSeek h).bind fun _ => (WritesAbove.write data).bind fun _ => hq

end Ps2Ripper
