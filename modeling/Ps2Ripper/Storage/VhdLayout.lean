import Mathlib.Data.Finset.Card
import Ps2Ripper.Storage.VhdImage

/-!
# How the blocks of a VHD lie in its file

* `VhdLayout.shown`: the disk that a file shows;
* `VhdLayout.Laid`: the table leads to every block that is there, the blocks do not overlap, and
  what the bitmap of a block does not have is blank;
* `Laid.flush`, `Laid.load`, `Laid.writeData`: a bitmap is written or read, data is written to a
  block;
* `Grown.laid`: a block is added at the end.
-/

namespace Ps2Ripper

open Binary

namespace VhdLayout

variable (g : VhdLayout) (c : ℕ → UInt8)

/-- A bitmap and the block behind it. -/
def rawSize : ℕ := g.bitmapSize + g.block

/-- The bytes that the table has entries for. -/
def capacity : ℕ := g.tableEntries * g.block

/-- An entry of the table in a file of these bytes. -/
def entry (i : ℕ) : ℕ := value (stretch c (g.tableOffset + 4 * i) 4).reverse

/-- The blocks that are in the file. -/
def allocated : Finset ℕ :=
  (Finset.range g.tableEntries).filter fun i => g.entry c i ≠ absentBlock

/-- The disk: a block that is not in the file is blank. -/
def shown (i : ℕ) : UInt8 :=
  let slot := g.entry c (i / g.block)
  if slot = absentBlock then 0 else c (slot * 512 + g.bitmapSize + i % g.block)

/-- The bitmap of the block at a sector, which may be one that is not written yet. -/
def bitmapOf (bmp : Option BlockBitmap) (slot : ℕ) : Bytes :=
  match bmp with
  | some b => if b.1 = slot then b.2 else stretch c (slot * 512) g.bitmapSize
  | none => stretch c (slot * 512) g.bitmapSize

/-- Blocks and bitmaps are full sectors, there is a bit for every sector of a block, the table ends
before `base`, and all blocks would find room behind it. -/
structure Sized (base : ℕ) : Prop where
  block_pos : 0 < g.block
  block_aligned : 512 ∣ g.block
  bitmap_aligned : 512 ∣ g.bitmapSize
  covered : g.block ≤ 4096 * g.bitmapSize
  inside : g.size ≤ g.capacity
  table : g.tableOffset + 4 * g.tableEntries ≤ base
  base_aligned : 512 ∣ base
  room : base + g.tableEntries * g.rawSize < absentBlock * 512
  footer : g.footer.length = 512

/-- The file begins with `head`.  From `base` on it consists of the blocks that the table leads to,
in any order, and the footer.  What the bitmap of a block does not have is blank. -/
structure Laid (base : ℕ) (head : Bytes) (bmp : Option BlockBitmap) (f : RawFile) : Prop
    extends g.Sized base where
  head : stretch f.content 0 g.tableOffset = head
  file_size : f.size = base + (g.allocated f.content).card * g.rawSize + 512
  trailer : stretch f.content (f.size - 512) 512 = g.footer
  place : ∀ i ∈ g.allocated f.content, ∃ k < (g.allocated f.content).card,
    g.entry f.content i * 512 = base + k * g.rawSize
  apart : ∀ i ∈ g.allocated f.content, ∀ j ∈ g.allocated f.content,
    g.entry f.content i = g.entry f.content j → i = j
  pending : ∀ b, bmp = some b →
    (∃ i ∈ g.allocated f.content, b.1 = g.entry f.content i) ∧ b.2.length = g.bitmapSize
  blank : ∀ i ∈ g.allocated f.content, ∀ j < g.block,
    msbFirst.bit (g.bitmapOf f.content bmp (g.entry f.content i)) (j / 512) = false →
      f.content (g.entry f.content i * 512 + g.bitmapSize + j) = 0

variable {g c} {head : Bytes} {c' : ℕ → UInt8} {base i j slot : ℕ} {bmp bmp' : Option BlockBitmap}
  {f f' : RawFile}
  {data : Bytes}

theorem mem_allocated : i ∈ g.allocated c ↔ i < g.tableEntries ∧ g.entry c i ≠ absentBlock := by
  simp [allocated]

@[simp] theorem bitmapOf_none : g.bitmapOf c none slot = stretch c (slot * 512) g.bitmapSize := rfl

@[simp] theorem bitmapOf_self (b : BlockBitmap) : g.bitmapOf c (some b) b.1 = b.2 := if_pos rfl

theorem bitmapOf_of_ne {b : BlockBitmap} (h : b.1 ≠ slot) :
    g.bitmapOf c (some b) slot = stretch c (slot * 512) g.bitmapSize := if_neg h

/-- The table lies before `base`. -/
theorem Sized.entry_congr (h : g.Sized base) (hlow : ∀ x < base, c' x = c x)
    (hi : i < g.tableEntries) : g.entry c' i = g.entry c i := by
  have htable := h.table
  unfold entry
  rw [stretch_congr fun k hk => hlow _ (by omega)]

theorem Sized.allocated_congr (h : g.Sized base) (hlow : ∀ x < base, c' x = c x) :
    g.allocated c' = g.allocated c := by
  ext i
  rw [mem_allocated, mem_allocated]
  refine and_congr_right fun hi => ?_
  rw [h.entry_congr hlow hi]

theorem shown_at {r : ℕ} (hr : r < g.block) :
    g.shown c (i * g.block + r) =
      if g.entry c i = absentBlock then 0 else c (g.entry c i * 512 + g.bitmapSize + r) := by
  have hpos : 0 < g.block := by omega
  have hdiv : (i * g.block + r) / g.block = i := by
    rw [Nat.mul_comm, Nat.mul_add_div hpos, Nat.div_eq_of_lt hr, Nat.add_zero]
  have hmod : (i * g.block + r) % g.block = r := by
    rw [Nat.mul_comm, Nat.mul_add_mod, Nat.mod_eq_of_lt hr]
  unfold shown
  rw [hdiv, hmod]

/-- A byte of a block that is in the file. -/
theorem shown_of_mem {r : ℕ} (hi : i ∈ g.allocated c) (hr : r < g.block) :
    g.shown c (i * g.block + r) = c (g.entry c i * 512 + g.bitmapSize + r) := by
  rw [shown_at hr, if_neg (mem_allocated.1 hi).2]

/-- A byte of a block that is not. -/
theorem shown_of_absent {r : ℕ} (hi : g.entry c i = absentBlock) (hr : r < g.block) :
    g.shown c (i * g.block + r) = 0 := by
  rw [shown_at hr, if_pos hi]

/-- The shown disk consists of the table and the data of the blocks. -/
theorem Sized.shown_congr (h : g.Sized base) (hlow : ∀ x < base, c' x = c x)
    (hdata : ∀ i ∈ g.allocated c, ∀ j < g.block,
      c' (g.entry c i * 512 + g.bitmapSize + j) = c (g.entry c i * 512 + g.bitmapSize + j)) :
    ∀ x < g.capacity, g.shown c' x = g.shown c x := by
  intro x hx
  have hentry : x / g.block < g.tableEntries := Nat.div_lt_of_lt_mul (by rwa [Nat.mul_comm])
  unfold shown
  rw [h.entry_congr hlow hentry]
  by_cases habsent : g.entry c (x / g.block) = absentBlock
  · simp [habsent]
  · simp only [if_neg habsent]
    exact hdata _ (mem_allocated.2 ⟨hentry, habsent⟩) _ (Nat.mod_lt x h.block_pos)

namespace Laid

/-- A block lies behind the table and before the footer. -/
theorem bounds (h : g.Laid base head bmp f) (hi : i ∈ g.allocated f.content) :
    base ≤ g.entry f.content i * 512 ∧
      g.entry f.content i * 512 + g.rawSize + 512 ≤ f.size := by
  obtain ⟨k, hk, hplace⟩ := h.place i hi
  have hsize := h.file_size
  have hle := Nat.mul_le_mul_right g.rawSize hk
  rw [Nat.succ_mul] at hle
  omega

/-- No two blocks overlap. -/
theorem disjoint (h : g.Laid base head bmp f) (hi : i ∈ g.allocated f.content)
    (hj : j ∈ g.allocated f.content) (hne : i ≠ j) :
    g.entry f.content i * 512 + g.rawSize ≤ g.entry f.content j * 512 ∨
      g.entry f.content j * 512 + g.rawSize ≤ g.entry f.content i * 512 := by
  obtain ⟨k, -, hplace⟩ := h.place i hi
  obtain ⟨l, -, hplace'⟩ := h.place j hj
  have hkl : k ≠ l := by
    rintro rfl
    exact hne (h.apart i hi j hj (by omega))
  rcases Nat.lt_or_gt_of_ne hkl with hlt | hlt
  · have hle := Nat.mul_le_mul_right g.rawSize hlt
    rw [Nat.succ_mul] at hle
    omega
  · have hle := Nat.mul_le_mul_right g.rawSize hlt
    rw [Nat.succ_mul] at hle
    omega

/-- The table and the footer are left alone, and the blocks stay blank where they have to be. -/
theorem keep (h : g.Laid base head bmp f) (hsize : f'.size = f.size)
    (hlow : ∀ x < base, f'.content x = f.content x)
    (hend : ∀ x, f.size - 512 ≤ x → x < f.size → f'.content x = f.content x)
    (hpending : ∀ b, bmp' = some b →
      (∃ i ∈ g.allocated f.content, b.1 = g.entry f.content i) ∧ b.2.length = g.bitmapSize)
    (hblank : ∀ i ∈ g.allocated f.content, ∀ j < g.block,
      msbFirst.bit (g.bitmapOf f'.content bmp' (g.entry f.content i)) (j / 512) = false →
        f'.content (g.entry f.content i * 512 + g.bitmapSize + j) = 0) :
    g.Laid base head bmp' f' := by
  have hallocated := h.allocated_congr hlow
  have hentry : ∀ i ∈ g.allocated f.content, g.entry f'.content i = g.entry f.content i :=
    fun i hi => h.entry_congr hlow (mem_allocated.1 hi).1
  have htotal := h.file_size
  have htable := h.table
  refine { h.toSized with
    head := by rw [← h.head]; exact stretch_congr fun k hk => hlow _ (by omega)
    file_size := by rw [hsize, hallocated, htotal]
    trailer := ?_
    place := fun i hi => ?_
    apart := fun i hi j hj heq => ?_
    pending := fun b hb => ?_
    blank := fun i hi j hj hbit => ?_ }
  · rw [hsize, ← h.trailer]
    exact stretch_congr fun k hk => hend _ (by omega) (by omega)
  · rw [hallocated] at hi ⊢
    rw [hentry i hi]
    exact h.place i hi
  · rw [hallocated] at hi hj
    rw [hentry i hi, hentry j hj] at heq
    exact h.apart i hi j hj heq
  · obtain ⟨⟨i, hi, hslot⟩, hlength⟩ := hpending b hb
    exact ⟨⟨i, hallocated ▸ hi, hslot.trans (hentry i hi).symm⟩, hlength⟩
  · rw [hallocated] at hi
    rw [hentry i hi] at hbit ⊢
    exact hblank i hi j hj hbit

/-- A write into the bitmap or the data of a block changes nothing outside of them. -/
theorem write_block (h : g.Laid base head bmp f) (data : Bytes) (hi : i ∈ g.allocated f.content)
    {start : ℕ}
    (hstart : g.entry f.content i * 512 ≤ start)
    (hend : start + data.length ≤ g.entry f.content i * 512 + g.rawSize) :
    ((f.seek start).write data).size = f.size ∧
      (∀ x < f.size, ((f.seek start).write data).content x = overlay f.content start data x) ∧
      ∀ x < f.size, x < g.entry f.content i * 512 ∨ g.entry f.content i * 512 + g.rawSize ≤ x →
        ((f.seek start).write data).content x = f.content x := by
  have hbounds := h.bounds hi
  have hsize : (f.seek start).pos + data.length ≤ (f.seek start).size := by
    simp only [RawFile.seek_pos, RawFile.seek_size]
    omega
  have hcontent : ∀ x < f.size,
      ((f.seek start).write data).content x = overlay f.content start data x :=
    fun x hx => RawFile.write_content hx
  refine ⟨RawFile.write_size hsize, hcontent, fun x hx hout => ?_⟩
  rw [hcontent x hx]
  rcases hout with hout | hout
  · exact overlay_of_lt (by omega)
  · exact overlay_of_le (by omega)

/-- What is read of the bitmap of another block is what was there before. -/
theorem bitmap_other (h : g.Laid base head bmp f) (hi : i ∈ g.allocated f.content)
    (hj : j ∈ g.allocated f.content) (hne : i ≠ j)
    (hout : ∀ x < f.size, x < g.entry f.content i * 512 ∨
      g.entry f.content i * 512 + g.rawSize ≤ x → f'.content x = f.content x) :
    (∀ k < g.block, f'.content (g.entry f.content j * 512 + g.bitmapSize + k) =
        f.content (g.entry f.content j * 512 + g.bitmapSize + k)) ∧
      stretch f'.content (g.entry f.content j * 512) g.bitmapSize =
        stretch f.content (g.entry f.content j * 512) g.bitmapSize := by
  have hbounds := h.bounds hj
  have hdisjoint := h.disjoint hi hj hne
  have hraw : g.rawSize = g.bitmapSize + g.block := rfl
  constructor
  · intro k hk
    exact hout _ (by omega) (by omega)
  · exact stretch_congr fun k hk => hout _ (by omega) (by omega)

/-- The bitmap that was not written yet is written. -/
theorem flush {b : BlockBitmap} (h : g.Laid base head (some b) f) :
    let f' := (f.seek (b.1 * 512)).write b.2
    g.Laid base head none f' ∧ (∀ x < base, f'.content x = f.content x) ∧
      ∀ x < g.capacity, g.shown f'.content x = g.shown f.content x := by
  intro f'
  obtain ⟨⟨i, hi, hslot⟩, hlength⟩ := h.pending b rfl
  have hbounds := h.bounds hi
  have hraw : g.rawSize = g.bitmapSize + g.block := rfl
  obtain ⟨hsize, hcontent, hout⟩ := h.write_block b.2 hi
    (by omega : g.entry f.content i * 512 ≤ b.1 * 512) (by omega)
  have hlow : ∀ x < base, f'.content x = f.content x := fun x hx => hout x (by omega) (by omega)
  have hdata : ∀ j ∈ g.allocated f.content, ∀ k < g.block,
      f'.content (g.entry f.content j * 512 + g.bitmapSize + k) =
        f.content (g.entry f.content j * 512 + g.bitmapSize + k) := by
    intro j hj k hk
    by_cases hij : i = j
    · subst hij
      rw [hcontent _ (by omega)]
      exact overlay_of_le (by omega)
    · exact (h.bitmap_other hi hj hij hout).1 k hk
  refine ⟨h.keep hsize hlow (fun x hx hx' => hout x hx' (by omega)) (fun _ hb => by cases hb) ?_,
    hlow, h.shown_congr hlow hdata⟩
  intro j hj k hk hbit
  rw [hdata j hj k hk]
  refine h.blank j hj k hk ?_
  rw [← hbit, bitmapOf_none]
  by_cases hij : i = j
  · subst hij
    have hwritten : stretch f'.content (b.1 * 512) g.bitmapSize = b.2 := by
      rw [← hlength, ← stretch_overlay f.content (b.1 * 512) b.2]
      simp only [length_stretch]
      refine stretch_congr fun k hk => hcontent _ ?_
      omega
    rw [← hslot, bitmapOf_self, hwritten]
  · have hne : b.1 ≠ g.entry f.content j := fun heq => hij (h.apart i hi j hj (hslot ▸ heq))
    rw [bitmapOf_of_ne hne, (h.bitmap_other hi hj hij hout).2]

/-- Data is written to a block, whose sectors have their bits. -/
theorem writeData {bits bits' : Bytes} {offset : ℕ} (hi : i ∈ g.allocated f.content)
    (h : g.Laid base head (some (g.entry f.content i, bits)) f)
    (hin : offset + data.length ≤ g.block)
    (hlength : bits'.length = bits.length)
    (hbits : ∀ k, msbFirst.bit bits' k = true ↔ msbFirst.bit bits k = true ∨
      offset / 512 ≤ k ∧ k ≤ (offset + data.length - 1) / 512) :
    let f' := (f.seek (g.entry f.content i * 512 + g.bitmapSize + offset)).write data
    g.Laid base head (some (g.entry f.content i, bits')) f' ∧
      (∀ x < base, f'.content x = f.content x) ∧
      ∀ x < g.capacity,
        g.shown f'.content x = overlay (g.shown f.content) (i * g.block + offset) data x := by
  intro f'
  have hbounds := h.bounds hi
  have hraw : g.rawSize = g.bitmapSize + g.block := rfl
  obtain ⟨hsize, hcontent, hout⟩ := h.write_block data hi
    (by omega : g.entry f.content i * 512 ≤ g.entry f.content i * 512 + g.bitmapSize + offset)
    (by omega)
  have hlow : ∀ x < base, f'.content x = f.content x := fun x hx => hout x (by omega) (by omega)
  have hself : ∀ k < g.block, f'.content (g.entry f.content i * 512 + g.bitmapSize + k) =
      overlay (fun k => f.content (g.entry f.content i * 512 + g.bitmapSize + k))
        offset data k := by
    intro k hk
    rw [hcontent _ (by omega), overlay_shift]
  refine ⟨h.keep hsize hlow (fun x hx hx' => hout x hx' (by omega)) ?_ ?_, hlow, ?_⟩
  · rintro b ⟨⟩
    exact ⟨⟨i, hi, rfl⟩, hlength.trans (h.pending _ rfl).2⟩
  · intro j hj k hk hbit
    by_cases hij : i = j
    · subst hij
      rw [hself k hk]
      have hclear : ¬msbFirst.bit bits' (k / 512) = true := by
        rw [bitmapOf_self (g.entry f.content i, bits')] at hbit
        simpa using hbit
      rw [hbits, not_or] at hclear
      have hblank := h.blank i hi k hk
        (by rw [bitmapOf_self (g.entry f.content i, bits)]; simpa using hclear.1)
      by_cases hlt : k < offset
      · rw [overlay_of_lt hlt, hblank]
      · rw [overlay_of_le (by omega), hblank]
    · have hne : g.entry f.content i ≠ g.entry f.content j := fun heq => hij (h.apart i hi j hj heq)
      obtain ⟨hdata, hbitmap⟩ := h.bitmap_other hi hj hij hout
      rw [hdata k hk]
      refine h.blank j hj k hk ?_
      rw [← hbit, bitmapOf_of_ne hne, bitmapOf_of_ne hne, hbitmap]
  · intro x hx
    by_cases hxi : x / g.block = i
    · obtain ⟨r, hr, rfl⟩ : ∃ r < g.block, x = i * g.block + r :=
        ⟨x % g.block, Nat.mod_lt x h.block_pos, by rw [← hxi, Nat.div_add_mod']⟩
      have hmem : i ∈ g.allocated f'.content := by rwa [h.allocated_congr hlow]
      rw [shown_of_mem hmem hr, h.entry_congr hlow (mem_allocated.1 hi).1, hself r hr,
        overlay_shift]
      exact overlay_apply_congr (shown_of_mem hi hr).symm
    · have hout' : x < i * g.block + offset ∨ i * g.block + offset + data.length ≤ x := by
        rcases Nat.lt_or_gt_of_ne hxi with hlt | hlt
        · have hlt := (Nat.div_lt_iff_lt_mul h.block_pos).1 hlt
          omega
        · have hle := (Nat.le_div_iff_mul_le h.block_pos).1 hlt
          rw [Nat.succ_mul] at hle
          omega
      have hsame : g.shown f'.content x = g.shown f.content x := by
        have hentry : x / g.block < g.tableEntries := Nat.div_lt_of_lt_mul (by rwa [Nat.mul_comm])
        unfold shown
        rw [h.entry_congr hlow hentry]
        by_cases habsent : g.entry f.content (x / g.block) = absentBlock
        · simp [habsent]
        · have hj := mem_allocated.2 ⟨hentry, habsent⟩
          simp only [if_neg habsent]
          exact (h.bitmap_other hi hj (Ne.symm hxi) hout).1 _ (Nat.mod_lt x h.block_pos)
      rw [hsame]
      rcases hout' with hlt | hle
      · rw [overlay_of_lt hlt]
      · rw [overlay_of_le hle]

end Laid

/-- A blank block is added behind the others, and the table leads to it. -/
structure Grown (g : VhdLayout) (i : ℕ) (f f' : RawFile) : Prop where
  size : f'.size = f.size + g.rawSize
  kept : ∀ x < f.size - 512, x < g.tableOffset + 4 * i ∨ g.tableOffset + 4 * i + 4 ≤ x →
    f'.content x = f.content x
  entry : g.entry f'.content i * 512 = f.size - 512
  present : g.entry f'.content i < absentBlock
  blank : ∀ k < g.rawSize, f'.content (f.size - 512 + k) = 0
  trailer : stretch f'.content (f'.size - 512) 512 = g.footer

theorem bitmapOf_congr
    (h : stretch c' (slot * 512) g.bitmapSize = stretch c (slot * 512) g.bitmapSize) :
    g.bitmapOf c' bmp slot = g.bitmapOf c bmp slot := by
  cases bmp with
  | none => exact h
  | some b =>
    by_cases hb : b.1 = slot
    · subst hb
      simp
    · rw [bitmapOf_of_ne hb, bitmapOf_of_ne hb, h]

namespace Laid

/-- Blocks are full sectors. -/
theorem raw_dvd (h : g.Sized base) : 512 ∣ g.rawSize := Nat.dvd_add h.bitmap_aligned h.block_aligned

/-- Every block that is missing finds room at the end of the file. -/
theorem slot_spec (h : g.Laid base head bmp f) (hi : i < g.tableEntries)
    (habsent : g.entry f.content i = absentBlock) :
    (f.size - 512) / 512 * 512 = f.size - 512 ∧ (f.size - 512) / 512 < absentBlock := by
  have hcard : (g.allocated f.content).card < g.tableEntries := by
    have hlt : (g.allocated f.content).card < (Finset.range g.tableEntries).card := by
      refine Finset.card_lt_card (Finset.filter_ssubset.2 ⟨i, Finset.mem_range.2 hi, ?_⟩)
      simpa using habsent
    rwa [Finset.card_range] at hlt
  have hsize := h.file_size
  have hroom := h.room
  have hbase := h.base_aligned
  have hdvd : 512 ∣ (g.allocated f.content).card * g.rawSize := (raw_dvd h.toSized).mul_left _
  have hle := Nat.mul_le_mul_right g.rawSize hcard.le
  constructor <;> omega

/-- What is written for a new block. -/
theorem grown (h : g.Laid base head bmp f) (hi : i < g.tableEntries)
    (habsent : g.entry f.content i = absentBlock) :
    let slot := (f.size - 512) / 512
    let file := ((f.seek (g.tableOffset + 4 * i)).write (bytes 4 slot).reverse).seek (f.size - 512)
    g.Grown i f (((file.write (List.replicate g.bitmapSize 0)).write
      (List.replicate g.block 0)).write g.footer) := by
  intro slot file
  let table := (f.seek (g.tableOffset + 4 * i)).write (bytes 4 slot).reverse
  have hcontent : file.content = table.content := RawFile.seek_content (f.size - 512)
  have hsize := h.file_size
  have htable := h.table
  have hfooter := h.footer
  have hraw : g.rawSize = g.bitmapSize + g.block := rfl
  obtain ⟨hslot, hpresent⟩ := h.slot_spec hi habsent
  have hlength : (bytes 4 slot).reverse.length = 4 := by simp
  have hentry : ∀ x < f.size,
      file.content x = overlay f.content (g.tableOffset + 4 * i) (bytes 4 slot).reverse x :=
    fun x hx => by rw [hcontent]; exact RawFile.write_content hx
  have hfile : file.size = f.size := by
    have hfit : (f.seek (g.tableOffset + 4 * i)).pos + (bytes 4 slot).reverse.length ≤
        (f.seek (g.tableOffset + 4 * i)).size := by
      simp only [RawFile.seek_pos, RawFile.seek_size, hlength]
      omega
    exact RawFile.write_size hfit
  have hblank : List.replicate g.bitmapSize (0 : UInt8) ++ List.replicate g.block 0 =
      List.replicate g.rawSize 0 := by rw [List.replicate_append_replicate, hraw]
  rw [RawFile.write_write, RawFile.write_write, ← List.append_assoc, hblank]
  have hpos : file.pos = f.size - 512 := rfl
  obtain ⟨hsize', hcontent⟩ := RawFile.write_end (List.replicate g.rawSize 0 ++ g.footer)
    (by omega : file.pos ≤ file.size)
    (by rw [List.length_append, List.length_replicate, hfooter]; omega)
  rw [List.length_append, List.length_replicate, hfooter, hpos] at hsize' hcontent
  have hlow : ∀ x < f.size - 512,
      (file.write (List.replicate g.rawSize 0 ++ g.footer)).content x =
        overlay f.content (g.tableOffset + 4 * i) (bytes 4 slot).reverse x := fun x hx => by
    rw [hcontent x (by omega), overlay_of_lt hx, hentry x (by omega)]
  generalize file.write (List.replicate g.rawSize 0 ++ g.footer) = f' at *
  have hslot' : g.entry f'.content i = slot := by
    unfold entry
    have hstretch : stretch f'.content (g.tableOffset + 4 * i) 4 = (bytes 4 slot).reverse := by
      rw [← stretch_overlay f.content (g.tableOffset + 4 * i) (bytes 4 slot).reverse, hlength]
      exact stretch_congr fun k hk => hlow _ (by omega)
    rw [hstretch, List.reverse_reverse, value_bytes_of_lt]
    have habsent' : absentBlock = 0xFFFFFFFF := rfl
    omega
  refine ⟨by omega, fun x hx hout => ?_, by rw [hslot']; exact hslot, hslot' ▸ hpresent,
    fun k hk => ?_, ?_⟩
  · rw [hlow x hx]
    rcases hout with hout | hout
    · exact overlay_of_lt hout
    · exact overlay_of_le (by omega)
  · rw [hcontent _ (by omega), overlay_append, overlay_of_lt (by rw [List.length_replicate]; omega),
      overlay_add (by rwa [List.length_replicate]), List.getElem_replicate]
  · have hlast : f'.size - 512 = f.size - 512 + g.rawSize := by omega
    rw [← stretch_overlay (overlay file.content (f.size - 512) (List.replicate g.rawSize 0))
      (f'.size - 512) g.footer, hfooter, hlast]
    refine stretch_congr fun k hk => ?_
    rw [hcontent _ (by omega), overlay_append, List.length_replicate]

end Laid

namespace Grown

theorem entry_of_ne (hgrown : g.Grown i f f') (h : g.Laid base head bmp f) (hj : j < g.tableEntries)
    (hne : j ≠ i) : g.entry f'.content j = g.entry f.content j := by
  have htable := h.table
  have hsize := h.file_size
  unfold VhdLayout.entry
  rw [stretch_congr fun k hk => hgrown.kept _ (by omega) (by omega)]

theorem allocated_eq (hgrown : g.Grown i f f') (h : g.Laid base head bmp f)
    (hi : i < g.tableEntries) :
    g.allocated f'.content = insert i (g.allocated f.content) := by
  ext j
  rw [Finset.mem_insert, mem_allocated, mem_allocated]
  by_cases hne : j = i
  · subst hne
    simp [hi, hgrown.present.ne]
  · simp only [hne, false_or]
    refine and_congr_right fun hj => ?_
    rw [hgrown.entry_of_ne h hj hne]

/-- The blocks that were there lie where they were. -/
theorem kept_block (hgrown : g.Grown i f f') (h : g.Laid base head bmp f) (hi : i < g.tableEntries)
    (hj : j ∈ g.allocated f.content) {x : ℕ} (hx : g.entry f.content j * 512 ≤ x)
    (hx' : x < g.entry f.content j * 512 + g.rawSize) : f'.content x = f.content x := by
  have hbounds := h.bounds hj
  have htable := h.table
  exact hgrown.kept x (by omega) (by omega)

theorem laid (hgrown : g.Grown i f f') (h : g.Laid base head bmp f) (hi : i < g.tableEntries)
    (habsent : g.entry f.content i = absentBlock) : g.Laid base head bmp f' := by
  have hallocated := hgrown.allocated_eq h hi
  have hnew : i ∉ g.allocated f.content := fun hmem => (mem_allocated.1 hmem).2 habsent
  have hcard := Finset.card_insert_of_notMem hnew
  have hsize := h.file_size
  have htable := h.table
  have hraw : g.rawSize = g.bitmapSize + g.block := rfl
  have hentry : ∀ j ∈ g.allocated f.content, g.entry f'.content j = g.entry f.content j := by
    intro j hj
    refine hgrown.entry_of_ne h (mem_allocated.1 hj).1 ?_
    rintro rfl
    exact hnew hj
  have hbefore : ∀ j ∈ g.allocated f.content,
      g.entry f'.content j ≠ g.entry f'.content i := fun j hj heq => by
    have hbounds := h.bounds hj
    have hplace := hgrown.entry
    rw [← heq, hentry j hj] at hplace
    have hpos := h.block_pos
    omega
  refine { h.toSized with
    head := by rw [← h.head]; exact stretch_congr fun k hk => hgrown.kept _ (by omega) (by omega)
    file_size := ?_
    trailer := hgrown.trailer
    place := fun j hj => ?_
    apart := fun j hj l hl heq => ?_
    pending := fun b hb => ?_
    blank := fun j hj k hk hbit => ?_ }
  · rw [hgrown.size, hallocated, hcard, Nat.succ_mul, hsize]
    omega
  · rw [hallocated, hcard]
    rw [hallocated, Finset.mem_insert] at hj
    rcases hj with rfl | hj
    · refine ⟨_, Nat.lt_succ_self _, ?_⟩
      rw [hgrown.entry, hsize]
      omega
    · obtain ⟨k, hk, hplace⟩ := h.place j hj
      exact ⟨k, Nat.lt_succ_of_lt hk, by rw [hentry j hj, hplace]⟩
  · rw [hallocated, Finset.mem_insert] at hj hl
    rcases hj with rfl | hj <;> rcases hl with rfl | hl
    · rfl
    · exact absurd heq.symm (hbefore l hl)
    · exact absurd heq (hbefore j hj)
    · rw [hentry j hj, hentry l hl] at heq
      exact h.apart j hj l hl heq
  · obtain ⟨⟨j, hj, hslot⟩, hlength⟩ := h.pending b hb
    refine ⟨⟨j, ?_, hslot.trans (hentry j hj).symm⟩, hlength⟩
    rw [hallocated]
    exact Finset.mem_insert_of_mem hj
  · rw [hallocated, Finset.mem_insert] at hj
    rcases hj with rfl | hj
    · rw [hgrown.entry, Nat.add_assoc]
      exact hgrown.blank _ (by omega)
    · rw [hentry j hj] at hbit ⊢
      rw [hgrown.kept_block h hi hj (by omega) (by omega)]
      refine h.blank j hj k hk ?_
      rw [← hbit]
      refine (congrArg (fun bits => msbFirst.bit bits (k / 512)) (bitmapOf_congr ?_)).symm
      exact stretch_congr fun l hl => hgrown.kept_block h hi hj (by omega) (by omega)

/-- A blank block shows nothing new. -/
theorem shown_eq (hgrown : g.Grown i f f') (h : g.Laid base head bmp f) (hi : i < g.tableEntries)
    (habsent : g.entry f.content i = absentBlock) :
    ∀ x < g.capacity, g.shown f'.content x = g.shown f.content x := by
  intro x hx
  have hentry : x / g.block < g.tableEntries := Nat.div_lt_of_lt_mul (by rwa [Nat.mul_comm])
  have hmod := Nat.mod_lt x h.block_pos
  have hraw : g.rawSize = g.bitmapSize + g.block := rfl
  unfold shown
  by_cases hxi : x / g.block = i
  · rw [hxi, habsent]
    dsimp only
    rw [hgrown.entry, Nat.add_assoc, hgrown.blank _ (by omega)]
    simp
  · rw [hgrown.entry_of_ne h hentry hxi]
    by_cases habsent' : g.entry f.content (x / g.block) = absentBlock
    · simp [habsent']
    · simp only [if_neg habsent']
      exact hgrown.kept_block h hi (mem_allocated.2 ⟨hentry, habsent'⟩) (by omega) (by omega)

end Grown

/-- A file without blocks: the footer follows the table. -/
theorem laid_blank (h : g.Sized base) (hsize : f.size = base + 512)
    (htrailer : stretch f.content base 512 = g.footer)
    (habsent : ∀ i < g.tableEntries, g.entry f.content i = absentBlock) :
    g.Laid base (stretch f.content 0 g.tableOffset) none f := by
  have hallocated : g.allocated f.content = ∅ := by
    ext i
    simp only [mem_allocated, Finset.notMem_empty, iff_false]
    exact fun hi => hi.2 (habsent i hi.1)
  have hnone : ∀ i, i ∉ g.allocated f.content := by simp [hallocated]
  refine { h with
    head := rfl
    file_size := by simp [hallocated, hsize]
    trailer := ?_
    place := fun i hi => absurd hi (hnone i)
    apart := fun i hi => absurd hi (hnone i)
    pending := ?_
    blank := fun i hi => absurd hi (hnone i) }
  · rw [hsize, Nat.add_sub_cancel]
    exact htrailer
  · rintro b ⟨⟩

/-- The disk of such a file is blank. -/
theorem shown_blank (h : g.Sized base)
    (habsent : ∀ i < g.tableEntries, g.entry c i = absentBlock) :
    ∀ x < g.capacity, g.shown c x = 0 := by
  intro x hx
  have hentry : x / g.block < g.tableEntries := Nat.div_lt_of_lt_mul (by rwa [Nat.mul_comm])
  rw [← Nat.div_add_mod' x g.block]
  exact shown_of_absent (habsent _ hentry) (Nat.mod_lt x h.block_pos)

/-- The bitmap of a block is read. -/
theorem Laid.load (h : g.Laid base head none f) (hi : i ∈ g.allocated f.content) (offset : ℕ) :
    g.Laid base head
      (some (g.entry f.content i, stretch f.content (g.entry f.content i * 512) g.bitmapSize))
      (f.seek offset) := by
  refine h.keep rfl (fun _ _ => rfl) (fun _ _ _ => rfl) ?_ fun j hj k hk hbit =>
    h.blank j hj k hk ?_
  · rintro b ⟨⟩
    exact ⟨⟨i, hi, rfl⟩, length_stretch _ _ _⟩
  · rw [← hbit, bitmapOf_none]
    by_cases heq : g.entry f.content i = g.entry f.content j
    · rw [← heq]
      exact congrArg (fun bits => msbFirst.bit bits (k / 512)) (bitmapOf_self (_, _)).symm
    · rw [bitmapOf_of_ne heq]
      rfl

end VhdLayout

end Ps2Ripper
