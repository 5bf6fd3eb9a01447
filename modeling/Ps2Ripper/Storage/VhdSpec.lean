import Ps2Ripper.Storage.ImageFile
import Ps2Ripper.Storage.VhdLayout

/-!
# A VHD shows a disk

The calls of `VhdImage` carry out on the shown disk what they do on the bytes of an image.

* `Coherent`: the file is laid out, and the table was used as it is in the file;
* `readLoop_spec`, `writeLoop_spec`: the loops read and write the disk;
* `vhd_run`: programs that stay on the disk have the result that they have over plain bytes.
-/

namespace Ps2Ripper

open Binary Interactive Prog

/-! ### The table and the bitmaps of an open image -/

namespace Vhd

open VhdLayout

/-- The file is laid out, and the entries that were used before are those of the table. -/
structure Coherent (v : Vhd) (base : ℕ) (head : Bytes) (bmp : Option BlockBitmap) : Prop where
  laid : v.Laid base head bmp v.file
  decoded : ∀ i < v.tableEntries, ∀ slot, v.decoded i = some slot → slot = v.entry v.file.content i

/-- The disk that an image shows. -/
def disk (v : Vhd) : ℕ → UInt8 := v.shown v.file.content

/-- The blocks of an image that are in its file. -/
def blocks (v : Vhd) : Finset ℕ := v.allocated v.file.content

/-- The sector of a block. -/
def slot (v : Vhd) (i : ℕ) : ℕ := v.entry v.file.content i

variable {v v' : Vhd} {base i : ℕ} {head : Bytes} {bmp : Option BlockBitmap} {α : Type}

theorem loadEntry_spec (h : v.Coherent base head bmp) (hi : i < v.tableEntries) :
    loadEntry i v =
      .ok (v.slot i) { v with decoded := Function.update v.decoded i (some (v.slot i)) } := by
  have htable := h.laid.table
  have hsize := h.laid.file_size
  have hfit : (v.file.seek (v.tableOffset + 4 * i)).pos + 4 ≤
      (v.file.seek (v.tableOffset + 4 * i)).size := by
    simp only [RawFile.seek_pos, RawFile.seek_size]
    omega
  unfold loadEntry
  rw [RawFile.read_of_le hfit]
  dsimp only
  rw [if_pos (length_stretch ..)]
  rfl

theorem bat_spec (h : v.Coherent base head bmp) (hi : i < v.tableEntries) :
    ∃ d, bat i v = .ok (v.slot i) { v with decoded := d } ∧
      ({ v with decoded := d } : Vhd).Coherent base head bmp := by
  have hload : ∃ d, loadEntry i v = .ok (v.slot i) { v with decoded := d } ∧
      ({ v with decoded := d } : Vhd).Coherent base head bmp := by
    refine ⟨_, loadEntry_spec h hi, h.laid, fun j hj slot hslot => ?_⟩
    by_cases hij : j = i
    · subst hij
      simpa [Vhd.slot] using hslot.symm
    · simp only [Function.update_of_ne hij] at hslot
      exact h.decoded j hj slot hslot
  unfold bat
  rw [if_pos hi]
  cases hdecoded : v.decoded i with
  | none => exact hload
  | some slot =>
    by_cases hzero : slot = 0
    · simp only [hzero, if_true]
      exact hload
    · simp only [if_neg hzero]
      refine ⟨v.decoded, ?_, h⟩
      rw [h.decoded i hi slot hdecoded]
      rfl

/-- The stream may stand anywhere between two calls. -/
theorem Coherent.seek (h : v.Coherent base head bmp) (n : ℕ) :
    ({ v with file := v.file.seek n } : Vhd).Coherent base head bmp :=
  ⟨{ h.laid with }, h.decoded⟩

theorem Coherent.moveTo (h : v.Coherent base head bmp) (n : ℕ) :
    ({ v with pos := n } : Vhd).Coherent base head bmp :=
  ⟨h.laid, h.decoded⟩

/-- The bitmap of a block in the file. -/
def bitmap (v : Vhd) (i : ℕ) : Bytes := stretch v.file.content (v.slot i * 512) v.bitmapSize

theorem loadBitmap_spec (h : v.Coherent base head bmp) (hi : i ∈ v.blocks) :
    ∃ n, loadBitmap (v.slot i) v =
      .ok (v.slot i, v.bitmap i) { v with file := v.file.seek n } := by
  have hbounds : base ≤ v.slot i * 512 ∧ v.slot i * 512 + v.rawSize + 512 ≤ v.file.size :=
    h.laid.bounds hi
  have hraw : v.rawSize = v.bitmapSize + v.block := rfl
  have hfit : (v.file.seek (v.slot i * 512)).pos + v.bitmapSize ≤
      (v.file.seek (v.slot i * 512)).size := by
    simp only [RawFile.seek_pos, RawFile.seek_size]
    omega
  refine ⟨v.slot i * 512 + v.bitmapSize, ?_⟩
  unfold loadBitmap
  rw [RawFile.read_of_le hfit]
  rfl

/-! ### Reading -/

/-- Nothing has to be blanked where a block is blank already. -/
theorem blankSector_eq {bits result : Bytes} {offset got : ℕ} (hlength : result.length = got)
    (h : ∀ k < got, msbFirst.bit bits ((offset + k) / 512) = false → result[k]? = some 0)
    (sector : ℕ) : blankSector bits offset got result sector = result := by
  unfold blankSector
  by_cases hbit : msbFirst.bit bits sector = true
  · rw [if_pos hbit]
  · rw [if_neg hbit]
    refine BitOrder.splice_self (List.eq_replicate_iff.2 ⟨?_, fun b hb => ?_⟩)
    · simp only [List.length_replicate, List.length_take, List.length_drop]
      omega
    · obtain ⟨k, hk⟩ := List.mem_iff_getElem?.1 hb
      rw [List.getElem?_take, List.getElem?_drop, List.length_replicate] at hk
      split at hk
      · have hin : (offset + (max (sector * 512) offset - offset + k)) / 512 = sector := by omega
        rw [h _ (by omega) (by rw [hin]; simpa using hbit)] at hk
        exact (Option.some.inj hk).symm
      · cases hk

/-- The bitmaps that were kept from the rounds before are those of the file. -/
def Fetched (v : Vhd) (bmp : Option BlockBitmap) : Prop :=
  ∀ b, bmp = some b → b.2 = stretch v.file.content (b.1 * 512) v.bitmapSize

theorem fetched_none (v : Vhd) : v.Fetched none := by
  rintro b ⟨⟩

theorem fetchBitmap_spec (h : v.Coherent base head none) (hbmp : v.Fetched bmp)
    (hi : i ∈ v.blocks) :
    ∃ n, fetchBitmap bmp (v.slot i) v =
      .ok (v.slot i, v.bitmap i) { v with file := v.file.seek n } := by
  cases bmp with
  | none => exact loadBitmap_spec h hi
  | some b =>
    by_cases hb : b.1 = v.slot i
    · refine ⟨v.file.pos, ?_⟩
      have hbits : b = (v.slot i, v.bitmap i) := Prod.ext hb (by rw [hbmp b rfl, hb]; rfl)
      unfold fetchBitmap
      simp only [hb, if_true]
      rw [hbits]
      rfl
    · obtain ⟨n, hload⟩ := loadBitmap_spec h hi
      refine ⟨n, ?_⟩
      unfold fetchBitmap
      simp only [hb, if_false]
      exact hload

/-- The bytes where the stream stands, in a block of the file. -/
theorem disk_add {k : ℕ} (hi : v.pos / v.block ∈ v.blocks) (hk : v.pos % v.block + k < v.block) :
    v.disk (v.pos + k) =
      v.file.content (v.slot (v.pos / v.block) * 512 + v.bitmapSize + v.pos % v.block + k) := by
  have hshown := shown_of_mem hi hk
  rwa [← Nat.add_assoc, Nat.div_add_mod', ← Nat.add_assoc] at hshown

theorem readPart_spec {got : ℕ} (h : v.Coherent base head none) (hbmp : v.Fetched bmp)
    (hgot : 0 < got) (hin : v.pos % v.block + got ≤ v.block) (hi : v.pos / v.block ∈ v.blocks) :
    ∃ n bmp', readPart got bmp (v.slot (v.pos / v.block)) v = .ok (stretch v.disk v.pos got, bmp')
        { v with file := v.file.seek n, pos := v.pos + got } ∧ v.Fetched bmp' := by
  obtain ⟨n, hfetch⟩ := fetchBitmap_spec h hbmp hi
  have hbounds : base ≤ v.slot (v.pos / v.block) * 512 ∧
      v.slot (v.pos / v.block) * 512 + v.rawSize + 512 ≤ v.file.size := h.laid.bounds hi
  have hraw : v.rawSize = v.bitmapSize + v.block := rfl
  have hcovered := h.laid.covered
  have hbits : (v.bitmap (v.pos / v.block)).length = v.bitmapSize := length_stretch ..
  have hblank : ∀ k < got, msbFirst.bit (v.bitmap (v.pos / v.block))
      ((v.pos % v.block + k) / 512) = false → (stretch v.disk v.pos got)[k]? = some 0 := by
    intro k hk hbit
    have hzero := h.laid.blank _ hi _ (by omega) hbit
    rw [List.getElem?_eq_getElem (by simpa using hk), getElem_stretch, disk_add hi (by omega)]
    rw [← Nat.add_assoc] at hzero
    exact congrArg some hzero
  have hread : ((v.file.seek n).seek
      (v.slot (v.pos / v.block) * 512 + v.bitmapSize + v.pos % v.block)).read got =
        (stretch v.disk v.pos got, v.file.seek
          (v.slot (v.pos / v.block) * 512 + v.bitmapSize + v.pos % v.block + got)) := by
    rw [RawFile.read_of_le (by simp only [RawFile.seek_pos, RawFile.seek_size]; omega)]
    refine Prod.ext (stretch_congr fun k hk => (disk_add hi (by omega)).symm) rfl
  refine ⟨v.slot (v.pos / v.block) * 512 + v.bitmapSize + v.pos % v.block + got,
    some (v.slot (v.pos / v.block), v.bitmap (v.pos / v.block)), ?_, ?_⟩
  · unfold readPart
    rw [bind_of_ok hfetch, bind_of_ok (get_eq _)]
    dsimp only
    rw [hread, if_neg (by rw [hbits]; omega)]
    have hclear := List.foldl_fixed' (blankSector_eq (length_stretch v.disk v.pos got) hblank)
    rw [hclear]
    rfl
  · rintro b ⟨⟩
    rfl

/-- A round of `read` gets the bytes of the disk. -/
theorem readRound_spec {got : ℕ} (h : v.Coherent base head none) (hbmp : v.Fetched bmp)
    (hgot : 0 < got) (hin : v.pos % v.block + got ≤ v.block)
    (hentry : v.pos / v.block < v.tableEntries) :
    ∃ n d bmp', readRound got bmp v = .ok (stretch v.disk v.pos got, bmp')
        { v with file := v.file.seek n, pos := v.pos + got, decoded := d } ∧
      ({ v with file := v.file.seek n, pos := v.pos + got, decoded := d } : Vhd).Coherent
        base head none ∧ v.Fetched bmp' := by
  obtain ⟨d, hbat, hcoherent⟩ := bat_spec h hentry
  have hplace := Nat.div_add_mod' v.pos v.block
  unfold readRound
  rw [bind_of_ok (get_eq v), bind_of_ok hbat]
  by_cases habsent : v.slot (v.pos / v.block) = absentBlock
  · rw [if_pos habsent]
    refine ⟨v.file.pos, d, bmp, ?_, hcoherent.moveTo _, hbmp⟩
    have hzero : stretch v.disk v.pos got = List.replicate got 0 := by
      refine List.eq_replicate_iff.2 ⟨length_stretch .., fun b hb => ?_⟩
      obtain ⟨k, hk, rfl⟩ := List.mem_map.1 hb
      have hk := List.mem_range.1 hk
      rw [← hplace, Nat.add_assoc]
      exact shown_of_absent habsent (by omega)
    rw [hzero]
    rfl
  · rw [if_neg habsent]
    have hi : v.pos / v.block ∈ v.blocks := mem_allocated.2 ⟨hentry, habsent⟩
    obtain ⟨n, bmp', hread, hbmp'⟩ := readPart_spec hcoherent hbmp hgot hin hi
    exact ⟨n, d, bmp', hread, (hcoherent.moveTo _).seek n, hbmp'⟩

/-- A position on the disk lies in a block that the table has an entry for. -/
theorem div_lt {base : ℕ} {head : Bytes} (h : v.Coherent base head bmp) {x : ℕ} (hx : x < v.size) :
    x / v.block < v.tableEntries := by
  have hinside : v.size ≤ v.tableEntries * v.block := h.laid.inside
  exact Nat.div_lt_of_lt_mul (by rw [Nat.mul_comm]; omega)

/-- The loop reads the disk. -/
theorem readLoop_spec {rounds size : ℕ} (h : v.Coherent base head none) (hbmp : v.Fetched bmp)
    (hrounds : size ≤ rounds) (hin : v.pos + size ≤ v.size) :
    ∃ n d, readLoop rounds size bmp v = .ok (stretch v.disk v.pos size)
        { v with file := v.file.seek n, pos := v.pos + size, decoded := d } ∧
      ({ v with file := v.file.seek n, pos := v.pos + size, decoded := d } : Vhd).Coherent
        base head none := by
  induction rounds generalizing v size bmp with
  | zero =>
    obtain rfl : size = 0 := by omega
    exact ⟨v.file.pos, v.decoded, rfl, h⟩
  | succ rounds ih =>
    by_cases hzero : size = 0
    · subst hzero
      exact ⟨v.file.pos, v.decoded, rfl, h⟩
    have hmod := Nat.mod_lt v.pos h.laid.block_pos
    have hgot : 0 < min (v.block - v.pos % v.block) size := by omega
    have hle : min (v.block - v.pos % v.block) size ≤ size := Nat.min_le_right ..
    have hfit : v.pos % v.block + min (v.block - v.pos % v.block) size ≤ v.block := by omega
    unfold readLoop
    rw [if_neg hzero, bind_of_ok (get_eq v)]
    dsimp only
    generalize min (v.block - v.pos % v.block) size = got at hgot hle hfit
    obtain ⟨m, rfl⟩ := Nat.exists_eq_add_of_le hle
    rw [Nat.add_sub_cancel_left]
    obtain ⟨n, d, bmp', hround, hcoherent, hbmp'⟩ :=
      readRound_spec h hbmp hgot hfit (div_lt h (by omega))
    obtain ⟨n', d', hrest, hcoherent'⟩ :=
      ih hcoherent hbmp' (by omega : m ≤ rounds) (by show v.pos + got + m ≤ v.size; omega)
    dsimp only at hrest hcoherent'
    rw [Nat.add_assoc] at hrest hcoherent'
    refine ⟨n', d', ?_, hcoherent'⟩
    rw [bind_of_ok hround, bind_of_ok hrest, stretch_add]
    rfl

/-! ### Writing -/

theorem Coherent.withFile {f' : RawFile} {bmp' : Option BlockBitmap}
    (h : v.Coherent base head bmp) (hlaid : v.Laid base head bmp' f')
    (hlow : ∀ x < base, f'.content x = v.file.content x) :
    ({ v with file := f' } : Vhd).Coherent base head bmp' := by
  refine ⟨hlaid, fun j hj slot hslot => ?_⟩
  have hentry : v.entry f'.content j = v.entry v.file.content j := h.laid.entry_congr hlow hj
  exact (h.decoded j hj slot hslot).trans hentry.symm

theorem flushBitmap_spec {b : BlockBitmap} (h : v.Coherent base head (some b)) :
    ∃ f', flushBitmap b v = .ok () { v with file := f' } ∧
      ({ v with file := f' } : Vhd).Coherent base head none ∧
      (∀ x < base, f'.content x = v.file.content x) ∧
      ∀ x < v.capacity, v.shown f'.content x = v.disk x := by
  obtain ⟨hlaid, hlow, hshown⟩ := h.laid.flush
  exact ⟨_, rfl, h.withFile hlaid hlow, hlow, hshown⟩

theorem changeBitmap_spec (h : v.Coherent base head bmp) (hi : i ∈ v.blocks) :
    ∃ f' bits, changeBitmap bmp (v.slot i) v = .ok (v.slot i, bits) { v with file := f' } ∧
      ({ v with file := f' } : Vhd).Coherent base head (some (v.slot i, bits)) ∧
      (∀ x < base, f'.content x = v.file.content x) ∧
      ∀ x < v.capacity, v.shown f'.content x = v.disk x := by
  cases bmp with
  | none =>
    obtain ⟨n, hload⟩ := loadBitmap_spec h hi
    exact ⟨v.file.seek n, v.bitmap i, hload, ⟨h.laid.load hi n, h.decoded⟩, fun _ _ => rfl,
      fun _ _ => rfl⟩
  | some b =>
    by_cases hb : b.1 = v.slot i
    · have hbits : b = (v.slot i, b.2) := Prod.ext hb rfl
      refine ⟨v.file, b.2, ?_, hbits ▸ h, fun _ _ => rfl, fun _ _ => rfl⟩
      unfold changeBitmap
      simp only [hb, if_true]
      rw [← hbits]
      rfl
    · obtain ⟨f₁, hflush, hcoherent, hlow, hshown⟩ := flushBitmap_spec h
      have hslot : ({ v with file := f₁ } : Vhd).slot i = v.slot i :=
        h.laid.entry_congr hlow (mem_allocated.1 hi).1
      have hi₁ : i ∈ ({ v with file := f₁ } : Vhd).blocks := by
        show i ∈ v.allocated f₁.content
        rwa [h.laid.allocated_congr hlow]
      obtain ⟨n, hload⟩ := loadBitmap_spec hcoherent hi₁
      have hcoherent' : ({ v with file := f₁.seek n } : Vhd).Coherent base head
          (some (({ v with file := f₁ } : Vhd).slot i, ({ v with file := f₁ } : Vhd).bitmap i)) :=
        ⟨hcoherent.laid.load hi₁ n, hcoherent.decoded⟩
      rw [hslot] at hload hcoherent'
      refine ⟨f₁.seek n, _, ?_, hcoherent', hlow, hshown⟩
      unfold changeBitmap
      simp only [hb, if_false]
      rw [bind_of_ok hflush]
      exact hload

theorem writePart_spec {data : Bytes} (h : v.Coherent base head bmp)
    (hi : v.pos / v.block ∈ v.blocks) (hdata : data ≠ [])
    (hin : v.pos % v.block + data.length ≤ v.block) :
    ∃ f' bmp', writePart data bmp (v.slot (v.pos / v.block)) v =
        .ok bmp' { v with file := f', pos := v.pos + data.length } ∧
      ({ v with file := f', pos := v.pos + data.length } : Vhd).Coherent base head bmp' ∧
      ∀ x < v.capacity, v.shown f'.content x = overlay v.disk v.pos data x := by
  obtain ⟨f₁, bits, hchange, hcoherent, hlow, hshown⟩ := changeBitmap_spec h hi
  have hlength : bits.length = v.bitmapSize := (hcoherent.laid.pending _ rfl).2
  have hpos := List.length_pos_iff.2 hdata
  have hcovered := h.laid.covered
  have hslot : v.entry f₁.content (v.pos / v.block) = v.slot (v.pos / v.block) :=
    h.laid.entry_congr hlow (mem_allocated.1 hi).1
  have hi₁ : v.pos / v.block ∈ v.allocated f₁.content := by rwa [h.laid.allocated_congr hlow]
  obtain ⟨bits', hset, hlength', hbits⟩ := BitOrder.bit_setRun msbFirst false
    (by omega : v.pos % v.block / 512 + ((v.pos % v.block + data.length - 1) / 512 -
      v.pos % v.block / 512 + 1) ≤ 8 * bits.length)
  have hmarked : ∀ k, msbFirst.bit bits' k = true ↔ msbFirst.bit bits k = true ∨
      v.pos % v.block / 512 ≤ k ∧ k ≤ (v.pos % v.block + data.length - 1) / 512 := by
    intro k
    rw [hbits]
    split
    · rename_i hrange
      simp only [Bool.not_false, true_iff]
      exact .inr (by omega)
    · rename_i hrange
      constructor
      · exact .inl
      · exact fun h' => h'.resolve_right (by omega)
  have hlaid := hcoherent.laid
  rw [← hslot] at hlaid
  obtain ⟨hlaid', hlow', hshown'⟩ := hlaid.writeData hi₁ hin hlength' hmarked
  rw [hslot] at hlaid' hlow' hshown'
  refine ⟨_, some (v.slot (v.pos / v.block), bits'), ?_,
    (hcoherent.withFile hlaid' hlow').moveTo (v.pos + data.length), fun x hx => ?_⟩
  · unfold writePart
    rw [bind_of_ok (get_eq v), bind_of_ok hchange]
    simp only [hset]
    rfl
  · rw [hshown' x hx, Nat.div_add_mod']
    exact overlay_apply_congr (hshown x hx)

theorem setBat_of_lt {slot : ℕ} (h : slot < 2 ^ 32) :
    setBat i slot v = .ok () { v with
      decoded := Function.update v.decoded i (some slot)
      file := ((v.file.seek (v.tableOffset + 4 * i)).write (bytes 4 slot).reverse).seek
        v.file.pos } := by
  unfold setBat
  rw [if_pos h]

theorem allocate_eq {slot : ℕ} (hslot : (v.file.size - 512) / 512 = slot) (h : slot < 2 ^ 32) :
    allocate i v = .ok slot { v with
      decoded := Function.update v.decoded i (some slot)
      file := (((((v.file.seek (v.tableOffset + 4 * i)).write (bytes 4 slot).reverse).seek
        (v.file.size - 512)).write (List.replicate v.bitmapSize 0)).write
          (List.replicate v.block 0)).write v.footer } := by
  have hset := setBat_of_lt (v := { v with file := v.file.seekEnd 512 }) (i := i) h
  have hpos : (v.file.seekEnd 512).pos / 512 = slot := hslot
  unfold allocate
  rw [bind_of_ok (modify_eq _ _), bind_of_ok (get_eq _), hpos, bind_of_ok hset,
    bind_of_ok (modify_eq _ _), bind_of_ok (modify_eq _ _), bind_of_ok (modify_eq _ _)]
  simp only [RawFile.seekEnd_seek, RawFile.seekEnd_pos]
  rfl

theorem allocate_spec (h : v.Coherent base head bmp) (hi : i < v.tableEntries)
    (habsent : v.slot i = absentBlock) :
    ∃ f' d, allocate i v = .ok (v.entry f'.content i) { v with file := f', decoded := d } ∧
      ({ v with file := f', decoded := d } : Vhd).Coherent base head bmp ∧
      i ∈ v.allocated f'.content ∧ ∀ x < v.capacity, v.shown f'.content x = v.disk x := by
  obtain ⟨hdiv, hpresent⟩ := h.laid.slot_spec hi habsent
  have hallocate := allocate_eq (i := i) rfl (hpresent.trans (by decide))
  have hgrown := h.laid.grown hi habsent
  dsimp only at hgrown
  generalize RawFile.write _ v.footer = f' at hallocate hgrown
  have hslot : v.entry f'.content i = (v.file.size - 512) / 512 := by
    have hplace := hgrown.entry
    omega
  rw [← hslot] at hallocate
  refine ⟨f', _, hallocate, ⟨hgrown.laid h.laid hi habsent, fun j hj slot hd => ?_⟩, ?_,
    hgrown.shown_eq h.laid hi habsent⟩
  · by_cases hij : j = i
    · subst hij
      simpa using hd.symm
    · simp only [Function.update_of_ne hij] at hd
      exact (h.decoded j hj slot hd).trans (hgrown.entry_of_ne h.laid hj hij).symm
  · rw [hgrown.allocated_eq h.laid hi]
    exact Finset.mem_insert_self _ _

/-- A round of `write` puts its part on the disk. -/
theorem writeRound_spec {data : Bytes} (h : v.Coherent base head bmp) (hdata : data ≠ [])
    (hin : v.pos % v.block + data.length ≤ v.block) (hentry : v.pos / v.block < v.tableEntries) :
    ∃ f' d bmp', writeRound data bmp v =
        .ok bmp' { v with file := f', pos := v.pos + data.length, decoded := d } ∧
      ({ v with file := f', pos := v.pos + data.length, decoded := d } : Vhd).Coherent
        base head bmp' ∧
      ∀ x < v.capacity, v.shown f'.content x = overlay v.disk v.pos data x := by
  obtain ⟨d, hbat, hcoherent⟩ := bat_spec h hentry
  unfold writeRound
  rw [bind_of_ok (get_eq v), bind_of_ok hbat]
  by_cases habsent : v.slot (v.pos / v.block) = absentBlock
  · rw [if_pos habsent]
    by_cases hzero : data = List.replicate data.length 0
    · rw [if_pos hzero]
      refine ⟨v.file, d, bmp, rfl, hcoherent.moveTo _, fun x _ => ?_⟩
      show v.disk x = _
      by_cases hx : v.pos ≤ x ∧ x < v.pos + data.length
      · obtain ⟨k, rfl⟩ := Nat.exists_eq_add_of_le hx.1
        have hk : k < data.length := by omega
        have hblank : v.disk (v.pos + k) = 0 := by
          rw [← Nat.div_add_mod' v.pos v.block, Nat.add_assoc]
          exact shown_of_absent habsent (by omega)
        rw [overlay_add hk, hblank]
        exact ((List.eq_replicate_iff.1 hzero).2 _ (List.getElem_mem hk)).symm
      · by_cases hlt : x < v.pos
        · rw [overlay_of_lt hlt]
        · rw [overlay_of_le (by omega)]
    · rw [if_neg hzero]
      obtain ⟨f₁, d₁, hallocate, hcoherent₁, hi, hshown₁⟩ := allocate_spec hcoherent hentry habsent
      obtain ⟨f', bmp', hwrite, hcoherent', hshown⟩ := writePart_spec hcoherent₁ hi hdata hin
      refine ⟨f', d₁, bmp', ?_, hcoherent', fun x hx => ?_⟩
      · rw [bind_of_ok hallocate]
        exact hwrite
      · rw [hshown x hx]
        exact overlay_apply_congr (hshown₁ x hx)
  · rw [if_neg habsent]
    have hi : v.pos / v.block ∈ v.blocks := mem_allocated.2 ⟨hentry, habsent⟩
    obtain ⟨f', bmp', hwrite, hcoherent', hshown⟩ := writePart_spec hcoherent hi hdata hin
    exact ⟨f', d, bmp', hwrite, hcoherent', hshown⟩

theorem flushLast_spec (h : v.Coherent base head bmp) :
    ∃ f', flushLast bmp v = .ok () { v with file := f' } ∧
      ({ v with file := f' } : Vhd).Coherent base head none ∧
      ∀ x < v.capacity, v.shown f'.content x = v.disk x := by
  cases bmp with
  | none => exact ⟨v.file, rfl, h, fun _ _ => rfl⟩
  | some b =>
    obtain ⟨f', hflush, hcoherent, -, hshown⟩ := flushBitmap_spec h
    exact ⟨f', hflush, hcoherent, hshown⟩

/-- The loop writes the disk. -/
theorem writeLoop_spec {rounds : ℕ} {data : Bytes} (h : v.Coherent base head bmp)
    (hrounds : data.length ≤ rounds) (hin : v.pos + data.length ≤ v.size) :
    ∃ f' d, writeLoop rounds data bmp v =
        .ok () { v with file := f', pos := v.pos + data.length, decoded := d } ∧
      ({ v with file := f', pos := v.pos + data.length, decoded := d } : Vhd).Coherent
        base head none ∧
      ∀ x < v.capacity, v.shown f'.content x = overlay v.disk v.pos data x := by
  induction rounds generalizing v data bmp with
  | zero =>
    obtain rfl : data = [] := List.eq_nil_of_length_eq_zero (by omega)
    obtain ⟨f', hflush, hcoherent, hshown⟩ := flushLast_spec h
    exact ⟨f', v.decoded, hflush, hcoherent, fun x hx => by rw [overlay_nil]; exact hshown x hx⟩
  | succ rounds ih =>
    by_cases hnil : data = []
    · subst hnil
      obtain ⟨f', hflush, hcoherent, hshown⟩ := flushLast_spec h
      exact ⟨f', v.decoded, hflush, hcoherent, fun x hx => by rw [overlay_nil]; exact hshown x hx⟩
    have hpos := List.length_pos_iff.2 hnil
    have hmod := Nat.mod_lt v.pos h.laid.block_pos
    have hput : 0 < min (v.block - v.pos % v.block) data.length := by omega
    have hle : min (v.block - v.pos % v.block) data.length ≤ data.length := Nat.min_le_right ..
    have hfit : v.pos % v.block + min (v.block - v.pos % v.block) data.length ≤ v.block := by omega
    unfold writeLoop
    rw [if_neg hnil, bind_of_ok (get_eq v)]
    generalize min (v.block - v.pos % v.block) data.length = put at hput hle hfit
    have hlength : (data.take put).length = put := List.length_take_of_le hle
    have hdrop : (data.drop put).length = data.length - put := List.length_drop
    obtain ⟨f₁, d₁, bmp₁, hround, hcoherent₁, hshown₁⟩ := writeRound_spec h
      (List.length_pos_iff.1 (by omega) : data.take put ≠ []) (by omega) (div_lt h (by omega))
    rw [hlength] at hround hcoherent₁
    obtain ⟨f', d', hrest, hcoherent', hshown⟩ :=
      ih hcoherent₁ (by omega : (data.drop put).length ≤ rounds)
        (by show v.pos + put + _ ≤ v.size; omega)
    dsimp only at hrest hcoherent' hshown
    have hend : v.pos + put + (data.drop put).length = v.pos + data.length := by omega
    rw [hend] at hrest hcoherent'
    refine ⟨f', d', ?_, hcoherent', fun x hx => ?_⟩
    · rw [bind_of_ok hround]
      exact hrest
    · rw [hshown x hx]
      refine (overlay_apply_congr (hshown₁ x hx)).trans ?_
      conv_rhs => rw [← List.take_append_drop put data, overlay_append, hlength]

/-! ### The calls -/

/-- An image shows the bytes of a disk, and stands where it does. -/
structure Shows (v : Vhd) (g : VhdLayout) (base : ℕ) (head : Bytes) (s : DiskImage) : Prop where
  layout : v.toVhdLayout = g
  coherent : v.Coherent base head none
  size : v.size = s.size
  pos : v.pos = s.pos
  pos_le : s.pos ≤ s.size
  shown : ∀ x < s.size, v.disk x = s.content x

variable {g : VhdLayout} {s : DiskImage}

theorem perform_of_ok {o : RawOp} {a : o.Answer} (h : call o v = .ok a v') :
    v.perform o = (.ok a, v') := by
  unfold perform
  rw [h]

theorem Shows.read (h : v.Shows g base head s) {size : ℤ} (hsize : 0 ≤ size) :
    ∃ v', read size v = .ok (s.read size).1 v' ∧ v'.Shows g base head (s.read size).2 := by
  have hle := h.pos_le
  have hpos := h.pos
  have htotal := h.size
  have hcount : (if size = -1 ∨ (v.size : ℤ) < v.pos + size then (v.size : ℤ) - v.pos else size) =
      (min size.toNat (s.size - s.pos) : ℕ) := by
    split <;> omega
  have hbytes : (s.read size).1 = stretch s.content s.pos (min size.toNat (s.size - s.pos)) := by
    show s.bytes s.pos (if size < 0 then s.size else size.toNat) = _
    rw [if_neg (by omega)]
    rfl
  obtain ⟨n, d, hloop, hcoherent⟩ := readLoop_spec h.coherent (fetched_none v) le_rfl
    (by omega : v.pos + min size.toNat (s.size - s.pos) ≤ v.size)
  have hdisk : stretch v.disk v.pos (min size.toNat (s.size - s.pos)) = (s.read size).1 := by
    rw [hbytes]
    refine stretch_congr fun k hk => ?_
    rw [hpos]
    exact h.shown _ (by omega)
  rw [hdisk] at hloop
  refine ⟨{ v with
      file := v.file.seek n, pos := v.pos + min size.toNat (s.size - s.pos), decoded := d },
    ?_, h.layout, hcoherent, h.size, ?_, ?_, h.shown⟩
  · unfold Vhd.read
    rw [bind_of_ok (get_eq v), hcount, if_neg (by omega), Int.toNat_natCast]
    exact hloop
  · show v.pos + _ = s.pos + ((s.read size).1).length
    rw [hbytes, length_stretch, hpos]
  · show s.pos + ((s.read size).1).length ≤ s.size
    rw [hbytes, length_stretch]
    omega

theorem Shows.write (h : v.Shows g base head s) {data : Bytes}
    (hin : s.pos + data.length ≤ s.size) :
    ∃ v', write data v = .ok () v' ∧ v'.Shows g base head (s.write data) := by
  have hpos := h.pos
  have hsize := h.size
  have hinside : v.size ≤ v.capacity := h.coherent.laid.inside
  by_cases hnil : data = []
  · subst hnil
    refine ⟨v, rfl, h.layout, h.coherent, h.size, ?_, Nat.min_le_left .., fun x hx => ?_⟩
    · show v.pos = min s.size (s.pos + 0)
      omega
    · rw [h.shown x hx]
      exact (congrFun (overlay_nil s.content s.pos) x).symm
  · obtain ⟨f', d, hloop, hcoherent, hshown⟩ :=
      writeLoop_spec h.coherent le_rfl (by omega : v.pos + data.length ≤ v.size)
    refine ⟨{ v with file := f', pos := v.pos + data.length, decoded := d },
      ?_, h.layout, hcoherent, h.size, ?_, Nat.min_le_left .., fun x hx => ?_⟩
    · unfold Vhd.write
      rw [if_neg hnil]
      exact hloop
    · show v.pos + data.length = min s.size (s.pos + data.length)
      omega
    · have hx : x < s.size := hx
      show v.shown f'.content x = overlay s.content s.pos data x
      rw [hshown x (by omega), hpos]
      exact overlay_apply_congr (h.shown x hx)

theorem Shows.seek (h : v.Shows g base head s) {offset : ℤ} (hpos : 0 ≤ offset)
    (hlt : offset < s.size) :
    ∃ v', seek offset 0 v = .ok () v' ∧ v'.Shows g base head (s.seek offset 0) := by
  have hsize := h.size
  refine ⟨{ v with pos := offset.toNat }, if_neg ?_, h.layout, h.coherent.moveTo _, h.size, ?_, ?_,
    h.shown⟩
  · show ¬v.size ≤ offset.toNat
    omega
  · show offset.toNat = (max 0 (min offset (s.size : ℤ))).toNat
    omega
  · show (max 0 (min offset (s.size : ℤ))).toNat ≤ s.size
    omega

/-- One call on the disk. -/
theorem Shows.perform {o : RawOp} (h : v.Shows g base head s) (ho : InsideCall s o) :
    ∃ v', v.perform o = ((s.perform o).1, v') ∧ v'.Shows g base head (s.perform o).2 := by
  cases o with
  | seek offset whence =>
    obtain ⟨rfl, hpos, hlt⟩ := ho
    obtain ⟨v', hseek, hshows⟩ := h.seek hpos hlt
    exact ⟨v', perform_of_ok (o := .seek offset 0) hseek, hshows⟩
  | tell =>
    have hpos : (s.perform .tell).1 = .ok v.pos := congrArg Except.ok h.pos.symm
    exact ⟨v, by rw [hpos]; rfl, h⟩
  | read size =>
    obtain ⟨v', hread, hshows⟩ := h.read ho
    exact ⟨v', perform_of_ok (o := .read size) hread, hshows⟩
  | write data =>
    obtain ⟨v', hwrite, hshows⟩ := h.write ho
    exact ⟨v', perform_of_ok (o := .write data) hwrite, hshows⟩
  | flush => exact ⟨v, rfl, h⟩

end Vhd

/-! ### Programs on a VHD -/

def runVhd {α : Type} (p : RawProgram α) (v : Vhd) : Outcome PyError α Vhd :=
  run (fun _ v o => Vhd.perform v o) p 0 v

def insideContract : Contract rawInterface PyError DiskImage where
  may s o := InsideCall s o
  answers s o r s' := s.perform o = (r, s')

/-- No call of the program leaves the disk. -/
def Inside {α : Type} (p : RawProgram α) (s : DiskImage) : Prop :=
  wp insideContract p (fun _ _ => True) (fun _ _ => True) s

variable {α : Type} {p : RawProgram α} {v : Vhd} {g : VhdLayout} {s : DiskImage} {base : ℕ}
  {head : Bytes}

theorem Careful.inside {g : DiskImage × Bool} (h : Careful p g) : Inside p g.1 := by
  induction p generalizing g with
  | pure a => trivial
  | raise e => trivial
  | call o k ih =>
    refine ⟨h.1.2, fun r s' hanswer => ?_⟩
    exact ih r (h.2 r (s', aims g.1 g.2 o) ⟨hanswer, rfl⟩)

/-- Where every call inside is carried out as over the bytes `s`, so is a program that stays
inside. -/
theorem run_inside {W : Type} {f : W → (o : RawOp) → Except PyError o.Answer × W}
    {R : W → DiskImage → Prop}
    (hstep : ∀ w s o, R w s → InsideCall s o →
      ∃ w', f w o = ((s.perform o).1, w') ∧ R w' (s.perform o).2)
    (hp : Inside p s) {w : W} (h : R w s) (clock : ℕ) :
    (run (fun _ w o => f w o) p clock w).result =
        (run (fun _ s o => DiskImage.perform s o) p clock s).result ∧
      R (run (fun _ w o => f w o) p clock w).world
        (run (fun _ s o => DiskImage.perform s o) p clock s).world := by
  induction p generalizing s w clock with
  | pure a => exact ⟨rfl, h⟩
  | raise e => exact ⟨rfl, h⟩
  | call o k ih =>
    obtain ⟨w', hperform, hshows⟩ := hstep w s o h hp.1
    have hrest := hp.2 (s.perform o).1 (s.perform o).2 rfl
    have hrun := ih (s.perform o).1 hrest hshows (clock + 1)
    simp only [run, hperform]
    exact hrun

/-- A program that stays on the disk has the result that it has over plain bytes, and leaves an
image that shows these. -/
theorem Vhd.Shows.run (h : v.Shows g base head s) (hp : Inside p s) :
    (runVhd p v).result = (runImage p s).result ∧
      (runVhd p v).world.Shows g base head (runImage p s).world :=
  run_inside (f := Vhd.perform) (R := fun v s => v.Shows g base head s)
    (fun _ _ _ h ho => h.perform ho) hp h 0

/-- **A VHD is a disk.**  Over an image whose file is laid out, in which some blocks may be missing,
a program that stays on the disk has the result that it has over the bytes that the image shows.
The file is laid out again when the program has ended, in the same way at its beginning, and shows
the bytes that the program has left. -/
theorem vhd_run (p : RawProgram α) (v : Vhd) (hv : v.Coherent base head none)
    (hpos : v.pos ≤ v.size)
    (hp : Inside p ⟨v.pos, v.size, v.disk⟩) :
    let out := runVhd p v
    let plain := runImage p ⟨v.pos, v.size, v.disk⟩
    out.result = plain.result ∧ out.world.Coherent base head none ∧
      out.world.toVhdLayout = v.toVhdLayout ∧
      ∀ x < v.size, out.world.disk x = plain.world.content x := by
  intro out plain
  have hshows : v.Shows v.toVhdLayout base head ⟨v.pos, v.size, v.disk⟩ :=
    ⟨rfl, hv, rfl, rfl, hpos, fun _ _ => rfl⟩
  obtain ⟨hresult, hend⟩ := hshows.run hp
  have hkept : plain.world.size = v.size := size_runImage p ⟨v.pos, v.size, v.disk⟩ 0
  exact ⟨hresult, hend.coherent, hend.layout, fun x hx => hend.shown x (hkept.symm ▸ hx)⟩

/-- An image of eight blocks of one sector, without any of them. -/
def sampleVhd : Vhd where
  size := 4096
  block := 512
  tableOffset := 1536
  tableEntries := 8
  footer := List.replicate 512 0xFF
  file := ⟨2560, fun _ => 0xFF, 0⟩
  pos := 0
  decoded := fun _ => none

theorem stretch_const (b : UInt8) (pos n : ℕ) :
    stretch (fun _ => b) pos n = List.replicate n b := by
  simp [stretch]

theorem coherent_sampleVhd : sampleVhd.Coherent 2048 (List.replicate 1536 0xFF) none := by
  have hbitmap : sampleVhd.bitmapSize = 512 := rfl
  have hsized : sampleVhd.Sized 2048 := by
    refine ⟨by decide, dvd_rfl, hbitmap ▸ dvd_rfl, ?_, le_rfl, by decide, by decide, ?_, ?_⟩
    · rw [hbitmap]
      decide
    · show 2048 + 8 * (sampleVhd.bitmapSize + 512) < absentBlock * 512
      rw [hbitmap]
      decide
    · exact List.length_replicate
  have hlaid := VhdLayout.laid_blank (f := sampleVhd.file) hsized rfl
    (stretch_const 0xFF 2048 512) ?_
  · have hhead : stretch sampleVhd.file.content 0 sampleVhd.tableOffset =
      List.replicate 1536 0xFF :=
      stretch_const 0xFF 0 1536
    rw [hhead] at hlaid
    refine ⟨hlaid, ?_⟩
    rintro i - slot ⟨⟩
  · intro i hi
    show value (stretch (fun _ => 0xFF) _ 4).reverse = absentBlock
    rw [stretch_const]
    decide

theorem inside_writeAndReadBack (content : ℕ → UInt8) :
    Inside writeAndReadBack ⟨0, 4096, content⟩ := by
  refine ⟨⟨rfl, by decide, (by decide : (510 : ℤ) < (4096 : ℕ))⟩, ?_⟩
  rintro _ s₁ ⟨⟩
  refine ⟨(by decide : 510 + 4 ≤ 4096), ?_⟩
  rintro _ s₂ ⟨⟩
  refine ⟨⟨rfl, by decide, (by decide : (509 : ℤ) < (4096 : ℕ))⟩, ?_⟩
  rintro _ s₃ ⟨⟩
  refine ⟨(by decide : (0 : ℤ) ≤ 5), ?_⟩
  rintro _ s₄ ⟨⟩
  trivial

theorem vhd_run_sample :
    let out := runVhd writeAndReadBack sampleVhd
    let plain := runImage writeAndReadBack ⟨0, 4096, sampleVhd.disk⟩
    out.result = plain.result ∧ out.world.Coherent 2048 (List.replicate 1536 0xFF) none ∧
      out.world.toVhdLayout = sampleVhd.toVhdLayout ∧
      ∀ x < 4096, out.world.disk x = plain.world.content x := by
  exact vhd_run writeAndReadBack sampleVhd coherent_sampleVhd (Nat.zero_le _)
    (inside_writeAndReadBack sampleVhd.disk)

end Ps2Ripper
