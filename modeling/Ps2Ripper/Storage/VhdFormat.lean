import Ps2Ripper.Storage.VhdSpec

/-!
# Creating and opening VHD images

`mk_dynamic` and the constructor of `Image` of `FATtools/vhdutils.py`, and `initialize_vhd` of
`storage/exfat.py`.

* `VhdFooter`, `DynamicHeader`: the records, which end with a checksum of themselves (`stamp`);
* `mkDynamic`: the file of a new image;
* `batIsValid`, `openDynamic`: the table is checked when an image is opened;
* `openDynamic_spec`: a file that is laid out and described by its records is opened as that;
* `vhd_reopened`: what a program leaves is there when the image is opened again;
* `initializeVhd_accepted`: so is the disk of the formatter.
-/

namespace Ps2Ripper

open Binary Interactive Prog

/-! ### Records -/

/-- `struct.pack` of one unsigned field, with the highest byte first. -/
def packBig (width value : ℕ) : Except PyError Bytes := (packField width value).map List.reverse

/-- `struct.unpack_from` of such a field. -/
def unpackBig (data : Bytes) (offset width : ℕ) : Except PyError ℕ :=
  match region data offset width with
  | some field => .ok (value field.reverse)
  | none => .error (.otherError "unpack_from requires a larger buffer")

/-- `mk_crc`: the complement of the sum of the bytes. -/
def mkCrc (data : Bytes) : Bytes := (bytes 4 (2 ^ 32 - 1 - (data.map UInt8.toNat).sum)).reverse

/-- The checksum of a record is put into it. -/
def stamp (offset : ℕ) (data : Bytes) : Bytes :=
  BitOrder.splice data offset (mkCrc (BitOrder.splice data offset (zeros 4)))

/-- `mk_chs`: cylinders, heads and sectors of a track. -/
def mkChs (size : ℕ) : ℕ × ℕ × ℕ :=
  let sectors := min (size / 512) (65535 * 16 * 255)
  if 65535 * 16 * 63 ≤ sectors then (sectors / 255 / 16, 16, 255)
  else
    let cth := sectors / 17
    let hh := max 4 ((cth + 1023) / 1024)
    if hh * 1024 ≤ cth ∨ 16 < hh then
      if 16 * 1024 ≤ sectors / 31 then (sectors / 63 / 16, 16, 63) else (sectors / 31 / 16, 16, 31)
    else (cth / hh, hh, 17)

def conectix : Field 8 := ⟨[99, 111, 110, 101, 99, 116, 105, 120], rfl⟩

def wi2k : Field 4 := ⟨[87, 105, 50, 107], rfl⟩

def cxsparse : Field 8 := ⟨[99, 120, 115, 112, 97, 114, 115, 101], rfl⟩

/-- `Footer`, for a dynamic disk. -/
structure VhdFooter where
  features : ℕ := 2
  fileFormatVersion : ℕ := 0x10000
  dataOffset : ℕ := 512
  timestamp : ℕ
  creatorApp : Field 4 := ⟨[80, 121, 32, 32], rfl⟩
  creatorVer : ℕ := 0x3000A
  creatorHost : Field 4 := wi2k
  originalSize : ℕ
  currentSize : ℕ
  diskGeometry : ℕ × ℕ × ℕ
  diskType : ℕ := 3
  uniqueId : Field 16
  savedState : ℕ := 0

/-- The fields, with a blank checksum. -/
def VhdFooter.layout (ft : VhdFooter) : List (Except PyError Bytes) :=
  [.ok conectix.1, packBig 4 ft.features, packBig 4 ft.fileFormatVersion, packBig 8 ft.dataOffset,
    packBig 4 ft.timestamp, .ok ft.creatorApp.1, packBig 4 ft.creatorVer, .ok ft.creatorHost.1,
    packBig 8 ft.originalSize, packBig 8 ft.currentSize, packBig 2 ft.diskGeometry.1,
    packBig 1 ft.diskGeometry.2.1, packBig 1 ft.diskGeometry.2.2, packBig 4 ft.diskType,
    .ok (zeros 4), .ok ft.uniqueId.1, packBig 1 ft.savedState]

def VhdFooter.pack (ft : VhdFooter) : Except PyError Bytes :=
  (ft.layout.mapM id).map fun fields => stamp 64 (fields.flatten ++ zeros 427)

/-- `DynamicHeader`, without a parent. -/
structure DynamicHeader where
  dataOffset : ℕ := 0xFFFFFFFFFFFFFFFF
  tableOffset : ℕ := 1536
  version : ℕ := 0x10000
  maxTableEntries : ℕ
  blockSize : ℕ

/-- The fields, with a blank checksum. -/
def DynamicHeader.layout (h : DynamicHeader) : List (Except PyError Bytes) :=
  [.ok cxsparse.1, packBig 8 h.dataOffset, packBig 8 h.tableOffset, packBig 4 h.version,
    packBig 4 h.maxTableEntries, packBig 4 h.blockSize, .ok (zeros 4)]

def DynamicHeader.pack (h : DynamicHeader) : Except PyError Bytes :=
  (h.layout.mapM id).map fun fields => stamp 36 (fields.flatten ++ zeros 984)

/-! ### A new image -/

/-- Windows 11 does not mount larger ones. -/
def maxVhdSize : ℕ := 2040 <<< 30

/-- Blocks of 2 MiB. -/
def defaultBlock : ℕ := 2097152

/-- The sectors of a table. -/
def tableSize (entries : ℕ) : ℕ := (4 * entries + 511) / 512 * 512

/-- The footer of a new image. -/
def newFooter (timestamp : ℕ) (uniqueId : Field 16) (size : ℕ) : VhdFooter where
  timestamp := timestamp
  originalSize := size
  currentSize := size
  diskGeometry := mkChs size
  uniqueId := uniqueId

/-- The blocks of a disk. -/
def blocksFor (size block : ℕ) : ℕ := (size + block - 1) / block

/-- `mk_dynamic`: the bytes of the file.  The table has room for a disk of `upto` bytes. -/
def mkDynamic (timestamp : ℕ) (uniqueId : Field 16) (size block upto : ℕ) :
    Except PyError Bytes := do
  if maxVhdSize < size then throw (.otherError "Can't create a VHD >2040 GiB!")
  let footer ← (newFooter timestamp uniqueId size).pack
  let h : DynamicHeader := { maxTableEntries := blocksFor size block, blockSize := block }
  let header ← h.pack
  let room := if size < upto then blocksFor upto block else h.maxTableEntries
  return footer ++ header ++ List.replicate (tableSize room) 0xFF ++ footer

/-! ### Opening an image -/

namespace Vhd

/-- The entries are looked at one after the other, until one of them is wrong: the result of the
test, and how many blocks are absent. -/
def batLoop (lastBlock : ℤ) (size : ℕ) : List ℕ → ℕ → List ℕ → VhdM (ℤ × ℕ)
  | [], unallocated, _ => pure (1, unallocated)
  | i :: rest, unallocated, seen => do
    let v ← get
    let a ← bat i
    if a = absentBlock then batLoop lastBlock size rest (unallocated + 1) seen
    else if a ∈ seen then pure (-2, unallocated)
    else if lastBlock < a * 512 ∨ size < a * 512 + v.rawSize then pure (-3, unallocated)
    else if (size : ℤ) - 512 < a * 512 + v.rawSize then pure (-5, unallocated)
    else batLoop lastBlock size rest unallocated (seen ++ [a])

/-- `BAT._isvalid()`: what was wrong with an entry is forgotten if the blocks do not fill the
file. -/
def batIsValid : VhdM ℤ := do
  modify fun v => { v with file := v.file.seekEnd 0 }
  let v ← get
  let size := v.file.size
  if size < v.tableOffset + 4 * v.tableEntries then return -1
  else
    let lastBlock : ℤ := size - 512 - v.rawSize
    let firstBlock := lastBlock % v.rawSize
    let allocated := (lastBlock + v.rawSize - firstBlock) / v.rawSize
    let (code, unallocated) ← batLoop lastBlock size (List.range v.tableEntries) 0 []
    if unallocated + allocated ≠ v.tableEntries then return 0 else return code

end Vhd

/-- `Footer.isvalid()`: a wrong checksum is accepted. -/
def footerIsValid (footer : Bytes) : Bool :=
  region footer 0 8 = some conectix.1 ∧
    (region footer 36 4 = some wi2k.1 ∨ region footer 36 4 = some [77, 97, 99])

/-- What is said of a table that is not valid: two arguments of an exception, which are not
formatted. There is no text for a block over the footer. -/
def batError (code : ℤ) : PyError :=
  match [(-1, "insufficient container size"), (-2, "duplicated block address"),
    (-3, "block past end"), (-4, "misaligned block")].lookup code with
  | some text => .otherError s!"('VHD Image is not valid: %s', '{text}')"
  | none => .otherError "KeyError"

/-- An image is opened that is not a fixed disk and has no parent. -/
def openDynamic (file : RawFile) : Except PyError Vhd := do
  if file.size < 512 then throw (.osError "Invalid argument")
  let footer := file.bytes (file.size - 512) 512
  if footerIsValid footer = false then throw (.otherError "VHD Image Footer is not valid!")
  if (← unpackBig footer 60 4) ∉ [2, 3, 4] then throw (.otherError "Unknown VHD Image type!")
  let copy := file.bytes 0 512
  if footerIsValid copy = false then throw (.otherError "VHD Image Footer (copy) is not valid!")
  if footer ≠ copy then throw (.otherError "Main Footer and its copy differ!")
  let header := file.bytes 512 1024
  if region header 0 8 ≠ some cxsparse.1 then
    throw (.otherError "VHD Image Dynamic Header is not valid!")
  let v : Vhd := {
    size := ← unpackBig footer 48 8
    block := ← unpackBig header 32 4
    tableOffset := ← unpackBig header 16 8
    tableEntries := ← unpackBig header 28 4
    footer := stamp 64 footer
    file := file.seek 1536
    pos := 0
    decoded := fun _ => none }
  match Vhd.batIsValid v with
  | .error e _ => throw e
  | .ok code v =>
    if code < 0 then throw (batError code)
    if v.size ≤ v.pos then throw (.otherError "can't seek past disk end!")
    return v

/-- `struct.unpack('>HBB', footer.dwDiskGeometry)`. -/
def VhdLayout.geometry (g : VhdLayout) : Except PyError (ℕ × ℕ × ℕ) := do
  return (← unpackBig g.footer 56 2, ← unpackBig g.footer 58 1, ← unpackBig g.footer 59 1)

/-! ### Records that were packed -/

variable {data : Bytes} {offset n k : ℕ}

@[simp] theorem length_mkCrc (data : Bytes) : (mkCrc data).length = 4 := by simp [mkCrc]

theorem splice_splice {a b : Bytes} (hlength : a.length = b.length)
    (h : offset + a.length ≤ data.length) :
    BitOrder.splice (BitOrder.splice data offset a) offset b = BitOrder.splice data offset b := by
  have htake : (data.take offset).length = offset := List.length_take_of_le (by omega)
  unfold BitOrder.splice
  rw [List.append_assoc (data.take offset), List.take_left' htake, ← List.append_assoc,
    ← hlength, List.drop_left' (by rw [List.length_append, htake])]

theorem length_stamp (h : offset + 4 ≤ data.length) : (stamp offset data).length = data.length :=
  BitOrder.length_splice (by simpa using h)

/-- The checksum is that of the record with a blank checksum, so that it can be computed again. -/
theorem stamp_stamp (h : offset + 4 ≤ data.length) :
    stamp offset (stamp offset data) = stamp offset data := by
  unfold stamp
  rw [splice_splice (by simp) (by simpa using h), splice_splice (by simp) (by simpa using h)]

/-- The fields before the checksum. -/
theorem region_stamp (h : k + n ≤ offset) (hoffset : offset ≤ data.length) :
    region (stamp offset data) k n = region data k n := by
  have htake : (data.take offset).length = offset := List.length_take_of_le hoffset
  unfold stamp BitOrder.splice
  rw [List.append_assoc, region_append_left (by omega)]
  conv_rhs => rw [← List.take_append_drop offset data, region_append_left (by omega)]

theorem packBig_of_lt {width value : ℕ} (h : value < 256 ^ width) :
    packBig width value = .ok (bytes width value).reverse := by
  unfold packBig packField
  rw [if_pos h]
  rfl

theorem unpackBig_of_region {width value : ℕ}
    (h : region data offset width = some (bytes width value).reverse)
    (hvalue : value < 256 ^ width) : unpackBig data offset width = .ok value := by
  unfold unpackBig
  rw [h]
  dsimp only
  rw [List.reverse_reverse, value_bytes_of_lt hvalue]

theorem mapM_ok (fields : List Bytes) :
    (fields.map Except.ok).mapM (id : Except PyError Bytes → _) = .ok fields := by
  induction fields with
  | nil => rfl
  | cons field fields ih =>
    rw [List.map_cons, List.mapM_cons, ih]
    rfl

theorem ok_bind {α β : Type} (a : α) (k : α → Except PyError β) : (Except.ok a >>= k) = k a := rfl

/-- The geometry fits into its four bytes. -/
theorem mkChs_fits (size : ℕ) :
    (mkChs size).1 < 256 ^ 2 ∧ (mkChs size).2.1 < 256 ^ 1 ∧ (mkChs size).2.2 < 256 ^ 1 := by
  unfold mkChs
  have hle : min (size / 512) (65535 * 16 * 255) ≤ 65535 * 16 * 255 := Nat.min_le_right ..
  generalize min (size / 512) (65535 * 16 * 255) = sectors at hle
  dsimp only
  split
  · refine ⟨?_, by norm_num, by norm_num⟩
    dsimp only
    omega
  · split
    · split
      · refine ⟨?_, by norm_num, by norm_num⟩
        dsimp only
        omega
      · refine ⟨?_, by norm_num, by norm_num⟩
        dsimp only
        omega
    · rename_i hsmall
      rw [not_or] at hsmall
      refine ⟨?_, ?_, by norm_num⟩
      · dsimp only
        refine (Nat.div_lt_of_lt_mul (?_ : _ < _ * 1024)).trans (by norm_num)
        omega
      · dsimp only
        omega

/-- A field of a record that lies before its checksum. -/
theorem region_record {fields : List Bytes} {field : Bytes} (offset n m blank : ℕ)
    (hfield : fields[k]? = some field) (hplace : ((fields.take k).map List.length).sum = n)
    (hsize : field.length = m) (hbefore : n + m ≤ offset)
    (hoffset : offset ≤ fields.flatten.length) :
    region (stamp offset (fields.flatten ++ zeros blank)) n m = some field := by
  rw [region_stamp hbefore (by rw [List.length_append]; omega),
    region_append_left (by omega), region_flatten hfield hplace hsize]

theorem pack_newFooter {timestamp size : ℕ} (uniqueId : Field 16) (ht : timestamp < 256 ^ 4)
    (hsize : size ≤ maxVhdSize) :
    ∃ data, (newFooter timestamp uniqueId size).pack = .ok data ∧ data.length = 512 ∧
      footerIsValid data = true ∧ unpackBig data 60 4 = .ok 3 ∧ unpackBig data 48 8 = .ok size ∧
      stamp 64 data = data ∧ unpackBig data 56 2 = .ok (mkChs size).1 ∧
      unpackBig data 58 1 = .ok (mkChs size).2.1 ∧ unpackBig data 59 1 = .ok (mkChs size).2.2 := by
  obtain ⟨hcyls, hheads, hspt⟩ := mkChs_fits size
  have hmax : maxVhdSize = 2190433320960 := by decide
  have hfits : size < 256 ^ 8 := by omega
  obtain ⟨fields, hfields⟩ : ∃ fields : List Bytes, fields = [conectix.1, (bytes 4 2).reverse,
    (bytes 4 0x10000).reverse, (bytes 8 512).reverse, (bytes 4 timestamp).reverse,
      [80, 121, 32, 32],
    (bytes 4 0x3000A).reverse, wi2k.1, (bytes 8 size).reverse, (bytes 8 size).reverse,
    (bytes 2 (mkChs size).1).reverse, (bytes 1 (mkChs size).2.1).reverse,
    (bytes 1 (mkChs size).2.2).reverse, (bytes 4 3).reverse, zeros 4, uniqueId.1,
    (bytes 1 0).reverse] := ⟨_, rfl⟩
  have hlength : fields.flatten.length = 85 := by
    simp [hfields, conectix.2, wi2k.2, uniqueId.2, length_zeros]
  have hlayout : (newFooter timestamp uniqueId size).layout = fields.map .ok := by
    simp (disch := first | assumption | norm_num) only [VhdFooter.layout, newFooter, packBig_of_lt,
      hfields]
    rfl
  have hlarge : 64 ≤ fields.flatten.length := by omega
  have hcookie := region_record 64 0 8 427
    (by rw [hfields]; rfl : fields[0]? = some conectix.1) rfl conectix.2 (by norm_num) hlarge
  have hhost := region_record 64 36 4 427
    (by rw [hfields]; rfl : fields[7]? = some wi2k.1) (by simp [hfields, conectix.2]) wi2k.2
    (by norm_num) hlarge
  have hkind := region_record 64 60 4 427
    (by rw [hfields]; rfl : fields[13]? = some (bytes 4 3).reverse)
    (by simp [hfields, conectix.2, wi2k.2]) (by simp) (by norm_num) hlarge
  have hcurrent := region_record 64 48 8 427
    (by rw [hfields]; rfl : fields[9]? = some (bytes 8 size).reverse)
    (by simp [hfields, conectix.2, wi2k.2]) (by simp) (by norm_num) hlarge
  have hcylsField := region_record 64 56 2 427
    (by rw [hfields]; rfl : fields[10]? = some (bytes 2 (mkChs size).1).reverse)
    (by simp [hfields, conectix.2, wi2k.2]) (by simp) (by norm_num) hlarge
  have hheadsField := region_record 64 58 1 427
    (by rw [hfields]; rfl : fields[11]? = some (bytes 1 (mkChs size).2.1).reverse)
    (by simp [hfields, conectix.2, wi2k.2]) (by simp) (by norm_num) hlarge
  have hsptField := region_record 64 59 1 427
    (by rw [hfields]; rfl : fields[12]? = some (bytes 1 (mkChs size).2.2).reverse)
    (by simp [hfields, conectix.2, wi2k.2]) (by simp) (by norm_num) hlarge
  have htotal : (fields.flatten ++ zeros 427).length = 512 := by
    rw [List.length_append, hlength, length_zeros]
  refine ⟨stamp 64 (fields.flatten ++ zeros 427), ?_, ?_, ?_,
    unpackBig_of_region hkind (by norm_num),
    unpackBig_of_region hcurrent hfits, stamp_stamp (by omega),
      unpackBig_of_region hcylsField hcyls,
    unpackBig_of_region hheadsField hheads, unpackBig_of_region hsptField hspt⟩
  · unfold VhdFooter.pack
    rw [hlayout, mapM_ok]
    rfl
  · rw [length_stamp (by omega), htotal]
  · simp [footerIsValid, hcookie, hhost]

theorem DynamicHeader.pack_spec {h : DynamicHeader} (hdata : h.dataOffset < 256 ^ 8)
    (htable : h.tableOffset < 256 ^ 8) (hversion : h.version < 256 ^ 4)
    (hentries : h.maxTableEntries < 256 ^ 4) (hblock : h.blockSize < 256 ^ 4) :
    ∃ data, h.pack = .ok data ∧ data.length = 1024 ∧ region data 0 8 = some cxsparse.1 ∧
      unpackBig data 16 8 = .ok h.tableOffset ∧ unpackBig data 28 4 = .ok h.maxTableEntries ∧
      unpackBig data 32 4 = .ok h.blockSize := by
  obtain ⟨fields, hfields⟩ : ∃ fields : List Bytes, fields = [cxsparse.1,
    (bytes 8 h.dataOffset).reverse, (bytes 8 h.tableOffset).reverse, (bytes 4 h.version).reverse,
    (bytes 4 h.maxTableEntries).reverse, (bytes 4 h.blockSize).reverse, zeros 4] := ⟨_, rfl⟩
  have hlength : fields.flatten.length = 40 := by simp [hfields, cxsparse.2, length_zeros]
  have hlayout : h.layout = fields.map .ok := by
    simp (disch := assumption) only [DynamicHeader.layout, packBig_of_lt, hfields]
    rfl
  have hlarge : 36 ≤ fields.flatten.length := by omega
  have hcookie := region_record 36 0 8 984
    (by rw [hfields]; rfl : fields[0]? = some cxsparse.1) rfl cxsparse.2 (by norm_num) hlarge
  have hoffset := region_record 36 16 8 984
    (by rw [hfields]; rfl : fields[2]? = some (bytes 8 h.tableOffset).reverse)
    (by simp [hfields, cxsparse.2]) (by simp) (by norm_num) hlarge
  have hmax := region_record 36 28 4 984
    (by rw [hfields]; rfl : fields[4]? = some (bytes 4 h.maxTableEntries).reverse)
    (by simp [hfields, cxsparse.2]) (by simp) (by norm_num) hlarge
  have hsize := region_record 36 32 4 984
    (by rw [hfields]; rfl : fields[5]? = some (bytes 4 h.blockSize).reverse)
    (by simp [hfields, cxsparse.2]) (by simp) (by norm_num) hlarge
  have htotal : (fields.flatten ++ zeros 984).length = 1024 := by
    rw [List.length_append, hlength, length_zeros]
  refine ⟨stamp 36 (fields.flatten ++ zeros 984), ?_, ?_, hcookie,
    unpackBig_of_region hoffset htable,
    unpackBig_of_region hmax hentries, unpackBig_of_region hsize hblock⟩
  · unfold DynamicHeader.pack
    rw [hlayout, mapM_ok]
    rfl
  · rw [length_stamp (by omega), htotal]

/-! ### What the records say -/

/-- The file of an image begins with its footer and a header, which describe it. -/
structure VhdLayout.Described (g : VhdLayout) (head : Bytes) : Prop where
  size_pos : 0 < g.size
  valid : footerIsValid g.footer = true
  kind : unpackBig g.footer 60 4 = .ok 3
  size : unpackBig g.footer 48 8 = .ok g.size
  stamped : stamp 64 g.footer = g.footer
  header : ∃ header rest, head = g.footer ++ header ++ rest ∧ header.length = 1024 ∧
    region header 0 8 = some cxsparse.1 ∧ unpackBig header 16 8 = .ok g.tableOffset ∧
    unpackBig header 28 4 = .ok g.tableEntries ∧ unpackBig header 32 4 = .ok g.block

/-- A file of these bytes. -/
def RawFile.ofBytes (data : Bytes) : RawFile := ⟨data.length, fun i => data.getD i 0, 0⟩

theorem stretch_getD (h : offset + n ≤ data.length) :
    stretch (fun i => data.getD i 0) offset n = (data.drop offset).take n := by
  refine List.ext_getElem (by simp; omega) fun i hi hi' => ?_
  rw [length_stretch] at hi
  rw [getElem_stretch, List.getD_eq_getElem _ _ (by omega), List.getElem_take, List.getElem_drop]

/-- The blocks of a new image, and where its table ends. -/
theorem sized_new {size entries room : ℕ} {footer : Bytes} (hsize : size ≤ maxVhdSize)
    (hentries : entries = blocksFor size defaultBlock) (hroom : entries ≤ room)
    (hfit : room < 2 ^ 21) (hfooter : footer.length = 512) :
    VhdLayout.Sized ⟨size, defaultBlock, 1536, entries, footer⟩ (1536 + tableSize room) := by
  have hmax : maxVhdSize = 2190433320960 := by decide
  have hblock : defaultBlock = 2097152 := rfl
  have hbitmap : VhdLayout.bitmapSize ⟨size, defaultBlock, 1536, entries, footer⟩ = 512 := by
    unfold VhdLayout.bitmapSize
    norm_num [hblock]
  have htable : tableSize room = (4 * room + 511) / 512 * 512 := rfl
  have hblocks : entries = (size + 2097152 - 1) / 2097152 := by rw [hentries, hblock]; rfl
  have habsent : absentBlock = 4294967295 := rfl
  refine ⟨?_, ?_, ?_, ?_, ?_, ?_, ?_, ?_, hfooter⟩
  · norm_num [hblock]
  · norm_num [hblock]
  · rw [hbitmap]
  · rw [hbitmap, hblock]
  · show size ≤ entries * defaultBlock
    rw [hblock]
    omega
  · show 1536 + 4 * entries ≤ 1536 + tableSize room
    omega
  · omega
  · show 1536 + tableSize room + entries * (VhdLayout.bitmapSize _ + defaultBlock) <
      absentBlock * 512
    rw [hbitmap, hblock]
    omega

/-- A new image is laid out, without any blocks. -/
theorem mkDynamic_spec {timestamp size upto : ℕ} (uniqueId : Field 16) (ht : timestamp < 256 ^ 4)
    (hpos : 0 < size) (hsize : size ≤ maxVhdSize) (hupto : upto ≤ maxVhdSize) :
    ∃ data, ∃ g : VhdLayout, ∃ base head,
      mkDynamic timestamp uniqueId size defaultBlock upto = .ok data ∧ g.size = size ∧
      g.geometry = .ok (mkChs size) ∧ g.Described head ∧ g.Laid base head none (.ofBytes data) ∧
      ∀ x < g.capacity, g.shown (RawFile.ofBytes data).content x = 0 := by
  have hmax : maxVhdSize = 2190433320960 := by decide
  have hblock : defaultBlock = 2097152 := rfl
  obtain ⟨footer, hfooter, hlength, hvalid, hkind, hcurrent, hstamped, hcyls, hheads, hspt⟩ :=
    pack_newFooter uniqueId ht hsize
  have hblocks : ∀ n ≤ maxVhdSize, blocksFor n defaultBlock < 2 ^ 21 := by
    intro n hn
    unfold blocksFor
    rw [hblock]
    omega
  obtain ⟨header, hheader, hlength', hrecord⟩ :=
    DynamicHeader.pack_spec (h := { maxTableEntries := blocksFor size defaultBlock
                                    blockSize := defaultBlock })
      (by norm_num) (by norm_num) (by norm_num) ((hblocks size hsize).trans (by norm_num))
      (by norm_num [hblock])
  obtain ⟨room, hroom⟩ : ∃ room, room =
    if size < upto then blocksFor upto defaultBlock else blocksFor size defaultBlock := ⟨_, rfl⟩
  have hle : blocksFor size defaultBlock ≤ room := by
    rw [hroom]
    split
    · unfold blocksFor
      rw [hblock]
      omega
    · exact le_rfl
  have hfit : room < 2 ^ 21 := by
    rw [hroom]
    split
    · exact hblocks upto hupto
    · exact hblocks size hsize
  let data := footer ++ header ++ List.replicate (tableSize room) 0xFF ++ footer
  have hnew : mkDynamic timestamp uniqueId size defaultBlock upto = .ok data := by
    unfold mkDynamic
    simp only [if_neg (Nat.not_lt.2 hsize), hfooter, hheader, ← hroom]
    rfl
  have hsized := sized_new hsize rfl hle hfit hlength
  have hbefore : (footer ++ header).length = 1536 := by rw [List.length_append, hlength, hlength']
  have hbase : (footer ++ header ++ List.replicate (tableSize room) 0xFF).length =
      1536 + tableSize room := by
    rw [List.length_append, hbefore, List.length_replicate]
  have htotal : data.length = 1536 + tableSize room + 512 := by
    rw [List.length_append, hbase, hlength]
  have hblank : ∀ x, 1536 ≤ x → x < 1536 + tableSize room → data.getD x 0 = 0xFF := by
    intro x hx hx'
    rw [List.getD_append _ _ _ _ (by omega), List.getD_append_right _ _ _ _ (by omega), hbefore,
      List.getD_replicate _ (by omega)]
  have hhead : stretch (fun i => data.getD i 0) 0 1536 = footer ++ header := by
    rw [stretch_getD (by omega), List.drop_zero]
    show (footer ++ header ++ _ ++ footer).take 1536 = _
    rw [List.append_assoc, List.take_left' hbefore]
  have htrailer : stretch (fun i => data.getD i 0) (1536 + tableSize room) 512 = footer := by
    rw [stretch_getD htotal.ge]
    show ((footer ++ header ++ _ ++ footer).drop _).take 512 = _
    rw [List.drop_left' hbase, List.take_of_length_le hlength.le]
  have habsent : ∀ i < blocksFor size defaultBlock,
      VhdLayout.entry ⟨size, defaultBlock, 1536, blocksFor size defaultBlock, footer⟩
        (fun i => data.getD i 0) i = absentBlock := by
    intro i hi
    have htable : 4 * room ≤ tableSize room := by
      unfold tableSize
      omega
    have hentry : stretch (fun i => data.getD i 0) (1536 + 4 * i) 4 = List.replicate 4 0xFF := by
      rw [← stretch_const 0xFF 0 4]
      exact stretch_congr fun k hk => hblank _ (by omega) (by omega)
    unfold VhdLayout.entry
    rw [hentry]
    decide
  have hlaid := VhdLayout.laid_blank (f := .ofBytes data) hsized htotal htrailer habsent
  have hgeometry : VhdLayout.geometry
      ⟨size, defaultBlock, 1536, blocksFor size defaultBlock, footer⟩ = .ok (mkChs size) := by
    unfold VhdLayout.geometry
    simp only [hcyls, hheads, hspt]
    rfl
  refine ⟨data, _, _, _, hnew, rfl, hgeometry, ⟨hpos, hvalid, hkind, hcurrent, hstamped, ?_⟩, hlaid,
    VhdLayout.shown_blank hsized habsent⟩
  exact ⟨header, [], by rw [List.append_nil]; exact hhead, hlength', hrecord⟩

/-! ### A file that is laid out is opened -/

namespace Vhd

variable {v : Vhd} {base : ℕ} {head : Bytes} {bmp : Option BlockBitmap}

/-- No entry is wrong: the blocks lie apart from each other, and before the footer. -/
theorem batLoop_spec (h : v.Coherent base head bmp) (l : List ℕ) (seen : List ℕ)
    (hl : ∀ i ∈ l, i < v.tableEntries) (hnodup : l.Nodup)
    (hseen : ∀ a ∈ seen, ∃ j ∈ v.blocks, j ∉ l ∧ a = v.slot j) (unallocated : ℕ) :
    ∃ d unallocated', batLoop (v.file.size - 512 - v.rawSize) v.file.size l unallocated seen v =
        .ok (1, unallocated') { v with decoded := d } ∧
      ({ v with decoded := d } : Vhd).Coherent base head bmp := by
  induction l generalizing v unallocated seen with
  | nil => exact ⟨v.decoded, unallocated, rfl, h⟩
  | cons i l ih =>
    obtain ⟨hnew, hnodup⟩ := List.nodup_cons.1 hnodup
    have hi := hl i List.mem_cons_self
    obtain ⟨d, hbat, hcoherent⟩ := bat_spec h hi
    unfold batLoop
    rw [bind_of_ok (get_eq v), bind_of_ok hbat]
    have hrest : ∀ j ∈ l, j < v.tableEntries := fun j hj => hl j (List.mem_cons_of_mem i hj)
    by_cases habsent : v.slot i = absentBlock
    · rw [if_pos habsent]
      refine ih hcoherent seen hrest hnodup (fun a ha => ?_) (unallocated + 1)
      obtain ⟨j, hj, hjl, ha⟩ := hseen a ha
      exact ⟨j, hj, fun hmem => hjl (List.mem_cons_of_mem i hmem), ha⟩
    · have hmem : i ∈ v.blocks := VhdLayout.mem_allocated.2 ⟨hi, habsent⟩
      have hbounds : base ≤ v.slot i * 512 ∧ v.slot i * 512 + v.rawSize + 512 ≤ v.file.size :=
        h.laid.bounds hmem
      have hfresh : v.slot i ∉ seen := by
        intro ha
        obtain ⟨j, hj, hjl, heq⟩ := hseen _ ha
        refine hjl ?_
        rw [h.laid.apart i hmem j hj heq]
        exact List.mem_cons_self
      rw [if_neg habsent, if_neg hfresh, if_neg (by omega), if_neg (by omega)]
      refine ih hcoherent (seen ++ [v.slot i]) hrest hnodup (fun a ha => ?_) unallocated
      rcases List.mem_append.1 ha with ha | ha
      · obtain ⟨j, hj, hjl, ha⟩ := hseen a ha
        exact ⟨j, hj, fun hmem => hjl (List.mem_cons_of_mem i hmem), ha⟩
      · exact ⟨i, hmem, hnew, List.mem_singleton.1 ha⟩

theorem batIsValid_spec (h : v.Coherent base head bmp) :
    ∃ code n d, batIsValid v = .ok code { v with file := v.file.seek n, decoded := d } ∧ 0 ≤ code ∧
      ({ v with file := v.file.seek n, decoded := d } : Vhd).Coherent base head bmp := by
  have htable := h.laid.table
  have hsize := h.laid.file_size
  have hseek : (modify fun v : Vhd => { v with file := v.file.seekEnd 0 } : VhdM Unit) v =
      .ok () { v with file := v.file.seek v.file.size } := rfl
  have hloop : ∃ d unallocated, batLoop (v.file.size - 512 - v.rawSize) v.file.size
        (List.range v.tableEntries) 0 [] { v with file := v.file.seek v.file.size } =
          .ok (1, unallocated) { v with file := v.file.seek v.file.size, decoded := d } ∧
      ({ v with file := v.file.seek v.file.size, decoded := d } : Vhd).Coherent base head bmp :=
    batLoop_spec (h.seek v.file.size) (List.range v.tableEntries) []
      (fun i hi => List.mem_range.1 hi) List.nodup_range (fun a ha => absurd ha List.not_mem_nil) 0
  obtain ⟨d, unallocated, hloop, hcoherent⟩ := hloop
  have hroom : ¬v.file.size < v.tableOffset + 4 * v.tableEntries := by omega
  unfold batIsValid
  rw [bind_of_ok hseek, bind_of_ok (get_eq _)]
  dsimp only
  rw [RawFile.seek_size, if_neg hroom, bind_of_ok hloop]
  dsimp only
  split
  · exact ⟨0, v.file.size, d, rfl, le_rfl, hcoherent⟩
  · exact ⟨1, v.file.size, d, rfl, by norm_num, hcoherent⟩

end Vhd

/-- A file that is laid out and described by its records is opened as what it is. -/
theorem openDynamic_spec {g : VhdLayout} {base : ℕ} {head : Bytes} {f : RawFile}
    (hg : g.Described head) (h : g.Laid base head none f) :
    ∃ v, openDynamic f = .ok v ∧ v.toVhdLayout = g ∧ v.pos = 0 ∧ v.Coherent base head none ∧
      v.disk = g.shown f.content := by
  obtain ⟨header, rest, hhead, hlength, hcookie, htable, hentries, hblock⟩ := hg.header
  have hsize := h.file_size
  have hbase := h.table
  have hfooter := h.footer
  have hlarge : 1536 ≤ g.tableOffset := by
    have htotal := congrArg List.length (h.head.trans hhead)
    simp only [length_stretch, List.length_append] at htotal
    omega
  have hlast : f.bytes (f.size - 512) 512 = g.footer := by
    rw [RawFile.bytes_of_le (by omega), h.trailer]
  have hfirst : f.bytes 0 512 = g.footer := by
    rw [RawFile.bytes_of_le (by omega), ← take_stretch (by omega : 512 ≤ g.tableOffset), h.head,
      hhead, List.append_assoc, List.take_left' hfooter]
  have hsecond : f.bytes 512 1024 = header := by
    have hdrop : (stretch f.content 0 g.tableOffset).drop 512 =
        stretch f.content (0 + 512) (g.tableOffset - 512) := drop_stretch (by omega)
    rw [h.head, hhead, List.append_assoc, List.drop_left' hfooter] at hdrop
    rw [RawFile.bytes_of_le (by omega),
      ← take_stretch (by omega : 1024 ≤ g.tableOffset - 512), ← Nat.zero_add 512, ← hdrop,
      List.take_left' hlength]
  have hopen : (⟨g, f.seek 1536, 0, fun _ => none⟩ : Vhd).Coherent base head none :=
    ⟨{ h with }, fun i hi slot hslot => by cases hslot⟩
  obtain ⟨code, n, d, hvalid, hnonneg, hcoherent⟩ := Vhd.batIsValid_spec hopen
  have hcode : ¬code < 0 := by omega
  have hpos : ¬g.size ≤ 0 := by
    have hpos := hg.size_pos
    omega
  refine ⟨_, ?_, rfl, rfl, hcoherent, rfl⟩
  unfold openDynamic
  have hkind : ¬(3 ∉ [2, 3, 4]) := by decide
  simp only [if_neg (by omega : ¬f.size < 512), hlast, hfirst, hsecond, hg.valid, hg.kind, hcookie,
    hg.size, hg.stamped, htable, hentries, hblock, ok_bind, hkind, ne_eq, not_true_eq_false,
      if_false,
    Bool.true_eq_false, hvalid, hpos, if_neg hcode]
  rfl

/-- A new image shows a blank disk when it is opened. -/
theorem open_mkDynamic {timestamp size upto : ℕ} (uniqueId : Field 16) (ht : timestamp < 256 ^ 4)
    (hpos : 0 < size) (hsize : size ≤ maxVhdSize) (hupto : upto ≤ maxVhdSize) :
    ∃ data v, ∃ g : VhdLayout, ∃ base head,
      mkDynamic timestamp uniqueId size defaultBlock upto = .ok data ∧
      openDynamic (.ofBytes data) = .ok v ∧ g.Described head ∧ v.size = size ∧
      v.geometry = .ok (mkChs size) ∧ v.Shows g base head (.new size fun _ => 0) := by
  obtain ⟨data, g, base, head, hnew, rfl, hgeometry, hg, hlaid, hblank⟩ :=
    mkDynamic_spec uniqueId ht hpos hsize hupto
  obtain ⟨v, hopen, rfl, hv, hcoherent, hdisk⟩ := openDynamic_spec hg hlaid
  refine ⟨data, v, v.toVhdLayout, base, head, hnew, hopen, hg, rfl, hgeometry, rfl,
    hcoherent, rfl, hv,
    Nat.zero_le _, fun x hx => ?_⟩
  rw [hdisk]
  exact hblank x (lt_of_lt_of_le hx hlaid.inside)

/-- A file that shows a disk is opened as that disk. -/
theorem Vhd.Shows.reopened {v : Vhd} {g : VhdLayout} {base : ℕ} {head : Bytes} {s : DiskImage}
    (h : v.Shows g base head s) (hg : g.Described head) :
    ∃ w, openDynamic v.file = .ok w ∧ w.size = s.size ∧ ∀ x < s.size, w.disk x = s.content x := by
  have hlaid := h.coherent.laid
  rw [h.layout] at hlaid
  obtain ⟨w, hopen, hw, -, -, hdisk⟩ := openDynamic_spec hg hlaid
  have hsame : w.toVhdLayout = v.toVhdLayout := hw.trans h.layout.symm
  refine ⟨w, hopen, (congrArg VhdLayout.size hsame).trans h.size, fun x hx => ?_⟩
  rw [hdisk, ← h.layout]
  exact h.shown x hx

/-- **What was written is there when the image is opened again.**  A dynamic image of any size that
`mk_dynamic` allows is created and opened; a program that stays on the disk has the result that it
has over as many zeros, and the file that it leaves can be opened and shows the bytes that it
left. -/
theorem vhd_reopened {α : Type} (p : RawProgram α) (timestamp size upto : ℕ) (uniqueId : Field 16)
    (ht : timestamp < 256 ^ 4) (hpos : 0 < size) (hsize : size ≤ maxVhdSize)
    (hupto : upto ≤ maxVhdSize) (hp : Inside p (.new size fun _ => 0)) :
    ∃ data v w, mkDynamic timestamp uniqueId size defaultBlock upto = .ok data ∧
      openDynamic (.ofBytes data) = .ok v ∧
      let out := runVhd p v
      let plain := runImage p (.new size fun _ => 0)
      out.result = plain.result ∧ openDynamic out.world.file = .ok w ∧ w.size = size ∧
        ∀ x < size, w.disk x = plain.world.content x := by
  obtain ⟨data, v, g, base, head, hnew, hopen, hg, -, -, hshows⟩ :=
    open_mkDynamic uniqueId ht hpos hsize hupto
  obtain ⟨hresult, hend⟩ := hshows.run hp
  have hkept : (runImage p (.new size fun _ => 0)).world.size = size :=
    size_runImage p (.new size fun _ => 0) 0
  obtain ⟨w, hreopen, hw, hdisk⟩ := hend.reopened hg
  exact ⟨data, v, w, hnew, hopen, hresult, hreopen, hw.trans hkept,
    fun x hx => hdisk x (hkept.symm ▸ hx)⟩

/-- A small disk, created on the first second of the format. -/
theorem vhd_reopened_sample :
    ∃ data v w, mkDynamic 0 ⟨zeros 16, length_zeros 16⟩ 4096 defaultBlock 0 = .ok data ∧
      openDynamic (.ofBytes data) = .ok v ∧
      let out := runVhd writeAndReadBack v
      let plain := runImage writeAndReadBack (.new 4096 fun _ => 0)
      out.result = plain.result ∧ openDynamic out.world.file = .ok w ∧ w.size = 4096 ∧
        ∀ x < 4096, w.disk x = plain.world.content x := by
  refine vhd_reopened writeAndReadBack 0 4096 0 ⟨zeros 16, length_zeros 16⟩ (by norm_num)
    (by norm_num) (by decide) (Nat.zero_le _) ?_
  exact inside_writeAndReadBack _

/-! ### The disk of the formatter -/

/-- `initialize_vhd`, with the clock and the identifier that `mk_dynamic` takes. -/
def initializeVhd (tail : FormatterTail) (timestamp : ℕ) (uniqueId : Field 16) (size : ℕ) :
    Except PyError (Outcome PyError FormatResult Vhd) := do
  let data ← mkDynamic timestamp uniqueId size defaultBlock 0
  let v ← openDynamic (.ofBytes data)
  let geometry ← v.geometry
  return runVhd (formatStream tail (.vhd geometry) v.size) v

/-- An image has cylinders that the partition can use, or so many of them that it uses others. -/
theorem DiskType.suits_vhd {size : ℕ} (hmin : 67108864 ≤ size) :
    (DiskType.vhd (mkChs size)).Suits size := by
  have hmib : mib = 1048576 := rfl
  have hroom : roomFor size = size - mib - 33 * 512 := rfl
  unfold DiskType.Suits DiskType.geometry mkChs
  have hsectors : min (size / 512) (65535 * 16 * 255) ≤ size / 512 := Nat.min_le_left ..
  generalize min (size / 512) (65535 * 16 * 255) = sectors at hsectors
  dsimp only
  split
  · refine .inr ?_
    dsimp only
    omega
  · split
    · split
      · exact .inl (by constructor <;> decide)
      · exact .inl (by constructor <;> decide)
    · rename_i hsmall
      rw [not_or] at hsmall
      dsimp only
      exact .inl ⟨by omega, by omega, by decide, by decide⟩

/-- The partition of a VHD ends with another cylinder than that of an image file of the size. -/
example : mkChs 67108864 = (963, 8, 17) ∧ getGeometry 67108864 512 = (520, 4, 63) ∧
    (mkPart 8 17 mib (roomFor 67108864) 512).totalSectors = 128920 ∧
    (mkPart 4 63 mib (roomFor 67108864) 512).totalSectors = 128740 := by decide

/-- **A formatted VHD carries the volume.**  For every size that the formatter and `mk_dynamic`
allow, the image that is left can be opened, and its disk carries a partition table and a boot
sector of a disk of that size; if the formatter has returned, its result is accepted for these
bytes. -/
theorem initializeVhd_accepted (v : VolumeCode) (hv : v.StaysInVolume) (hw : v.WritesCarefully)
    (timestamp size : ℕ) (uniqueId : Field 16) (ht : timestamp < 256 ^ 4) (hsize : 512 ∣ size)
    (hmin : 64 * mib ≤ size) (hmax : size ≤ maxVhdSize) :
    ∃ out w, initializeVhd (formatterTail v) timestamp uniqueId size = .ok out ∧
      openDynamic out.world.file = .ok w ∧ w.size = size ∧
      (∃ entry boot, BootRegions size entry boot (.new size w.disk)) ∧
      ∀ result, out.result = .ok result →
        independentlyCheckBootRegions (.new size w.disk) result = .ok () := by
  have hmib : mib = 1048576 := rfl
  have hlarge : maxVhdSize = 2190433320960 := by decide
  obtain ⟨data, image, g, base, head, hnew, hopen, hg, himage, hgeometry, hshows⟩ :=
    open_mkDynamic uniqueId ht (by omega) hmax (Nat.zero_le _)
  have hsuits : (DiskType.vhd (mkChs size)).Suits size := DiskType.suits_vhd (by omega)
  obtain ⟨p, hp⟩ : ∃ p, p = formatStream (formatterTail v) (.vhd (mkChs size)) size := ⟨_, rfl⟩
  have hcareful : Careful p (.new size fun _ => 0, true) := by
    rw [hp]
    exact careful_formatStream hw hsuits (by omega) (by omega) hsize rfl
  obtain ⟨hresult, hend⟩ := hshows.run hcareful.inside
  have hkept : (runImage p (.new size fun _ => 0)).world.size = size :=
    size_runImage _ (.new size fun _ => 0) 0
  obtain ⟨w, hreopen, hsame, hdisk⟩ := hend.reopened hg
  obtain ⟨hregions, haccepted⟩ := accepted_of_bytes w.disk hv hsuits (by omega) (by omega)
    hsize fun x hx => hp ▸ hdisk x (hkept.symm ▸ hx)
  refine ⟨runVhd p image, w, ?_, hreopen, hsame.trans hkept, hregions,
    fun result h => haccepted result (hp ▸ hresult.symm.trans h)⟩
  have hrun : initializeVhd (formatterTail v) timestamp uniqueId size =
      .ok (runVhd (formatStream (formatterTail v) (.vhd (mkChs size)) image.size) image) := by
    unfold initializeVhd
    simp only [hnew, hopen, hgeometry, ok_bind]
    rfl
  rw [hrun, himage, hp]

theorem initializeVhd_accepted_sample :
    ∃ out w, initializeVhd (formatterTail sampleVolume) 0 ⟨zeros 16, length_zeros 16⟩ 67108864 =
        .ok out ∧
      openDynamic out.world.file = .ok w ∧ w.size = 67108864 ∧
      (∃ entry boot, BootRegions 67108864 entry boot (.new 67108864 w.disk)) ∧
      ∀ result, out.result = .ok result →
        independentlyCheckBootRegions (.new 67108864 w.disk) result = .ok () :=
  initializeVhd_accepted sampleVolume staysInVolume_sampleVolume writesCarefully_sampleVolume 0
    67108864 ⟨zeros 16, length_zeros 16⟩ (by norm_num) (by norm_num) (by norm_num [mib])
    (by decide)

end Ps2Ripper
