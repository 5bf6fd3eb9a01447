import Ps2Ripper.Binary.Bits
import Ps2Ripper.Binary.LittleEndian
import Ps2Ripper.Storage.DiskImage
import Ps2Ripper.Storage.RawFile

/-!
# Dynamic VHD images

The class `Image` of `FATtools/vhdutils.py` for a dynamic disk.  The disk is divided into blocks; a
block is put into the file when something other than zeros is written to it, and a table leads to
it.

* `VhdLayout`, `Vhd`: what is fixed when an image is opened, and what changes;
* `bat`, `setBat`, `allocate`: the table; `BlockBitmap`: the sectors of a block that were written;
* `read`, `write`, `seek`, `perform`: the calls, block by block.
-/

namespace Ps2Ripper

open Binary

/-- A disk of `size` bytes in blocks, and where the table is. -/
structure VhdLayout where
  size : ℕ
  block : ℕ
  tableOffset : ℕ
  tableEntries : ℕ
  footer : Bytes

/-- An open image, with the entries of the table that were used before. -/
structure Vhd extends VhdLayout where
  file : RawFile
  pos : ℕ
  decoded : ℕ → Option ℕ

/-- The bitmap of the block at a sector of the file. -/
abbrev BlockBitmap : Type := ℕ × Bytes

abbrev VhdM : Type → Type := EStateM PyError Vhd

/-- The entry of a block that is not in the file. -/
def absentBlock : ℕ := 0xFFFFFFFF

/-- The bytes of the bitmap before a block. -/
def VhdLayout.bitmapSize (g : VhdLayout) : ℕ := max 512 (g.block / 512 / 8)

namespace Vhd

/-! ### The table -/

/-- An entry that is read from the file, where the stream is put back. -/
def loadEntry (i : ℕ) : VhdM ℕ := fun v =>
  let data := (v.file.seek (v.tableOffset + 4 * i)).read 4
  if data.1.length = 4 then
    let slot := value data.1.reverse
    .ok slot { v with decoded := Function.update v.decoded i (some slot) }
  else .error (.otherError "unpack requires a buffer of 4 bytes") { v with file := data.2 }

/-- `bat[i]`. -/
def bat (i : ℕ) : VhdM ℕ := fun v =>
  if i < v.tableEntries then
    match v.decoded i with
    | some slot => if slot = 0 then loadEntry i v else .ok slot v
    | none => loadEntry i v
  else .error (.otherError s!"Attempt to read a #{i} block past disk end") v

/-- `bat[i] = slot`. -/
def setBat (i slot : ℕ) : VhdM Unit := fun v =>
  let v := { v with decoded := Function.update v.decoded i (some slot) }
  let file := v.file.seek (v.tableOffset + 4 * i)
  if slot < 2 ^ 32 then
    .ok () { v with file := (file.write (bytes 4 slot).reverse).seek v.file.pos }
  else
    .error (.otherError "'I' format requires 0 <= number <= 4294967295") { v with file := file }

/-- A block is put at the end of the file, over the footer, which follows it then. -/
def allocate (i : ℕ) : VhdM ℕ := do
  modify fun v => { v with file := v.file.seekEnd 512 }
  let slot := (← get).file.pos / 512
  setBat i slot
  modify fun v => { v with file := v.file.write (List.replicate v.bitmapSize 0) }
  modify fun v => { v with file := v.file.write (List.replicate v.block 0) }
  modify fun v => { v with file := v.file.write v.footer }
  return slot

/-! ### Bitmaps -/

def loadBitmap (slot : ℕ) : VhdM BlockBitmap := fun v =>
  let data := (v.file.seek (slot * 512)).read v.bitmapSize
  .ok (slot, data.1) { v with file := data.2 }

def flushBitmap (bmp : BlockBitmap) : VhdM Unit := fun v =>
  .ok () { v with file := (v.file.seek (bmp.1 * 512)).write bmp.2 }

/-- The bitmap of a block, which may be that of the round before. -/
def fetchBitmap (bmp : Option BlockBitmap) (slot : ℕ) : VhdM BlockBitmap :=
  match bmp with
  | some b => if b.1 = slot then pure b else loadBitmap slot
  | none => loadBitmap slot

/-- The same, and the bitmap of the round before is written. -/
def changeBitmap (bmp : Option BlockBitmap) (slot : ℕ) : VhdM BlockBitmap :=
  match bmp with
  | some b =>
    if b.1 = slot then pure b
    else do
      flushBitmap b
      loadBitmap slot
  | none => loadBitmap slot

def flushLast (bmp : Option BlockBitmap) : VhdM Unit :=
  match bmp with
  | some b => flushBitmap b
  | none => pure ()

/-- A sector that was never written is blanked in what was read. -/
def blankSector (bits : Bytes) (offset got : ℕ) (result : Bytes) (sector : ℕ) : Bytes :=
  if msbFirst.bit bits sector then result
  else
    let start := max (sector * 512) offset - offset
    let stop := min (sector * 512 + 512) (offset + got) - offset
    BitOrder.splice result start (List.replicate (stop - start) 0)

/-- The sectors from `first` to `last`. -/
def sectorRange (first last : ℕ) : List ℕ := List.range' first (last + 1 - first)

/-! ### Reading and writing -/

/-- `got` bytes of a block of the file. -/
def readPart (got : ℕ) (bmp : Option BlockBitmap) (slot : ℕ) :
    VhdM (Bytes × Option BlockBitmap) := do
  let b ← fetchBitmap bmp slot
  let v ← get
  let offset := v.pos % v.block
  let data := (v.file.seek (slot * 512 + v.bitmapSize + offset)).read got
  let last := (offset + got - 1) / 512
  set { v with file := data.2 }
  if b.2.length ≤ last / 8 then throw (.otherError "bytearray index out of range")
  else
    set { v with file := data.2, pos := v.pos + got }
    return ((sectorRange (offset / 512) last).foldl (blankSector b.2 offset got) data.1, some b)

/-- A round of `read`: a block that is not in the file is blank. -/
def readRound (got : ℕ) (bmp : Option BlockBitmap) : VhdM (Bytes × Option BlockBitmap) := do
  let v ← get
  let slot ← bat (v.pos / v.block)
  if slot = absentBlock then
    modify fun v => { v with pos := v.pos + got }
    return (List.replicate got 0, bmp)
  else readPart got bmp slot

/-- The rounds of `read`; each of them gets a byte at least. -/
def readLoop : ℕ → ℕ → Option BlockBitmap → VhdM Bytes
  | 0, _, _ => pure []
  | rounds + 1, size, bmp =>
    if size = 0 then pure []
    else do
      let v ← get
      let got := min (v.block - v.pos % v.block) size
      let (data, bmp) ← readRound got bmp
      return data ++ (← readLoop rounds (size - got) bmp)

/-- `read(size)`: nothing behind the end of the disk is read. -/
def read (size : ℤ) : VhdM Bytes := do
  let v ← get
  let count : ℤ := if size = -1 ∨ (v.size : ℤ) < v.pos + size then v.size - v.pos else size
  if count < 0 then throw (.valueError "negative count")
  else readLoop count.toNat count.toNat none

/-- A part of the data goes to a block of the file. -/
def writePart (data : Bytes) (bmp : Option BlockBitmap) (slot : ℕ) : VhdM (Option BlockBitmap) := do
  let v ← get
  let offset := v.pos % v.block
  let b ← changeBitmap bmp slot
  let first := offset / 512
  let last := (offset + data.length - 1) / 512
  match msbFirst.setRun false b.2 first (last - first + 1) with
  | none => throw (.otherError "bytearray index out of range")
  | some bits =>
    modify fun v => { v with
      file := (v.file.seek (slot * 512 + v.bitmapSize + offset)).write data
      pos := v.pos + data.length }
    return some (b.1, bits)

/-- A round of `write`: zeros leave a block where it is, absent. -/
def writeRound (data : Bytes) (bmp : Option BlockBitmap) : VhdM (Option BlockBitmap) := do
  let v ← get
  let i := v.pos / v.block
  let slot ← bat i
  if slot = absentBlock then
    if data = List.replicate data.length 0 then
      modify fun v => { v with pos := v.pos + data.length }
      return bmp
    else
      let slot ← allocate i
      writePart data bmp slot
  else writePart data bmp slot

/-- The rounds of `write`, and the bitmap of the last one. -/
def writeLoop : ℕ → Bytes → Option BlockBitmap → VhdM Unit
  | 0, _, bmp => flushLast bmp
  | rounds + 1, data, bmp =>
    if data = [] then flushLast bmp
    else do
      let v ← get
      let put := min (v.block - v.pos % v.block) data.length
      let bmp ← writeRound (data.take put) bmp
      writeLoop rounds (data.drop put) bmp

def write (data : Bytes) : VhdM Unit :=
  if data = [] then pure () else writeLoop data.length data none

/-- `seek(offset, whence)`, which moves even where it raises. -/
def seek (offset whence : ℤ) : VhdM Unit := fun v =>
  let target := if whence = 0 then offset else if whence = 1 then v.pos + offset
    else v.size + offset
  let v := { v with pos := target.toNat }
  if v.size ≤ v.pos then .error (.otherError "can't seek past disk end!") v else .ok () v

/-- The calls. -/
def call : (o : RawOp) → VhdM o.Answer
  | .seek offset whence => seek offset whence
  | .tell => return (← get).pos
  | .read size => read size
  | .write data => write data
  | .flush => pure ()

/-- Carry out one call. -/
def perform (v : Vhd) (o : RawOp) : Except PyError o.Answer × Vhd :=
  match call o v with
  | .ok a v' => (.ok a, v')
  | .error e v' => (.error e, v')

end Vhd

end Ps2Ripper
