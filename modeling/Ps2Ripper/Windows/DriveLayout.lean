import Ps2Ripper.Binary.LittleEndian
import Ps2Ripper.Imaging.CdSector
import Ps2Ripper.Windows.SafetyCheck

/-!
# The layout of a drive

`_query_layout` of `windows/device_enumeration.py`, on the bytes that the device returned.

* `queryLayoutBytes`: the decoder; `struct.unpack_from` and `uuid.UUID` raise when they miss bytes;
* `PartitionEntry`, `DriveLayout`: the entries and the whole layout as Windows encodes them;
* `queryLayout_spec`: what was encoded is decoded, and of any other bytes the complete entries.
-/

namespace Ps2Ripper

open Binary

/-- `struct.unpack_from`, one unsigned field of `size` bytes. -/
def unpackFrom (raw : Bytes) (offset size : ℕ) : Except PyError ℕ :=
  match region raw offset size with
  | some field => .ok (value field)
  | none => .error (.otherError
      s!"unpack_from requires a buffer of at least {offset + size} bytes")

/-- `uuid.UUID`: its bytes, the most significant first. -/
abbrev Uuid := Field 16

/-- `uuid.UUID(bytes_le=data)`: three little-endian fields and eight plain bytes. -/
def Uuid.ofBytesLe (data : Bytes) : Except PyError Uuid :=
  if h : data.length = 16 then
    .ok ⟨(slice data 0 4).reverse ++ (slice data 4 6).reverse ++ (slice data 6 8).reverse ++
      data.drop 8, by simp [slice, h]⟩
  else .error (.valueError "bytes_le is not a 16-char string")

def hexDigit (n : ℕ) : Char := "0123456789abcdef".toList.getD n '0'

def hexByte (b : UInt8) : List Char := [hexDigit (b.toNat / 16), hexDigit (b.toNat % 16)]

/-- `str(uuid)`. -/
def Uuid.str (u : Uuid) : String :=
  let hex (i j : ℕ) := String.ofList ((slice u.1 i j).flatMap hexByte)
  "-".intercalate [hex 0 4, hex 4 6, hex 6 8, hex 8 10, hex 10 16]

def efiSystem : Uuid :=
  ⟨[0xc1, 0x2a, 0x73, 0x28, 0xf8, 0x1f, 0x11, 0xd2, 0xba, 0x4b, 0x00, 0xa0, 0xc9, 0x3e, 0xc9, 0x3b],
    rfl⟩

example : efiSystem.str = "c12a7328-f81f-11d2-ba4b-00a0c93ec93b" := by decide

def msReserved : Uuid :=
  ⟨[0xe3, 0xc9, 0xe3, 0x16, 0x0b, 0x5c, 0x4d, 0xb8, 0x81, 0x7d, 0xf9, 0x2d, 0xf0, 0x02, 0x15, 0xae],
    rfl⟩

def msRecovery : Uuid :=
  ⟨[0xde, 0x94, 0xbb, 0xa4, 0x06, 0xd1, 0x4d, 0x40, 0xa1, 0x6a, 0xbf, 0xd5, 0x01, 0x79, 0xd6, 0xac],
    rfl⟩

/-- All fields of `PartitionInfo`. -/
structure LayoutPartition extends PartitionInfo where
  offset : ℕ
  length : ℕ
  style : PartitionStyle
  typeDescription : String := ""
  deriving DecidableEq

def partitionStyleMbr : ℕ := 0
def partitionStyleGpt : ℕ := 1
def partitionStyleRaw : ℕ := 2

def partitionStyleOf (n : ℕ) : PartitionStyle :=
  if n = partitionStyleMbr then .mbr
  else if n = partitionStyleGpt then .gpt
  else if n = partitionStyleRaw then .raw
  else .unknown

/-- What the type of an entry says. -/
structure TypeFlags where
  isBoot : Bool := false
  isSystem : Bool := false
  isRecovery : Bool := false
  isEfi : Bool := false
  typeDescription : String := ""

def mbrFlags (partitionType boot : UInt8) : TypeFlags where
  isBoot := boot ≠ 0
  isSystem := partitionType = 0xEF
  isRecovery := partitionType = 0x27
  isEfi := partitionType = 0xEF
  typeDescription := "MBR type 0x" ++ String.ofList ((hexByte partitionType).map Char.toUpper)

def gptFlags (typeGuid : Uuid) : TypeFlags where
  isSystem := typeGuid = efiSystem || typeGuid = msReserved
  isRecovery := typeGuid = msRecovery
  isEfi := typeGuid = efiSystem
  typeDescription := typeGuid.str

def queryType (raw : Bytes) (offset entryStyle : ℕ) : Except PyError TypeFlags :=
  if entryStyle = partitionStyleMbr then do
    let partitionType ← unpackFrom raw (offset + 32) 1
    let boot ← unpackFrom raw (offset + 33) 1
    pure (mbrFlags (UInt8.ofNat partitionType) (UInt8.ofNat boot))
  else if entryStyle = partitionStyleGpt then do
    let typeGuid ← Uuid.ofBytesLe (slice raw (offset + 32) (offset + 48))
    pure (gptFlags typeGuid)
  else pure {}

/-- The entry at `offset`; `none` if it is not used. -/
def queryEntry (raw : Bytes) (style : PartitionStyle) (offset : ℕ) :
    Except PyError (Option LayoutPartition) := do
  let entryStyle ← unpackFrom raw offset 4
  let starting ← unpackFrom raw (offset + 8) 8
  let length ← unpackFrom raw (offset + 16) 8
  let number ← unpackFrom raw (offset + 24) 4
  let flags ← queryType raw offset entryStyle
  if number = 0 || length = 0 then pure none
  else pure (some {
    number := number
    offset := starting
    length := length
    style := style
    typeDescription := flags.typeDescription
    isBoot := flags.isBoot
    isSystem := flags.isSystem
    isRecovery := flags.isRecovery
    isEfi := flags.isEfi })

/-- The loop over `n` entries, from the one with number `index`. -/
def queryEntries (raw : Bytes) (style : PartitionStyle) :
    ℕ → ℕ → Except PyError (List LayoutPartition)
  | _, 0 => pure []
  | index, n + 1 => do
    let partition ← queryEntry raw style (48 + index * 144)
    let rest ← queryEntries raw style (index + 1) n
    pure (partition.toList ++ rest)

def queryLayoutBytes (raw : Bytes) : Except PyError (PartitionStyle × List LayoutPartition) :=
  if raw.length < 48 then pure (.unknown, [])
  else do
    let styleValue ← unpackFrom raw 0 4
    let count ← unpackFrom raw 4 4
    let partitions ← queryEntries raw (partitionStyleOf styleValue) 0
      (min count ((raw.length - 48) / 144))
    pure (partitionStyleOf styleValue, partitions)

/-! ### The encoding -/

/-- The bytes of a GUID in a structure of Windows. -/
def Uuid.bytesLe (u : Uuid) : Bytes :=
  (slice u.1 0 4).reverse ++ (slice u.1 4 6).reverse ++ (slice u.1 6 8).reverse ++ u.1.drop 8

/-- The union in `PARTITION_INFORMATION_EX`, with what nobody reads of it. -/
inductive PartitionUnion
  | mbr (partitionType bootIndicator : UInt8) (rest : Field 110)
  | gpt (partitionType : Uuid) (rest : Field 96)
  | other (style : UInt32) (not_mbr : style ≠ 0) (not_gpt : style ≠ 1) (rest : Field 112)

def PartitionUnion.style : PartitionUnion → UInt32
  | .mbr .. => 0
  | .gpt .. => 1
  | .other style .. => style

def PartitionUnion.encode : PartitionUnion → Bytes
  | .mbr partitionType bootIndicator rest => partitionType :: bootIndicator :: rest.1
  | .gpt partitionType rest => partitionType.bytesLe ++ rest.1
  | .other _ _ _ rest => rest.1

/-- `PARTITION_INFORMATION_EX`. -/
structure PartitionEntry where
  startingOffset : UInt64
  partitionLength : UInt64
  partitionNumber : UInt32
  padding : Field 4
  rewrite : Field 4
  union : PartitionUnion

namespace PartitionEntry

variable (e : PartitionEntry)

def encode : Bytes :=
  bytes 4 e.union.style.toNat ++ (e.padding.1 ++ (bytes 8 e.startingOffset.toNat ++
    (bytes 8 e.partitionLength.toNat ++ (bytes 4 e.partitionNumber.toNat ++
      (e.rewrite.1 ++ e.union.encode)))))

def used : Bool := e.partitionNumber ≠ 0 && e.partitionLength ≠ 0

/-- The partition that a used entry describes: its boot byte, its type byte or its type GUID say
what it is for. -/
def partition (style : PartitionStyle) : LayoutPartition where
  number := e.partitionNumber.toNat
  offset := e.startingOffset.toNat
  length := e.partitionLength.toNat
  style := style
  typeDescription := match e.union with
    | .mbr type _ _ => "MBR type 0x" ++ String.ofList ((hexByte type).map Char.toUpper)
    | .gpt type _ => type.str
    | .other .. => ""
  isBoot := match e.union with
    | .mbr _ boot _ => boot ≠ 0
    | .gpt .. | .other .. => false
  isSystem := match e.union with
    | .mbr type _ _ => type = 0xEF
    | .gpt type _ => type = efiSystem || type = msReserved
    | .other .. => false
  isRecovery := match e.union with
    | .mbr type _ _ => type = 0x27
    | .gpt type _ => type = msRecovery
    | .other .. => false
  isEfi := match e.union with
    | .mbr type _ _ => type = 0xEF
    | .gpt type _ => type = efiSystem
    | .other .. => false

end PartitionEntry

/-- `DRIVE_LAYOUT_INFORMATION_EX`. -/
structure DriveLayout where
  style : UInt32
  /-- The disk signature or GUID, which nobody reads. -/
  rest : Field 40
  entries : List PartitionEntry
  count_lt : entries.length < 2 ^ 32

def DriveLayout.encode (d : DriveLayout) : Bytes :=
  bytes 4 d.style.toNat ++ bytes 4 d.entries.length ++ d.rest.1 ++
    d.entries.flatMap PartitionEntry.encode

/-! ### Decoding what was encoded -/

@[simp] theorem length_field {n : ℕ} (f : Field n) : f.1.length = n := f.2

@[simp] theorem Uuid.length_bytesLe (u : Uuid) : u.bytesLe.length = 16 := by
  simp [Uuid.bytesLe, slice]

@[simp] theorem PartitionUnion.length_encode (u : PartitionUnion) : u.encode.length = 112 := by
  cases u <;> simp [PartitionUnion.encode]

@[simp] theorem PartitionEntry.length_encode (e : PartitionEntry) : e.encode.length = 144 := by
  simp [PartitionEntry.encode]

theorem length_flatMap_encode (es : List PartitionEntry) :
    (es.flatMap PartitionEntry.encode).length = 144 * es.length := by
  induction es with
  | nil => rfl
  | cons e es ih =>
    rw [List.flatMap_cons, List.length_append, ih, PartitionEntry.length_encode, List.length_cons]
    ring

/-- The bytes of a GUID are its fields turned around, which is undone by doing it again. -/
theorem Uuid.bytesLe_bytesLe (u : Uuid) : Uuid.bytesLe ⟨u.bytesLe, u.length_bytesLe⟩ = u.1 := by
  obtain ⟨data, h⟩ := u
  rcases data with _ | ⟨a, _ | ⟨b, _ | ⟨c, _ | ⟨d, _ | ⟨e, _ | ⟨f, _ | ⟨g, _ | ⟨i, data⟩⟩⟩⟩⟩⟩⟩⟩ <;>
    simp at h
  simp [Uuid.bytesLe, slice]

theorem Uuid.ofBytesLe_bytesLe (u : Uuid) : Uuid.ofBytesLe u.bytesLe = .ok u := by
  rw [Uuid.ofBytesLe, dif_pos u.length_bytesLe]
  exact congrArg Except.ok (Subtype.ext u.bytesLe_bytesLe)

theorem unpackFrom_of_region {raw field : Bytes} {offset size : ℕ}
    (h : region raw offset size = some field) : unpackFrom raw offset size = .ok (value field) := by
  rw [unpackFrom, h]

section Entry

variable (pre post : Bytes) (e : PartitionEntry) (style : PartitionStyle)

/-- A field of an entry, read from the whole layout. -/
theorem unpackFrom_encode {k size : ℕ} {field : Bytes} (hk : k + size ≤ 144)
    (h : region e.encode k size = some field) :
    unpackFrom (pre ++ e.encode ++ post) (pre.length + k) size = .ok (value field) := by
  apply unpackFrom_of_region
  rw [region_within (by rwa [PartitionEntry.length_encode]), h]

theorem region_style : region e.encode 0 4 = some (bytes 4 e.union.style.toNat) :=
  region_head (by simp)

theorem region_startingOffset :
    region e.encode 8 8 = some (bytes 8 e.startingOffset.toNat) := by
  show region _ (4 + (4 + 0)) 8 = _
  rw [PartitionEntry.encode, region_skip (by simp), region_skip (by simp), region_head (by simp)]

theorem region_partitionLength :
    region e.encode 16 8 = some (bytes 8 e.partitionLength.toNat) := by
  show region _ (4 + (4 + (8 + 0))) 8 = _
  rw [PartitionEntry.encode, region_skip (by simp), region_skip (by simp), region_skip (by simp),
    region_head (by simp)]

theorem region_partitionNumber :
    region e.encode 24 4 = some (bytes 4 e.partitionNumber.toNat) := by
  show region _ (4 + (4 + (8 + (8 + 0)))) 4 = _
  rw [PartitionEntry.encode, region_skip (by simp), region_skip (by simp), region_skip (by simp),
    region_skip (by simp), region_head (by simp)]

theorem region_union (k size : ℕ) :
    region e.encode (32 + k) size = region e.union.encode k size := by
  rw [show 32 + k = 4 + (4 + (8 + (8 + (4 + (4 + k))))) by omega, PartitionEntry.encode,
    region_skip (by simp), region_skip (by simp), region_skip (by simp), region_skip (by simp),
    region_skip (by simp), region_skip (by simp)]

/-- The flags of the union. -/
def PartitionUnion.flags : PartitionUnion → TypeFlags
  | .mbr partitionType bootIndicator _ => mbrFlags partitionType bootIndicator
  | .gpt partitionType _ => gptFlags partitionType
  | .other .. => {}

theorem value_singleton (b : UInt8) : UInt8.ofNat (value [b]) = b := by
  simp [value]

theorem slice_of_region {raw field : Bytes} {offset size : ℕ}
    (h : region raw offset size = some field) : slice raw offset (offset + size) = field := by
  rw [region] at h
  split_ifs at h
  rw [slice, List.drop_take, Nat.add_sub_cancel_left]
  exact Option.some.inj h

theorem queryType_encode :
    queryType (pre ++ e.encode ++ post) pre.length e.union.style.toNat = .ok e.union.flags := by
  have hread (k size : ℕ) (field : Bytes) (hk : 32 + k + size ≤ 144)
      (h : region e.union.encode k size = some field) :
      region (pre ++ e.encode ++ post) (pre.length + (32 + k)) size = some field := by
    rw [region_within (by rwa [PartitionEntry.length_encode]), region_union, h]
  cases hu : e.union with
  | mbr partitionType boot rest =>
    rw [hu] at hread
    have htype := unpackFrom_of_region
      (hread 0 1 [partitionType] (by omega) (by simp [region, PartitionUnion.encode]))
    have hboot := unpackFrom_of_region
      (hread 1 1 [boot] (by omega) (by simp [region, PartitionUnion.encode]))
    have hstyle : (0 : UInt32).toNat = partitionStyleMbr := rfl
    rw [queryType, PartitionUnion.style, hstyle, if_pos rfl, htype, hboot]
    simp only [bind, Except.bind, pure, Except.pure, value_singleton, PartitionUnion.flags]
  | gpt partitionType rest =>
    rw [hu] at hread
    have hguid := slice_of_region
      (hread 0 16 partitionType.bytesLe (by omega) (region_head (by simp)))
    have hstyle : (1 : UInt32).toNat = partitionStyleGpt := rfl
    rw [queryType, PartitionUnion.style, hstyle, if_neg (by decide), if_pos rfl, hguid,
      Uuid.ofBytesLe_bytesLe]
    rfl
  | other style h0 h1 rest =>
    have hmbr : style.toNat ≠ partitionStyleMbr := fun h => h0 (UInt32.toNat_inj.1 h)
    have hgpt : style.toNat ≠ partitionStyleGpt := fun h => h1 (UInt32.toNat_inj.1 h)
    rw [queryType, PartitionUnion.style, if_neg hmbr, if_neg hgpt]
    rfl

/-- The flags of the code are what the entry says. -/
theorem partition_eq :
    e.partition style = {
      number := e.partitionNumber.toNat
      offset := e.startingOffset.toNat
      length := e.partitionLength.toNat
      style := style
      typeDescription := e.union.flags.typeDescription
      isBoot := e.union.flags.isBoot
      isSystem := e.union.flags.isSystem
      isRecovery := e.union.flags.isRecovery
      isEfi := e.union.flags.isEfi } := by
  rw [PartitionEntry.partition]
  cases e.union <;> rfl

theorem used_eq_false_iff :
    e.used = false ↔ e.partitionNumber.toNat = 0 ∨ e.partitionLength.toNat = 0 := by
  have hnumber : e.partitionNumber.toNat = 0 ↔ e.partitionNumber = 0 := UInt32.toNat_inj (b := 0)
  have hlength : e.partitionLength.toNat = 0 ↔ e.partitionLength = 0 := UInt64.toNat_inj (b := 0)
  rw [hnumber, hlength]
  simp [PartitionEntry.used, or_iff_not_imp_left]

/-- **One entry, wherever it lies in the layout.** -/
theorem queryEntry_encode :
    queryEntry (pre ++ e.encode ++ post) style pre.length =
      .ok (if e.used then some (e.partition style) else none) := by
  have hread {k size : ℕ} {field : Bytes} (hk : k + size ≤ 144)
      (h : region e.encode k size = some field) := unpackFrom_encode pre post e hk h
  have hstyle := hread (by omega) (region_style e)
  have hstart := hread (by omega) (region_startingOffset e)
  have hlength := hread (by omega) (region_partitionLength e)
  have hnumber := hread (by omega) (region_partitionNumber e)
  rw [value_bytes_of_lt e.union.style.toNat_lt, Nat.add_zero] at hstyle
  rw [value_bytes_of_lt e.startingOffset.toNat_lt] at hstart
  rw [value_bytes_of_lt e.partitionLength.toNat_lt] at hlength
  rw [value_bytes_of_lt e.partitionNumber.toNat_lt] at hnumber
  rw [queryEntry, hstyle, hstart, hlength, hnumber]
  simp only [bind, Except.bind, queryType_encode]
  cases hused : e.used with
  | false =>
    have hunused := (used_eq_false_iff e).1 hused
    rw [if_pos (by simpa using hunused)]
    rfl
  | true =>
    have hunused : ¬(e.partitionNumber.toNat = 0 ∨ e.partitionLength.toNat = 0) := by
      rw [← used_eq_false_iff, hused]
      decide
    rw [if_neg (by simpa using hunused), partition_eq]
    rfl

end Entry

/-- The partitions of the used entries, in order. -/
def partitionsOf (style : PartitionStyle) (es : List PartitionEntry) : List LayoutPartition :=
  (es.filter PartitionEntry.used).map (PartitionEntry.partition · style)

theorem partitionsOf_cons (style : PartitionStyle) (e : PartitionEntry) (es : List PartitionEntry) :
    partitionsOf style (e :: es) =
      (if e.used then some (e.partition style) else none).toList ++ partitionsOf style es := by
  cases h : e.used <;> simp [partitionsOf, h]

/-- The loop, by induction on the entries that are left. -/
theorem queryEntries_encode (style : PartitionStyle) (tail : Bytes) (es : List PartitionEntry) :
    ∀ (pre : Bytes) (index : ℕ), pre.length = 48 + index * 144 →
      queryEntries (pre ++ es.flatMap PartitionEntry.encode ++ tail) style index es.length =
        .ok (partitionsOf style es) := by
  induction es with
  | nil =>
    intro pre index hpre
    rfl
  | cons e es ih =>
    intro pre index hpre
    have hnext : (pre ++ e.encode).length = 48 + (index + 1) * 144 := by
      rw [List.length_append, hpre, PartitionEntry.length_encode]
      ring
    have hentry := queryEntry_encode pre (es.flatMap PartitionEntry.encode ++ tail) e style
    have hrest := ih (pre ++ e.encode) (index + 1) hnext
    rw [List.append_assoc] at hentry
    rw [List.append_assoc, List.append_assoc] at hrest
    rw [List.flatMap_cons, List.append_assoc, List.append_assoc, List.length_cons, queryEntries,
      ← hpre, hentry, hrest, partitionsOf_cons]
    rfl

/-- A layout with a header for its entries, and anything after them. -/
theorem queryLayoutBytes_append (header tail : Bytes) (es : List PartitionEntry)
    (hheader : header.length = 48)
    (hcount : es.length = min (value ((header.drop 4).take 4))
      ((144 * es.length + tail.length) / 144)) :
    queryLayoutBytes (header ++ es.flatMap PartitionEntry.encode ++ tail) =
      .ok (partitionStyleOf (value (header.take 4)),
        partitionsOf (partitionStyleOf (value (header.take 4))) es) := by
  have hlength : (header ++ es.flatMap PartitionEntry.encode ++ tail).length =
      48 + (144 * es.length + tail.length) := by
    rw [List.length_append, List.length_append, length_flatMap_encode, hheader]
    ring
  have hread (k : ℕ) (hk : k + 4 ≤ 48) :
      region (header ++ es.flatMap PartitionEntry.encode ++ tail) k 4 =
        some ((header.drop k).take 4) := by
    rw [List.append_assoc, region_append_left (by omega), region, if_pos (by omega)]
  have hstyle := unpackFrom_of_region (hread 0 (by omega))
  have hentries := unpackFrom_of_region (hread 4 (by omega))
  rw [queryLayoutBytes, if_neg (by omega), hstyle, hentries, hlength, Nat.add_sub_cancel_left]
  simp only [bind, Except.bind, pure, Except.pure, List.drop_zero]
  rw [← hcount, queryEntries_encode _ tail es header 0 hheader]

namespace DriveLayout

variable (d : DriveLayout)

def header : Field 48 :=
  ⟨bytes 4 d.style.toNat ++ (bytes 4 d.entries.length ++ d.rest.1), by simp⟩

theorem encode_eq : d.encode = d.header.1 ++ d.entries.flatMap PartitionEntry.encode := by
  simp [encode, header]

theorem value_style : value (d.header.1.take 4) = d.style.toNat := by
  rw [header, List.take_left' (by simp), value_bytes_of_lt d.style.toNat_lt]

theorem value_count : value ((d.header.1.drop 4).take 4) = d.entries.length := by
  rw [header, List.drop_left' (by simp), List.take_left' (by simp), value_bytes_of_lt d.count_lt]

end DriveLayout

theorem queryLayoutBytes_encode (d : DriveLayout) :
    queryLayoutBytes d.encode = .ok (partitionStyleOf d.style.toNat,
      partitionsOf (partitionStyleOf d.style.toNat) d.entries) := by
  have h := queryLayoutBytes_append d.header.1 [] d.entries d.header.2
    (by rw [d.value_count]; simp)
  rwa [d.value_style, List.append_nil, ← d.encode_eq] at h

/-! ### Any bytes -/

theorem exists_split (n : ℕ) (data : Bytes) (h : n ≤ data.length) :
    ∃ (a : Field n) (b : Bytes), data = a.1 ++ b ∧ b.length = data.length - n :=
  ⟨⟨data.take n, by simpa using h⟩, data.drop n, by simp, by simp⟩

theorem exists_uuid (f : Field 16) : ∃ u : Uuid, u.bytesLe = f.1 :=
  ⟨⟨Uuid.bytesLe f, Uuid.length_bytesLe f⟩, Uuid.bytesLe_bytesLe f⟩

theorem exists_uInt32 (f : Field 4) : ∃ n : UInt32, bytes 4 n.toNat = f.1 := by
  have h : (UInt32.ofNat (value f.1)).toNat = value f.1 := Nat.mod_eq_of_lt (value_field_lt f)
  exact ⟨_, by rw [h, bytes_field]⟩

theorem exists_uInt64 (f : Field 8) : ∃ n : UInt64, bytes 8 n.toNat = f.1 := by
  have h : (UInt64.ofNat (value f.1)).toNat = value f.1 := Nat.mod_eq_of_lt (value_field_lt f)
  exact ⟨_, by rw [h, bytes_field]⟩

/-- Every union can be read in the way that its style says. -/
theorem exists_union (style : UInt32) (f : Field 112) :
    ∃ u : PartitionUnion, u.style = style ∧ u.encode = f.1 := by
  by_cases hmbr : style = 0
  · obtain ⟨⟨type, htype⟩, data, hf, hdata⟩ := exists_split 2 f.1 (by simp)
    obtain ⟨a, b, rfl⟩ := List.length_eq_two.1 htype
    exact ⟨.mbr a b ⟨data, by simpa using hdata⟩, hmbr.symm, hf.symm⟩
  · by_cases hgpt : style = 1
    · obtain ⟨guid, data, hf, hdata⟩ := exists_split 16 f.1 (by simp)
      obtain ⟨u, hu⟩ := exists_uuid guid
      refine ⟨.gpt u ⟨data, by simpa using hdata⟩, hgpt.symm, ?_⟩
      rw [PartitionUnion.encode, hu]
      exact hf.symm
    · exact ⟨.other style hmbr hgpt f, rfl, rfl⟩

/-- Every complete block of bytes is an entry. -/
theorem exists_entry (block : Field 144) : ∃ e : PartitionEntry, e.encode = block.1 := by
  obtain ⟨block, h⟩ := block
  obtain ⟨style, block, rfl, h1⟩ := exists_split 4 block (by omega)
  obtain ⟨padding, block, rfl, h2⟩ := exists_split 4 block (by omega)
  obtain ⟨start, block, rfl, h3⟩ := exists_split 8 block (by omega)
  obtain ⟨length, block, rfl, h4⟩ := exists_split 8 block (by omega)
  obtain ⟨number, block, rfl, h5⟩ := exists_split 4 block (by omega)
  obtain ⟨rewrite, block, rfl, h6⟩ := exists_split 4 block (by omega)
  obtain ⟨style', hstyle⟩ := exists_uInt32 style
  obtain ⟨start', hstart⟩ := exists_uInt64 start
  obtain ⟨length', hlength⟩ := exists_uInt64 length
  obtain ⟨number', hnumber⟩ := exists_uInt32 number
  obtain ⟨union, hunion, hencode⟩ := exists_union style' ⟨block, by simp at h; omega⟩
  refine ⟨⟨start', length', number', padding, rewrite, union⟩, ?_⟩
  rw [PartitionEntry.encode, hunion, hstyle, hstart, hlength, hnumber, hencode]

theorem exists_entries (n : ℕ) :
    ∀ data : Bytes, 144 * n ≤ data.length →
      ∃ (es : List PartitionEntry) (tail : Bytes), es.length = n ∧
        data = es.flatMap PartitionEntry.encode ++ tail := by
  induction n with
  | zero =>
    intro data _
    exact ⟨[], data, rfl, rfl⟩
  | succ n ih =>
    intro data h
    obtain ⟨block, rest, rfl, hrest⟩ := exists_split 144 data (by omega)
    obtain ⟨e, he⟩ := exists_entry block
    obtain ⟨es, tail, hlength, rfl⟩ := ih rest (by omega)
    refine ⟨e :: es, tail, by simp [hlength], ?_⟩
    rw [List.flatMap_cons, he, List.append_assoc]

/-- What is reported of any bytes: the used ones among the entries that lie completely inside them
behind the header, at most as many as the header counts. -/
structure ReportsInside (raw : Bytes) (layout : PartitionStyle × List LayoutPartition) : Prop where
  short : raw.length < 48 → layout = (.unknown, [])
  inside : 48 ≤ raw.length → ∃ (header : Field 48) (es : List PartitionEntry) (tail : Bytes),
    raw = header.1 ++ es.flatMap PartitionEntry.encode ++ tail ∧
      es.length = min (value (slice raw 4 8)) ((raw.length - 48) / 144) ∧
      layout = (partitionStyleOf (value (slice raw 0 4)),
        partitionsOf (partitionStyleOf (value (slice raw 0 4))) es)

theorem queryLayoutBytes_total (raw : Bytes) :
    ∃ layout, queryLayoutBytes raw = .ok layout ∧ ReportsInside raw layout := by
  by_cases hshort : raw.length < 48
  · refine ⟨(.unknown, []), if_pos hshort, fun _ => rfl, fun h => by omega⟩
  · obtain ⟨header, rest, rfl, hrest⟩ := exists_split 48 raw (by omega)
    have hslice (i j : ℕ) (hj : j ≤ 48) : slice (header.1 ++ rest) i j = slice header.1 i j := by
      rw [slice, slice, List.take_append_of_le_length (by simpa using hj)]
    obtain ⟨es, tail, hes, hdata⟩ := exists_entries
      (min (value (slice header.1 4 8)) (rest.length / 144)) rest (by omega)
    have hrest : rest.length = 144 * es.length + tail.length := by
      rw [hdata, List.length_append, length_flatMap_encode]
    have hfield : (header.1.drop 4).take 4 = slice header.1 4 8 := by
      rw [slice, List.drop_take]
    have h := queryLayoutBytes_append header.1 tail es header.2
      (by rw [hfield, ← hrest, ← hes])
    rw [List.append_assoc, ← hdata] at h
    refine ⟨_, h, fun h48 => absurd h48 hshort, fun _ => ⟨header, es, tail, ?_, ?_, ?_⟩⟩
    · rw [List.append_assoc, ← hdata]
    · rw [hslice 4 8 (by omega), List.length_append, length_field, Nat.add_sub_cancel_left, hes]
    · rw [hslice 0 4 (by omega)]
      rfl

/-- **A layout that Windows encodes is decoded without the loss of a partition, and any other bytes
are decoded without raising, up to the last complete entry.** -/
theorem queryLayout_spec :
    (∀ d : DriveLayout, queryLayoutBytes d.encode = .ok (partitionStyleOf d.style.toNat,
      partitionsOf (partitionStyleOf d.style.toNat) d.entries)) ∧
    ∀ raw : Bytes, ∃ layout, queryLayoutBytes raw = .ok layout ∧ ReportsInside raw layout :=
  ⟨queryLayoutBytes_encode, queryLayoutBytes_total⟩

/-! ### Truncated replies -/

theorem take_encode (es : List PartitionEntry) (m : ℕ) :
    ∃ tail : Bytes, (es.flatMap PartitionEntry.encode).take m =
        (es.take (m / 144)).flatMap PartitionEntry.encode ++ tail ∧
      (es.take (m / 144)).length =
        min es.length ((144 * (es.take (m / 144)).length + tail.length) / 144) := by
  have hes : es.flatMap PartitionEntry.encode =
      (es.take (m / 144)).flatMap PartitionEntry.encode ++
        (es.drop (m / 144)).flatMap PartitionEntry.encode := by
    rw [← List.flatMap_append, List.take_append_drop]
  have hfits : ((es.take (m / 144)).flatMap PartitionEntry.encode).length ≤ m := by
    rw [length_flatMap_encode, List.length_take]
    omega
  refine ⟨_, by rw [hes, List.take_append, List.take_of_length_le hfits], ?_⟩
  rw [List.length_take, List.length_take, length_flatMap_encode, length_flatMap_encode,
    List.length_take, List.length_drop]
  omega

theorem exists_take_partitionsOf (style : PartitionStyle) (es : List PartitionEntry) (k : ℕ) :
    ∃ count, partitionsOf style (es.take k) = (partitionsOf style es).take count := by
  refine ⟨(partitionsOf style (es.take k)).length, ?_⟩
  have hes : partitionsOf style es =
      partitionsOf style (es.take k) ++ partitionsOf style (es.drop k) := by
    rw [partitionsOf, partitionsOf, partitionsOf, ← List.map_append, ← List.filter_append,
      List.take_append_drop]
  rw [hes, List.take_left]

/-- Whatever part of its layout a disk returns, it is decoded as one of the ways in which the query
for `i` is allowed to fail. -/
theorem queryLayout_take (i : DiskInterface) (d : DriveLayout)
    (hstyle : i.partitionStyle = partitionStyleOf d.style.toNat)
    (hpartitions : i.partitions =
      (partitionsOf i.partitionStyle d.entries).map LayoutPartition.toPartitionInfo) (n : ℕ) :
    ∃ failure layout, queryLayoutBytes (d.encode.take n) = .ok layout ∧
      ∀ f : Failures, f.layout i.path = some failure →
        queryLayout f i = some (layout.1, layout.2.map LayoutPartition.toPartitionInfo) := by
  by_cases hshort : n < 48
  · refine ⟨.truncated, (.unknown, []), if_pos ?_, fun f hf => ?_⟩
    · rw [List.length_take]
      omega
    · rw [queryLayout, hf]
      rfl
  · obtain ⟨tail, htake, hcount⟩ := take_encode d.entries (n - 48)
    obtain ⟨count, hpre⟩ := exists_take_partitionsOf i.partitionStyle d.entries ((n - 48) / 144)
    have hencode : d.encode.take n = d.header.1 ++
        (d.entries.take ((n - 48) / 144)).flatMap PartitionEntry.encode ++ tail := by
      rw [d.encode_eq, List.take_append, List.take_of_length_le (by simp; omega),
        length_field, htake,
        List.append_assoc _ _ tail]
    have h := queryLayoutBytes_append d.header.1 tail (d.entries.take ((n - 48) / 144))
      d.header.2 (by rwa [d.value_count])
    rw [d.value_style, ← hstyle, ← hencode] at h
    refine ⟨.entries count, _, h, fun f hf => ?_⟩
    rw [queryLayout, hf, hpartitions, hpre, List.map_take]

end Ps2Ripper
