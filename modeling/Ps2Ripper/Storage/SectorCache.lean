import Ps2Ripper.Storage.BootRegions
import Ps2Ripper.Storage.RawFile

/-!
# The sector cache of a disk

The class `disk` of `FATtools/disk.py` over an image file.  Single sectors go through a cache and
are written back later; longer transfers bypass it.

* `CachedDisk`, `CachedDisk.perform`: the cache and its tables, and the calls of the stream;
* `Coherent`, `Shows`: the tables agree with each other, and cache and file together show an image;
* `orderlyContract`: the calls for which this is so;
* `cached_run`: over the cache a program runs as it does over the image.
-/

namespace Ps2Ripper

open Interactive Prog Binary

/-- `table` maps the cached sectors to their slots in the cache, `tableR` maps the slots back; the
first free slot is at `cacheIndex`.  The position of the stream is `pos`; `si` and `so` are the
sector and the offset in it that the last `seek` has computed. -/
structure CachedDisk where
  file : RawFile
  size : ℕ
  pos : ℕ
  si : ℕ
  so : ℕ
  cache : ℕ → UInt8
  capacity : ℕ
  cacheIndex : ℕ
  dirties : List ℕ
  table : ℕ → Option ℕ
  tableR : ℕ → Option ℕ

abbrev CacheM : Type → Type := EStateM PyError CachedDisk

/-- `del d[k]`. -/
def delKey (d : ℕ → Option ℕ) (k : ℕ) : Except PyError (ℕ → Option ℕ) :=
  if (d k).isSome then .ok (Function.update d k none) else .error (.otherError "KeyError")

namespace CachedDisk

/-- The disk of an image file with a cache of that many bytes. -/
def new (size : ℕ) (content : ℕ → UInt8) (capacity : ℕ) : CachedDisk where
  file := ⟨size, content, 0⟩
  size := size
  pos := 0
  si := 0
  so := 0
  cache := fun _ => 0
  capacity := capacity
  cacheIndex := 0
  dirties := []
  table := fun _ => none
  tableR := fun _ => none

/-- `self.cache[slot:slot + count]`. -/
def view (d : CachedDisk) (slot count : ℕ) : Bytes :=
  stretch d.cache slot (min count (d.capacity - slot))

/-- The end of `seek`: the position is kept on the disk, and the file follows it. -/
def moveTo (d : CachedDisk) (target : ℤ) : CachedDisk :=
  let pos := (max 0 (min target d.size)).toNat
  { d with
    pos := pos
    si := pos / 512
    so := pos % 512
    file := d.file.seek (pos / 512 * 512) }

def seek (d : CachedDisk) (offset whence : ℤ) : CachedDisk :=
  d.moveTo <| if whence = 1 then d.pos + offset
    else if whence = 2 then (if d.size = 0 then (d.pos : ℤ) else d.size + offset)
    else offset

/-- A round of the loop of `cache_flush`; a sector that is not in the table is passed over. -/
def commit (d : CachedDisk) (sector : ℕ) : CachedDisk :=
  match d.table sector with
  | none => { d with file := d.file.seek (sector * 512) }
  | some slot => { d with file := (d.file.seek (sector * 512)).write (d.view slot 512) }

def resetTables (d : CachedDisk) : CachedDisk :=
  { d with table := fun _ => none, tableR := fun _ => none }

/-- `cache_flush()`. -/
def flush (d : CachedDisk) : CachedDisk :=
  if d.dirties = [] then d.resetTables
  else { ((d.dirties.insertionSort (· ≤ ·)).foldl commit d).resetTables with dirties := [] }

/-- `cache_flush(sector)`. -/
def flushSector (sector : ℕ) : CacheM Unit := do
  let d ← get
  if d.dirties = [] then set d.resetTables
  else do
    set (d.commit sector)
    if (d.table sector).isSome ∧ sector ∈ d.dirties then
      modify fun d => { d with dirties := d.dirties.erase sector }
    else throw (.otherError "KeyError")

/-- A round of the loop of `cache_retrieve` over several sectors: a dirty one is written back. -/
def flushDirty (i : ℕ) : CacheM Unit := do
  let d ← get
  if (d.table (d.si + i)).isSome ∧ d.si + i ∈ d.dirties then do
    flushSector (d.si + i)
    modify fun d => d.seek d.pos 0

def flushRange : List ℕ → CacheM Unit
  | [] => return
  | i :: rest => do
    flushDirty i
    flushRange rest

/-- The slot of the sector, if it is the only one and cached. -/
def cacheRetrieve (asize : ℕ) : CacheM (Option ℕ) := do
  if asize = 512 then do
    let d ← get
    return d.table d.si
  else do
    flushRange (List.range (asize / 512))
    return none

/-- The end of `cache_readinto`: a slot is linked to one sector only. -/
def link (sector slot : ℕ) : CacheM Unit := do
  let d ← get
  match d.tableR slot with
  | none => pure ()
  | some old =>
    match delKey d.table old with
    | .error e => throw e
    | .ok table => set { d with table := table }
  modify fun d =>
    { d with
      table := Function.update d.table sector (some slot)
      tableR := Function.update d.tableR slot (some sector) }

/-- When the cache is full it is flushed and filled from its start again. -/
def makeRoom (d : CachedDisk) (asize : ℕ) : CachedDisk :=
  if d.capacity < d.cacheIndex + asize then { d.flush with cacheIndex := 0 }.seek d.pos 0 else d

/-- What `readinto` puts into the cache at its index. -/
def load (d : CachedDisk) (asize : ℕ) : CachedDisk :=
  let (data, file) := d.file.read (min asize (d.capacity - d.cacheIndex))
  { d with
    file := file
    cache := overlay d.cache d.cacheIndex data
    cacheIndex := d.cacheIndex + asize }

/-- The slot into which the sector was loaded. -/
def cacheReadinto (asize : ℕ) : CacheM ℕ := do
  modify fun d => d.makeRoom asize
  let d ← get
  set (d.load asize)
  link d.si d.cacheIndex
  return d.cacheIndex

/-- How many bytes `read` returns. -/
def readCount (d : CachedDisk) (size : ℤ) : ℕ :=
  let size := if size < 0 then d.size else size.toNat
  if d.size ≠ 0 ∧ d.size < d.pos + size then d.size - d.pos else size

/-- A read that bypasses the cache. -/
def readDirect (asize count : ℕ) : CacheM Bytes := do
  let d ← get
  let (data, file) := (d.file.seek (d.si * 512)).read asize
  set { d with file := file, si := d.si + asize / 512, pos := d.pos + count }
  return slice (data ++ zeros (asize - data.length)) d.so (d.so + count)

def readSlot (slot asize count : ℕ) : CacheM Bytes := do
  let d ← get
  set { d with pos := d.pos + count }
  return slice (d.view slot asize) d.so (d.so + count)

def read (size : ℤ) : CacheM Bytes := do
  modify fun d => d.seek d.pos 0
  let d ← get
  let count := d.readCount size
  let se := (d.pos + count) / 512 + if (d.pos + count) % 512 ≠ 0 then 1 else 0
  let asize := (se - d.si) * 512
  match ← cacheRetrieve asize with
  | some slot => readSlot slot asize count
  | none =>
    if 512 < asize then readDirect asize count
    else do
      let slot ← cacheReadinto asize
      readSlot slot asize count

/-- `if not self.cache_retrieve(): self.cache_readinto()`, for one sector. -/
def fetch : CacheM ℕ := do
  match ← cacheRetrieve 512 with
  | some slot => return slot
  | none => cacheReadinto 512

/-- Bytes of one sector are written to the cache; the slice that is assigned to has their length. -/
def patch (data : Bytes) : CacheM Unit := do
  let slot ← fetch
  let d ← get
  if (slice (d.view slot 512) d.so (d.so + data.length)).length ≠ data.length then
    throw (.valueError "memoryview assignment: lvalue and rvalue have different structures")
  else
    set { d with
      cache := overlay d.cache (slot + d.so) data
      dirties := d.dirties.insert d.si
      pos := d.pos + data.length }

/-- A cached sector is dropped. -/
def forget (sector : ℕ) : CacheM Unit := do
  let d ← get
  match d.table sector with
  | none => return
  | some slot =>
    match delKey d.tableR slot with
    | .error e => throw e
    | .ok tableR => set { d with
        tableR := tableR
        table := Function.update d.table sector none
        dirties := d.dirties.erase sector }

def forgetRange : List ℕ → CacheM Unit
  | [] => return
  | sector :: rest => do
    forget sector
    forgetRange rest

/-- Full sectors are written past the cache, which forgets them. -/
def writeDirect (data : Bytes) : CacheM Unit := do
  let d ← get
  forgetRange (List.range' d.si (data.length / 512))
  modify fun d =>
    let d := { d with file := d.file.write data, pos := d.pos + data.length }
    d.seek d.pos 0

/-- The rest of a sector in the middle of which the stream stands. -/
def writeMiddle (data : Bytes) : CacheM Bytes := do
  let d ← get
  if d.so = 0 then return data
  else do
    let j := min (512 - d.so) data.length
    patch (data.take j)
    modify fun d => d.seek d.pos 0
    return data.drop j

def writeFull (data : Bytes) : CacheM Bytes := do
  if 512 < data.length then do
    let full := data.length / 512 * 512
    writeDirect (data.take full)
    return data.drop full
  else return data

def write (data : Bytes) : CacheM Unit := do
  if data = [] then return
  else do
    let rest ← writeMiddle data
    let rest ← writeFull rest
    if rest ≠ [] then patch rest
    modify fun d => d.seek d.pos 0

def call : (o : RawOp) → CacheM o.Answer
  | .seek offset whence => modify fun d => d.seek offset whence
  | .tell => return (← get).pos
  | .read size => read size
  | .write data => write data
  | .flush => modify flush

/-- Carry out one call. -/
def perform (d : CachedDisk) (o : RawOp) : Except PyError o.Answer × CachedDisk :=
  match call o d with
  | .ok a d' => (.ok a, d')
  | .error e d' => (.error e, d')

/-- What cache and file show at an offset. -/
def shown (d : CachedDisk) (i : ℕ) : UInt8 :=
  match d.table (i / 512) with
  | some slot => d.cache (slot + i % 512)
  | none => d.file.content i

/-- The tables are inverse to each other, the slots lie before the index, and a sector that is not
dirty is cached as the file has it. -/
structure Coherent (d : CachedDisk) : Prop where
  file_size : d.file.size = d.size
  aligned : 512 ∣ d.size
  pos_le : d.pos ≤ d.size
  room : 512 ≤ d.capacity
  capacity : 512 ∣ d.capacity
  index : 512 ∣ d.cacheIndex
  index_le : d.cacheIndex ≤ d.capacity
  slot : ∀ {k v}, d.table k = some v → 512 ∣ v ∧ v + 512 ≤ d.cacheIndex
  sector : ∀ {k v}, d.table k = some v → k * 512 + 512 ≤ d.size
  back : ∀ {k v}, d.table k = some v ↔ d.tableR v = some k
  clean : ∀ {k v}, d.table k = some v → k ∉ d.dirties →
    ∀ j < 512, d.cache (v + j) = d.file.content (k * 512 + j)
  dirty : ∀ k ∈ d.dirties, (d.table k).isSome
  nodup : d.dirties.Nodup

/-- Sector and offset are those of the position, and the file stands at the sector. -/
structure InPlace (d : CachedDisk) : Prop where
  si : d.si = d.pos / 512
  so : d.so = d.pos % 512
  file : d.file.pos = d.pos / 512 * 512

/-- The same is shown, and the stream has not moved. -/
structure Keeps (d d' : CachedDisk) : Prop where
  coherent : d'.Coherent
  size : d'.size = d.size
  pos : d'.pos = d.pos
  shown : ∀ i < d.size, d'.shown i = d.shown i

variable {d d' : CachedDisk} {k v i : ℕ} {α β : Type}

theorem Keeps.trans {d'' : CachedDisk} (h : d.Keeps d') (h' : d'.Keeps d'') : d.Keeps d'' :=
  ⟨h'.coherent, h'.size.trans h.size, h'.pos.trans h.pos,
    fun i hi => (h'.shown i (h.size ▸ hi)).trans (h.shown i hi)⟩

theorem shown_of_none (h : d.table (i / 512) = none) : d.shown i = d.file.content i := by
  rw [shown, h]

theorem shown_of_some (h : d.table (i / 512) = some v) : d.shown i = d.cache (v + i % 512) := by
  rw [shown, h]

/-- What is not dirty is in the file. -/
theorem Coherent.shown_of_clean (h : d.Coherent) (hclean : i / 512 ∉ d.dirties) :
    d.shown i = d.file.content i := by
  cases htable : d.table (i / 512) with
  | none => exact shown_of_none htable
  | some v =>
    rw [shown_of_some htable, h.clean htable hclean _ (Nat.mod_lt _ (by decide)),
      Nat.div_add_mod' i 512]

/-! ### Moving -/

theorem seek_here (hle : d.pos ≤ d.size) : d.seek d.pos 0 = { d with
    si := d.pos / 512, so := d.pos % 512, file := d.file.seek (d.pos / 512 * 512) } := by
  have htarget : (max 0 (min (d.pos : ℤ) d.size)).toNat = d.pos := by omega
  rw [seek, if_neg (by decide), if_neg (by decide), moveTo]
  simp only [htarget]

theorem Coherent.moveTo (h : d.Coherent) (target : ℤ) : (d.moveTo target).Coherent where
  file_size := h.file_size
  aligned := h.aligned
  pos_le := by
    show (max 0 (min target d.size)).toNat ≤ d.size
    omega
  room := h.room
  capacity := h.capacity
  index := h.index
  index_le := h.index_le
  slot := h.slot
  sector := h.sector
  back := h.back
  clean := h.clean
  dirty := h.dirty
  nodup := h.nodup

theorem inPlace_moveTo (d : CachedDisk) (target : ℤ) : (d.moveTo target).InPlace := ⟨rfl, rfl, rfl⟩

theorem Coherent.keeps_seek (h : d.Coherent) : d.Keeps (d.seek d.pos 0) := by
  have hcoherent : (d.seek d.pos 0).Coherent := h.moveTo _
  rw [seek_here h.pos_le] at hcoherent ⊢
  exact ⟨hcoherent, rfl, rfl, fun _ _ => rfl⟩

theorem inPlace_seek (d : CachedDisk) (offset whence : ℤ) : (d.seek offset whence).InPlace :=
  inPlace_moveTo d _

/-! ### Writing back -/

/-- Writing a sector back changes the file only, and the file is then as shown there. -/
theorem commit_spec (hsize : d.file.size = d.size)
    (hslot : ∀ {k v}, d.table k = some v → v + 512 ≤ d.capacity ∧ k * 512 + 512 ≤ d.size) (k : ℕ) :
    ∃ f, d.commit k = { d with file := f } ∧ f.size = d.size ∧
      ∀ i < d.size, f.content i = if i / 512 = k then d.shown i else d.file.content i := by
  cases htable : d.table k with
  | none =>
    refine ⟨d.file.seek (k * 512), by rw [commit, htable], hsize, fun i _ => ?_⟩
    split
    · rename_i hk
      rw [shown_of_none (hk ▸ htable), RawFile.seek_content]
    · rfl
  | some v =>
    obtain ⟨hv, hk⟩ := hslot htable
    have hview : d.view v 512 = stretch d.cache v 512 := by
      rw [view, min_eq_left (by omega)]
    refine ⟨(d.file.seek (k * 512)).write (d.view v 512), by
      rw [commit, htable], ?_, fun i hi => ?_⟩
    · rw [RawFile.write_size (by rw [hview, length_stretch]; simp; omega)]
      exact hsize
    · rw [RawFile.write_content (by simpa [hsize] using hi), hview]
      simp only [RawFile.seek_content, RawFile.seek_pos]
      split
      · rename_i hdiv
        have hmod : k * 512 + i % 512 = i := by omega
        rw [shown_of_some (hdiv ▸ htable), ← hmod, overlay_add (by simp; omega), getElem_stretch]
        simp
      · by_cases hlt : i < k * 512
        · exact overlay_of_lt hlt
        · exact overlay_of_le (by rw [length_stretch]; omega)

theorem foldl_commit (hsize : d.file.size = d.size)
    (hslot : ∀ {k v}, d.table k = some v → v + 512 ≤ d.capacity ∧ k * 512 + 512 ≤ d.size)
    (l : List ℕ) :
    ∃ f, l.foldl commit d = { d with file := f } ∧ f.size = d.size ∧
      ∀ i < d.size, f.content i = if i / 512 ∈ l then d.shown i else d.file.content i := by
  induction l generalizing d with
  | nil => exact ⟨d.file, rfl, hsize, fun i _ => by simp⟩
  | cons k l ih =>
    obtain ⟨f₁, hcommit, hsize₁, hcontent₁⟩ := commit_spec hsize hslot k
    obtain ⟨f, hfold, hsize', hcontent⟩ := ih (d := { d with file := f₁ }) hsize₁ hslot
    refine ⟨f, by rw [List.foldl_cons, hcommit, hfold], hsize', fun i hi => ?_⟩
    -- A sector that is not cached is shown as the file has it, before and after.
    have hshown : ({ d with file := f₁ } : CachedDisk).shown i = d.shown i := by
      cases htable : d.table (i / 512) with
      | none =>
        rw [shown_of_none (d := { d with file := f₁ }) htable, shown_of_none htable]
        show f₁.content i = _
        rw [hcontent₁ i hi, shown_of_none htable, ite_self]
      | some v => rw [shown_of_some (d := { d with file := f₁ }) htable, shown_of_some htable]
    rw [hcontent i hi, hshown]
    show (if _ then _ else f₁.content i) = _
    rw [hcontent₁ i hi]
    by_cases hk : i / 512 = k
    · simp [hk]
    · simp [hk]

/-- After a flush the file is as shown, and nothing is cached. -/
theorem Coherent.flush_spec (h : d.Coherent) :
    ∃ f, d.flush = { d with
        file := f, dirties := [], table := fun _ => none, tableR := fun _ => none } ∧
      f.size = d.size ∧ ∀ i < d.size, f.content i = d.shown i := by
  have hslot : ∀ {k v}, d.table k = some v → v + 512 ≤ d.capacity ∧ k * 512 + 512 ≤ d.size :=
    fun hk => ⟨(h.slot hk).2.trans h.index_le, h.sector hk⟩
  by_cases hnil : d.dirties = []
  · refine ⟨d.file, ?_, h.file_size, fun i _ => ?_⟩
    · rw [flush, if_pos hnil, resetTables, hnil]
    · exact (h.shown_of_clean (by simp [hnil])).symm
  · obtain ⟨f, hfold, hsize, hcontent⟩ :=
      foldl_commit h.file_size hslot (d.dirties.insertionSort (· ≤ ·))
    refine ⟨f, by rw [flush, if_neg hnil, hfold, resetTables], hsize, fun i hi => ?_⟩
    rw [hcontent i hi]
    split
    · rfl
    · rename_i hmem
      exact (h.shown_of_clean fun hdirty => hmem ((List.mem_insertionSort _).2 hdirty)).symm

theorem Coherent.of_flush {f : RawFile} {index : ℕ} (h : d.Coherent) (hsize : f.size = d.size)
    (hindex : 512 ∣ index) (hle : index ≤ d.capacity) :
    ({ d with
      file := f, dirties := [], table := fun _ => none, tableR := fun _ => none
      cacheIndex := index } : CachedDisk).Coherent where
  file_size := hsize
  aligned := h.aligned
  pos_le := h.pos_le
  room := h.room
  capacity := h.capacity
  index := hindex
  index_le := hle
  slot := nofun
  sector := nofun
  back := ⟨nofun, nofun⟩
  clean := nofun
  dirty := nofun
  nodup := List.nodup_nil

/-- A flush is not seen. -/
theorem Coherent.keeps_flush (h : d.Coherent) : d.Keeps d.flush := by
  obtain ⟨f, hflush, hsize, hcontent⟩ := h.flush_spec
  rw [hflush]
  exact ⟨h.of_flush hsize h.index h.index_le, rfl, rfl, hcontent⟩

/-- A dirty sector is written back and is clean then. -/
theorem Coherent.flushSector_spec (h : d.Coherent) (hk : k ∈ d.dirties) :
    ∃ f, flushSector k d = .ok () { d with file := f, dirties := d.dirties.erase k } ∧
      d.Keeps { d with file := f, dirties := d.dirties.erase k } := by
  obtain ⟨f, hcommit, hsize, hcontent⟩ := commit_spec h.file_size
    (fun hk => ⟨(h.slot hk).2.trans h.index_le, h.sector hk⟩) k
  obtain ⟨v, hv⟩ := Option.isSome_iff_exists.1 (h.dirty k hk)
  have hshown : ∀ i < d.size,
      ({ d with file := f, dirties := d.dirties.erase k } : CachedDisk).shown i = d.shown i := by
    intro i hi
    cases htable : d.table (i / 512) with
    | some slot =>
      rw [shown_of_some (d := { d with file := f, dirties := d.dirties.erase k }) htable,
        shown_of_some htable]
    | none =>
      rw [shown_of_none (d := { d with file := f, dirties := d.dirties.erase k }) htable,
        shown_of_none htable]
      show f.content i = _
      rw [hcontent i hi, shown_of_none htable, ite_self]
  refine ⟨f, ?_, ⟨?_, rfl, rfl, hshown⟩⟩
  · have hne : d.dirties ≠ [] := List.ne_nil_of_mem hk
    show (if d.dirties = [] then set d.resetTables else _ : CacheM Unit) d = _
    rw [if_neg hne]
    show (if _ then _ else _ : CacheM Unit) (d.commit k) = _
    rw [if_pos ⟨h.dirty k hk, hk⟩]
    show EStateM.Result.ok () { d.commit k with dirties := (d.commit k).dirties.erase k } = _
    rw [hcommit]
  · refine { h with
      file_size := hsize
      clean := fun {l u} hl hclean j hj => ?_
      dirty := fun l hl => h.dirty l (List.mem_of_mem_erase hl)
      nodup := h.nodup.erase k }
    have hin := h.sector hl
    have hdiv : (l * 512 + j) / 512 = l := by omega
    have hmod : (l * 512 + j) % 512 = j := by omega
    show d.cache (u + j) = f.content (l * 512 + j)
    rw [hcontent _ (by omega), hdiv]
    split
    · rw [shown_of_some (hdiv.symm ▸ hl), hmod]
    · rename_i hne
      exact h.clean hl (fun hmem => hclean ((List.mem_erase_of_ne hne).2 hmem)) j hj

/-- A change that is not seen and leaves no new sector dirty. -/
structure Flushes (d d' : CachedDisk) : Prop where
  keeps : d.Keeps d'
  inPlace : d'.InPlace
  table : d'.table = d.table
  dirties : d'.dirties ⊆ d.dirties

theorem Flushes.refl (h : d.Coherent) (hplace : d.InPlace) : d.Flushes d :=
  ⟨⟨h, rfl, rfl, fun _ _ => rfl⟩, hplace, rfl, fun _ => id⟩

theorem Flushes.trans {d'' : CachedDisk} (h : d.Flushes d') (h' : d'.Flushes d'') : d.Flushes d'' :=
  ⟨h.keeps.trans h'.keeps, h'.inPlace, h'.table.trans h.table, fun _ hk =>
    h.dirties (h'.dirties hk)⟩

theorem flushDirty_spec (h : d.Coherent) (hplace : d.InPlace) (i : ℕ) :
    ∃ d', flushDirty i d = .ok () d' ∧ d.Flushes d' ∧ d.si + i ∉ d'.dirties := by
  by_cases hdirty : d.si + i ∈ d.dirties
  · obtain ⟨f, hflush, hkeeps⟩ := h.flushSector_spec hdirty
    refine ⟨_, ?_, ⟨hkeeps.trans hkeeps.coherent.keeps_seek, inPlace_seek _ _ _, rfl, ?_⟩, ?_⟩
    · show (if (d.table (d.si + i)).isSome ∧ d.si + i ∈ d.dirties then _ else _ : CacheM Unit) d = _
      rw [if_pos ⟨h.dirty _ hdirty, hdirty⟩, bind_of_ok hflush]
      rfl
    · exact fun k hk => List.mem_of_mem_erase hk
    · exact h.nodup.not_mem_erase
  · refine ⟨d, ?_, .refl h hplace, hdirty⟩
    show (if (d.table (d.si + i)).isSome ∧ d.si + i ∈ d.dirties then _ else _ : CacheM Unit) d = _
    rw [if_neg fun hc => hdirty hc.2]
    rfl

theorem flushRange_spec (h : d.Coherent) (hplace : d.InPlace) (l : List ℕ) :
    ∃ d', flushRange l d = .ok () d' ∧ d.Flushes d' ∧ ∀ i ∈ l, d.si + i ∉ d'.dirties := by
  induction l generalizing d with
  | nil => exact ⟨d, rfl, .refl h hplace, fun _ hi => absurd hi List.not_mem_nil⟩
  | cons i l ih =>
    obtain ⟨d₁, hflush, hflushes₁, hclean₁⟩ := flushDirty_spec h hplace i
    obtain ⟨d', hrun, hflushes, hclean⟩ := ih hflushes₁.keeps.coherent hflushes₁.inPlace
    have hsi : d₁.si = d.si := by
      rw [hflushes₁.inPlace.si, hplace.si, hflushes₁.keeps.pos]
    refine ⟨d', by rw [flushRange, bind_of_ok hflush, hrun], hflushes₁.trans hflushes, ?_⟩
    intro j hj hmem
    obtain rfl | hj := List.mem_cons.1 hj
    · exact hclean₁ (hflushes.dirties hmem)
    · exact hclean j hj (hsi.symm ▸ hmem)

/-! ### Loading a sector -/

/-- After making room there is a free slot, and the sector is still not cached. -/
theorem makeRoom_spec (h : d.Coherent) (hplace : d.InPlace) (hnone : d.table d.si = none) :
    d.Keeps (d.makeRoom 512) ∧ (d.makeRoom 512).InPlace ∧ (d.makeRoom 512).si = d.si ∧
      (d.makeRoom 512).so = d.so ∧ (d.makeRoom 512).table d.si = none ∧
      (d.makeRoom 512).cacheIndex + 512 ≤ d.capacity ∧ (d.makeRoom 512).capacity = d.capacity := by
  rw [makeRoom]
  split
  · obtain ⟨f, hflush, hsize, hcontent⟩ := h.flush_spec
    have hcoherent := h.of_flush hsize (Nat.dvd_zero 512) (Nat.zero_le _)
    have hkeeps : d.Keeps { d with
        file := f, dirties := [], table := fun _ => none, tableR := fun _ => none
        cacheIndex := 0 } := ⟨hcoherent, rfl, rfl, hcontent⟩
    rw [hflush]
    refine ⟨hkeeps.trans hcoherent.keeps_seek, inPlace_seek _ _ _, ?_⟩
    rw [seek_here hcoherent.pos_le]
    exact ⟨hplace.si.symm, hplace.so.symm, rfl, by simpa using h.room, rfl⟩
  · rename_i hfull
    exact ⟨⟨h, rfl, rfl, fun _ _ => rfl⟩, hplace, rfl, rfl, hnone, Nat.not_lt.1 hfull, rfl⟩

/-- A place that holds no sector is linked to one. -/
theorem link_fresh {sector slot : ℕ} (h : d.tableR slot = none) :
    link sector slot d = .ok () { d with
      table := Function.update d.table sector (some slot)
      tableR := Function.update d.tableR slot (some sector) } := by
  have hget : (get : CacheM CachedDisk) d = .ok d d := rfl
  rw [link, bind_of_ok hget, h]
  rfl

/-- A sector that is not cached is loaded into the slot at the index and linked to it. -/
theorem load_spec (h : d.Coherent) (hplace : d.InPlace) (hnone : d.table d.si = none)
    (hin : d.pos < d.size) (hroom : d.cacheIndex + 512 ≤ d.capacity) :
    ∃ d', link d.si d.cacheIndex (d.load 512) = .ok () d' ∧ d.Keeps d' ∧ d'.si = d.si ∧
      d'.so = d.so ∧ d'.table d.si = some d.cacheIndex := by
  have hsi := hplace.si
  have hfile := hplace.file
  have haligned := h.aligned
  have hsector : d.si * 512 + 512 ≤ d.size := by omega
  have hread : d.file.read 512 =
      (stretch d.file.content (d.si * 512) 512, d.file.seek (d.si * 512 + 512)) := by
    rw [RawFile.read_of_le (by rw [h.file_size]; omega), hfile, hsi]
  have hload : d.load 512 = { d with
      file := d.file.seek (d.si * 512 + 512)
      cache := overlay d.cache d.cacheIndex (stretch d.file.content (d.si * 512) 512)
      cacheIndex := d.cacheIndex + 512 } := by
    rw [load, min_eq_left (by omega), hread]
  have hfree : ∀ l, d.table l ≠ some d.cacheIndex := fun l hl => by
    have := (h.slot hl).2
    omega
  have hback : d.tableR d.cacheIndex = none := by
    rw [Option.eq_none_iff_forall_ne_some]
    exact fun l hl => hfree l (h.back.2 hl)
  have hcache : ∀ {l u j : ℕ}, d.table l = some u → j < 512 →
      overlay d.cache d.cacheIndex (stretch d.file.content (d.si * 512) 512) (u + j) =
        d.cache (u + j) := fun hl hj => overlay_of_lt (by have := (h.slot hl).2; omega)
  refine ⟨{ d with
      file := d.file.seek (d.si * 512 + 512)
      cache := overlay d.cache d.cacheIndex (stretch d.file.content (d.si * 512) 512)
      cacheIndex := d.cacheIndex + 512
      table := Function.update d.table d.si (some d.cacheIndex)
      tableR := Function.update d.tableR d.cacheIndex (some d.si) }, ?_, ⟨?_, rfl, rfl, ?_⟩,
    rfl, rfl, Function.update_self ..⟩
  · rw [hload]
    exact link_fresh (d := { d with
      file := d.file.seek (d.si * 512 + 512)
      cache := overlay d.cache d.cacheIndex (stretch d.file.content (d.si * 512) 512)
      cacheIndex := d.cacheIndex + 512 }) hback
  · refine { h with
      index := Nat.dvd_add h.index (Nat.dvd_refl 512)
      index_le := hroom
      slot := fun {l u} hl => ?_
      sector := fun {l u} hl => ?_
      back := fun {l u} => ?_
      clean := fun {l u} hl hclean j hj => ?_
      dirty := fun l hl => ?_ }
    · simp only [Function.update_apply] at hl
      split at hl
      · cases hl
        exact ⟨h.index, le_rfl⟩
      · exact ⟨(h.slot hl).1, (h.slot hl).2.trans (Nat.le_add_right ..)⟩
    · simp only [Function.update_apply] at hl
      split at hl
      · rename_i heq
        rw [heq]
        exact hsector
      · exact h.sector hl
    · simp only [Function.update_apply]
      by_cases hl : l = d.si
      · by_cases hu : u = d.cacheIndex
        · simp [hl, hu]
        · simp only [hl, if_true, if_neg hu, Option.some.injEq, ← h.back, hnone]
          exact ⟨fun heq => absurd heq.symm hu, fun heq => absurd heq.symm (Option.some_ne_none u)⟩
      · by_cases hu : u = d.cacheIndex
        · simp only [hu, if_neg hl, if_true, Option.some.injEq]
          exact ⟨fun heq => absurd heq (hfree l), fun heq => absurd heq.symm hl⟩
        · simp only [if_neg hl, if_neg hu, h.back]
    · simp only [Function.update_apply] at hl
      show overlay _ _ _ (u + j) = d.file.content (l * 512 + j)
      split at hl
      · rename_i heq
        cases hl
        rw [overlay_add (by simpa using hj), getElem_stretch, heq]
      · rw [hcache hl hj, h.clean hl hclean j hj]
    · simp only [Function.update_apply]
      split
      · rfl
      · exact h.dirty l hl
  · intro i _
    by_cases hdiv : i / 512 = d.si
    · rw [shown_of_some (v := d.cacheIndex) (by simp [hdiv]), shown_of_none (hdiv ▸ hnone)]
      show overlay _ _ _ (d.cacheIndex + i % 512) = _
      rw [overlay_add (by simp; omega), getElem_stretch, ← hdiv, Nat.div_add_mod']
    · cases htable : d.table (i / 512) with
      | none => rw [shown_of_none (by simp [hdiv, htable]), shown_of_none htable]; rfl
      | some u =>
        rw [shown_of_some (v := u) (by simp [hdiv, htable]), shown_of_some htable]
        exact hcache htable (Nat.mod_lt _ (by decide))

theorem cacheReadinto_spec (h : d.Coherent) (hplace : d.InPlace) (hnone : d.table d.si = none)
    (hin : d.pos < d.size) :
    ∃ v d', cacheReadinto 512 d = .ok v d' ∧ d.Keeps d' ∧ d'.si = d.si ∧ d'.so = d.so ∧
      d'.table d'.si = some v := by
  obtain ⟨hkeeps, hplace₁, hsi, hso, hnone₁, hroom, hcapacity⟩ := makeRoom_spec h hplace hnone
  obtain ⟨d', hlink, hkeeps', hsi', hso', htable⟩ := load_spec hkeeps.coherent hplace₁
    (hsi ▸ hnone₁) (by rw [hkeeps.pos, hkeeps.size]; exact hin) (hcapacity ▸ hroom)
  refine ⟨(d.makeRoom 512).cacheIndex, d', ?_, hkeeps.trans hkeeps', hsi'.trans hsi,
    hso'.trans hso, hsi' ▸ htable⟩
  show (link (d.makeRoom 512).si (d.makeRoom 512).cacheIndex >>= fun _ =>
    pure (d.makeRoom 512).cacheIndex) ((d.makeRoom 512).load 512) = _
  rw [bind_of_ok hlink]
  rfl

/-! ### Writing -/

/-- After the change `data` is shown from the position on, and the position is behind it. -/
structure Puts (d : CachedDisk) (data : Bytes) (d' : CachedDisk) : Prop where
  coherent : d'.Coherent
  size : d'.size = d.size
  pos : d'.pos = d.pos + data.length
  shown : ∀ i < d.size, d'.shown i = overlay d.shown d.pos data i

theorem Puts.refl (h : d.Coherent) : d.Puts [] d :=
  ⟨h, rfl, rfl, fun i _ => by rw [overlay_nil]⟩

theorem Puts.trans {a b : Bytes} {d'' : CachedDisk} (h : d.Puts a d') (h' : d'.Puts b d'') :
    d.Puts (a ++ b) d'' where
  coherent := h'.coherent
  size := h'.size.trans h.size
  pos := by rw [h'.pos, h.pos, List.length_append, Nat.add_assoc]
  shown i hi := by
    rw [h'.shown i (h.size ▸ hi), overlay_append, h.pos]
    by_cases hin : d.pos + a.length ≤ i ∧ i < d.pos + a.length + b.length
    · exact overlay_congr hin.1 hin.2
    · by_cases hlt : i < d.pos + a.length
      · rw [overlay_of_lt hlt, overlay_of_lt hlt, h.shown i hi]
      · rw [overlay_of_le (by omega), overlay_of_le (by omega), h.shown i hi]

theorem Puts.keeps {data : Bytes} {d'' : CachedDisk} (h : d.Puts data d') (h' : d'.Keeps d'') :
    d.Puts data d'' :=
  ⟨h'.coherent, h'.size.trans h.size, h'.pos.trans h.pos,
    fun i hi => (h'.shown i (h.size ▸ hi)).trans (h.shown i hi)⟩

theorem Keeps.puts {data : Bytes} {d'' : CachedDisk} (h : d.Keeps d') (h' : d'.Puts data d'') :
    d.Puts data d'' where
  coherent := h'.coherent
  size := h'.size.trans h.size
  pos := by rw [h'.pos, h.pos]
  shown i hi := by
    rw [h'.shown i (h.size ▸ hi), h.pos]
    by_cases hin : d.pos ≤ i ∧ i < d.pos + data.length
    · exact overlay_congr hin.1 hin.2
    · by_cases hlt : i < d.pos
      · rw [overlay_of_lt hlt, overlay_of_lt hlt, h.shown i hi]
      · rw [overlay_of_le (by omega), overlay_of_le (by omega), h.shown i hi]

/-- The slot of the sector at which the stream stands; it is loaded if need be. -/
theorem fetch_spec (h : d.Coherent) (hplace : d.InPlace) (hin : d.pos < d.size) :
    ∃ v d', fetch d = .ok v d' ∧ d.Keeps d' ∧ d'.si = d.si ∧ d'.so = d.so ∧
      d'.table d'.si = some v := by
  cases htable : d.table d.si with
  | some v =>
    refine ⟨v, d, ?_, ⟨h, rfl, rfl, fun _ _ => rfl⟩, rfl, rfl, htable⟩
    show (match d.table d.si with | some slot => return slot | none => cacheReadinto 512) d = _
    rw [htable]
    rfl
  | none =>
    obtain ⟨v, d', hrun, hspec⟩ := cacheReadinto_spec h hplace htable hin
    refine ⟨v, d', ?_, hspec⟩
    show (match d.table d.si with | some slot => return slot | none => cacheReadinto 512) d = _
    rw [htable]
    exact hrun

/-- Bytes that go into the slot of the current sector. -/
theorem Coherent.puts_slot (h : d.Coherent) (data : Bytes) (hsi : d.si = d.pos / 512)
    (hso : d.so = d.pos % 512) (hv : d.table d.si = some v) (hlength : d.so + data.length ≤ 512) :
    d.Puts data { d with
      cache := overlay d.cache (v + d.so) data
      dirties := d.dirties.insert d.si
      pos := d.pos + data.length } := by
  obtain ⟨hdvd, hle⟩ := h.slot hv
  have hin := h.sector hv
  -- Another slot does not overlap with this one.
  have hother : ∀ {l u j : ℕ}, d.table l = some u → l ≠ d.si → j < 512 →
      overlay d.cache (v + d.so) data (u + j) = d.cache (u + j) := by
    intro l u j hl hne hj
    have hneq : u ≠ v := by
      rintro rfl
      exact hne (Option.some.inj ((h.back.1 hl).symm.trans (h.back.1 hv)))
    have hdvd' := (h.slot hl).1
    by_cases hlt : u + j < v + d.so
    · exact overlay_of_lt hlt
    · exact overlay_of_le (by omega)
  refine ⟨{ h with
      pos_le := ?_
      clean := fun {l u} hl hclean j hj => ?_
      dirty := fun l hl => ?_
      nodup := h.nodup.insert }, rfl, rfl, fun i hi => ?_⟩
  · show d.pos + data.length ≤ d.size
    omega
  · have hne : l ≠ d.si := fun heq => hclean (heq ▸ List.mem_insert_self)
    show overlay _ _ _ (u + j) = _
    rw [hother hl hne hj]
    exact h.clean hl (fun hmem => hclean (List.mem_insert_of_mem hmem)) j hj
  · obtain rfl | hl := List.mem_insert_iff.1 hl
    · exact Option.isSome_iff_exists.2 ⟨v, hv⟩
    · exact h.dirty l hl
  · by_cases hdiv : i / 512 = d.si
    · rw [shown_of_some (v := v) (by simpa [hdiv] using hv)]
      show overlay d.cache (v + d.so) data (v + i % 512) = _
      by_cases hmem : d.pos ≤ i ∧ i < d.pos + data.length
      · obtain ⟨j, rfl⟩ := Nat.exists_eq_add_of_le hmem.1
        have hmod : v + (d.pos + j) % 512 = v + d.so + j := by omega
        rw [hmod, overlay_add (by omega), overlay_add (by omega)]
      · by_cases hlt : i < d.pos
        · rw [overlay_of_lt hlt, overlay_of_lt (by omega), shown_of_some (hdiv ▸ hv)]
        · rw [overlay_of_le (by omega), overlay_of_le (by omega), shown_of_some (hdiv ▸ hv)]
    · have hout : overlay d.shown d.pos data i = d.shown i := by
        by_cases hlt : i < d.pos
        · exact overlay_of_lt hlt
        · exact overlay_of_le (by omega)
      rw [hout]
      cases htable : d.table (i / 512) with
      | none => rw [shown_of_none (by simpa using htable), shown_of_none htable]
      | some u =>
        rw [shown_of_some (v := u) (by simpa using htable), shown_of_some htable]
        exact hother htable hdiv (Nat.mod_lt _ (by decide))

theorem patch_spec (data : Bytes) (h : d.Coherent) (hplace : d.InPlace) (hin : d.pos < d.size)
    (hlength : d.so + data.length ≤ 512) :
    ∃ d', patch data d = .ok () d' ∧ d.Puts data d' := by
  obtain ⟨v, d₁, hfetch, hkeeps, hsi, hso, hv⟩ := fetch_spec h hplace hin
  have hle := (hkeeps.coherent.slot hv).2.trans hkeeps.coherent.index_le
  have hview : (slice (d₁.view v 512) d₁.so (d₁.so + data.length)).length = data.length := by
    rw [slice, List.length_drop, List.length_take, view, length_stretch]
    omega
  refine ⟨_, ?_, hkeeps.puts (hkeeps.coherent.puts_slot data ?_ ?_ hv ?_)⟩
  · rw [patch, bind_of_ok hfetch]
    show (if _ then _ else _ : CacheM Unit) d₁ = _
    rw [if_neg (not_not.2 hview)]
    rfl
  · rw [hsi, hplace.si, hkeeps.pos]
  · rw [hso, hplace.so, hkeeps.pos]
  · rwa [hso]

/-- The sectors are not cached any more; nothing else has changed. -/
structure Forgets (d : CachedDisk) (sectors : List ℕ) (d' : CachedDisk) : Prop where
  coherent : d'.Coherent
  file : d'.file = d.file
  size : d'.size = d.size
  pos : d'.pos = d.pos
  cache : d'.cache = d.cache
  table : ∀ l, d'.table l = if l ∈ sectors then none else d.table l

theorem forget_spec (h : d.Coherent) (k : ℕ) : ∃ d', forget k d = .ok () d' ∧ d.Forgets [k] d' := by
  cases hk : d.table k with
  | none =>
    refine ⟨d, ?_, h, rfl, rfl, rfl, rfl, fun l => ?_⟩
    · show (match d.table k with | none => return | some slot => _ : CacheM Unit) d = _
      rw [hk]
      rfl
    · split
      · rename_i hl
        rw [List.mem_singleton.1 hl, hk]
      · rfl
  | some v =>
    have hv := h.back.1 hk
    have hdel : delKey d.tableR v = .ok (Function.update d.tableR v none) := by
      rw [delKey, if_pos (by rw [hv]; rfl)]
    refine ⟨{ d with
        tableR := Function.update d.tableR v none
        table := Function.update d.table k none
        dirties := d.dirties.erase k }, ?_, { h with
        slot := fun {l u} hl => ?_
        sector := fun {l u} hl => ?_
        back := fun {l u} => ?_
        clean := fun {l u} hl hclean => ?_
        dirty := fun l hl => ?_
        nodup := h.nodup.erase k }, rfl, rfl, rfl, rfl, fun l => ?_⟩
    · show (match d.table k with | none => return | some slot => _ : CacheM Unit) d = _
      rw [hk]
      show (match delKey d.tableR v with | .error e => throw e | .ok tableR => _ : CacheM Unit) d =
        _
      rw [hdel]
      rfl
    · simp only [Function.update_apply] at hl
      split at hl
      · cases hl
      · exact h.slot hl
    · simp only [Function.update_apply] at hl
      split at hl
      · cases hl
      · exact h.sector hl
    · simp only [Function.update_apply]
      by_cases hl : l = k
      · by_cases hu : u = v
        · simp [hl, hu]
        · simp only [if_pos hl, if_neg hu, reduceCtorEq, false_iff]
          rw [← h.back, hl, hk]
          exact fun heq => hu (Option.some.inj heq).symm
      · by_cases hu : u = v
        · simp only [if_neg hl, if_pos hu, reduceCtorEq, iff_false]
          rw [h.back, hu, hv]
          exact fun heq => hl (Option.some.inj heq).symm
        · simp only [if_neg hl, if_neg hu, h.back]
    · simp only [Function.update_apply] at hl
      split at hl
      · cases hl
      · rename_i hne
        exact h.clean hl fun hmem => hclean ((List.mem_erase_of_ne hne).2 hmem)
    · obtain ⟨hne, hl⟩ := h.nodup.mem_erase_iff.1 hl
      simp only [Function.update_of_ne hne]
      exact h.dirty l hl
    · simp only [Function.update_apply, List.mem_singleton]

theorem forgetRange_spec (h : d.Coherent) (l : List ℕ) :
    ∃ d', forgetRange l d = .ok () d' ∧ d.Forgets l d' := by
  induction l generalizing d with
  | nil => exact ⟨d, rfl, h, rfl, rfl, rfl, rfl, fun l => by simp⟩
  | cons k l ih =>
    obtain ⟨d₁, hforget, hforgets₁⟩ := forget_spec h k
    obtain ⟨d', hrun, hforgets⟩ := ih hforgets₁.coherent
    refine ⟨d', by rw [forgetRange, bind_of_ok hforget, hrun], hforgets.coherent,
      hforgets.file.trans hforgets₁.file, hforgets.size.trans hforgets₁.size,
      hforgets.pos.trans hforgets₁.pos, hforgets.cache.trans hforgets₁.cache, fun m => ?_⟩
    rw [hforgets.table, hforgets₁.table]
    by_cases hm : m = k
    · simp [hm]
    · simp [hm]

/-- Full sectors that are written to the file where nothing of them is cached. -/
theorem writeDirect_spec (data : Bytes) (h : d.Coherent) (hplace : d.InPlace) (hso : d.so = 0)
    (hdata : 512 ∣ data.length) (hin : d.pos + data.length ≤ d.size) :
    ∃ d', writeDirect data d = .ok () d' ∧ d.Puts data d' ∧ d'.InPlace := by
  obtain ⟨d₁, hforget, hforgets⟩ := forgetRange_spec h (List.range' d.si (data.length / 512))
  have hsi := hplace.si
  have hoffset := hplace.so
  have hfile : d₁.file.pos = d.pos := by
    rw [hforgets.file, hplace.file]
    omega
  have hsize : (d₁.file.write data).size = d.size := by
    rw [RawFile.write_size, hforgets.file, h.file_size]
    rw [hfile, hforgets.file, h.file_size]
    exact hin
  have hcontent : ∀ i < d.size,
      (d₁.file.write data).content i = overlay d.file.content d.pos data i := by
    intro i hi
    rw [RawFile.write_content (by rw [hforgets.file, h.file_size]; exact hi), hfile, hforgets.file]
  have hputs : d.Puts data { d₁ with
      file := d₁.file.write data, pos := d₁.pos + data.length } := by
    have h₁ := hforgets.coherent
    refine ⟨{ h₁ with
        file_size := hsize.trans hforgets.size.symm
        pos_le := ?_
        clean := fun {l u} hl hclean j hj => ?_ }, hforgets.size, ?_, fun i hi => ?_⟩
    · show d₁.pos + data.length ≤ d₁.size
      rw [hforgets.pos, hforgets.size]
      exact hin
    · show d₁.cache (u + j) = (d₁.file.write data).content (l * 512 + j)
      have hsector := h₁.sector hl
      rw [hforgets.size] at hsector
      have hcached : ¬l ∈ List.range' d.si (data.length / 512) := by
        intro hmem
        have hnone := hforgets.table l
        rw [if_pos hmem] at hnone
        exact absurd (hl.symm.trans hnone) (Option.some_ne_none u)
      rw [List.mem_range'_1] at hcached
      have hold := h₁.clean hl hclean j hj
      rw [hforgets.file] at hold
      rw [hold, hcontent _ (by omega)]
      by_cases hlt : l * 512 + j < d.pos
      · rw [overlay_of_lt hlt]
      · rw [overlay_of_le (by omega)]
    · show d₁.pos + data.length = d.pos + data.length
      rw [hforgets.pos]
    · have htable := hforgets.table (i / 512)
      by_cases hmem : i / 512 ∈ List.range' d.si (data.length / 512)
      · rw [if_pos hmem] at htable
        rw [shown_of_none (by simpa using htable)]
        show (d₁.file.write data).content i = _
        rw [List.mem_range'_1] at hmem
        rw [hcontent i hi]
        exact overlay_congr (by omega) (by omega)
      · rw [if_neg hmem] at htable
        rw [List.mem_range'_1] at hmem
        have hout : ∀ f : ℕ → UInt8, overlay f d.pos data i = f i := by
          intro f
          by_cases hlt : i < d.pos
          · exact overlay_of_lt hlt
          · exact overlay_of_le (by omega)
        rw [hout]
        cases hcached : d.table (i / 512) with
        | none =>
          rw [shown_of_none (by simpa [hcached] using htable), shown_of_none hcached]
          show (d₁.file.write data).content i = _
          rw [hcontent i hi, hout]
        | some u =>
          rw [shown_of_some (v := u) (by simpa [hcached] using htable), shown_of_some hcached]
          show d₁.cache _ = _
          rw [hforgets.cache]
  refine ⟨_, ?_, hputs.keeps hputs.coherent.keeps_seek, inPlace_seek _ _ _⟩
  show (forgetRange (List.range' d.si (data.length / 512)) >>= fun _ => modify fun d =>
    let d := { d with file := d.file.write data, pos := d.pos + data.length }
    d.seek d.pos 0 : CacheM Unit) d = _
  rw [bind_of_ok hforget]
  rfl

/-- What `patch` has put is followed by a `seek`. -/
theorem patch_seek_spec (data : Bytes) (h : d.Coherent) (hplace : d.InPlace) (hin : d.pos < d.size)
    (hlength : d.so + data.length ≤ 512) :
    ∃ d', patch data d = .ok () d' ∧ d.Puts data (d'.seek d'.pos 0) := by
  obtain ⟨d', hpatch, hputs⟩ := patch_spec data h hplace hin hlength
  exact ⟨d', hpatch, hputs.keeps hputs.coherent.keeps_seek⟩

/-- A part of the data is put, and the rest is left. -/
structure PutsPart (d : CachedDisk) (data : Bytes) (rest : Bytes) (d' : CachedDisk) : Prop where
  puts : ∃ first, first ++ rest = data ∧ d.Puts first d'
  inPlace : d'.InPlace

theorem writeMiddle_spec {data : Bytes} (h : d.Coherent) (hplace : d.InPlace)
    (hin : d.pos + data.length ≤ d.size) (hdata : data ≠ []) :
    ∃ rest d', writeMiddle data d = .ok rest d' ∧ d.PutsPart data rest d' ∧
      (rest = [] ∨ d'.so = 0) := by
  have hlength := List.length_pos_iff.2 hdata
  by_cases hso : d.so = 0
  · refine ⟨data, d, ?_, ⟨⟨[], rfl, .refl h⟩, hplace⟩, .inr hso⟩
    show (if d.so = 0 then return data else _ : CacheM Bytes) d = _
    rw [if_pos hso]
    rfl
  · have hoffset := hplace.so
    obtain ⟨d', hpatch, hputs⟩ := patch_seek_spec (data.take (min (512 - d.so) data.length)) h
      hplace (by omega) (by rw [List.length_take]; omega)
    refine ⟨data.drop (min (512 - d.so) data.length), d'.seek d'.pos 0, ?_,
      ⟨⟨_, List.take_append_drop _ _, hputs⟩, inPlace_seek _ _ _⟩, ?_⟩
    · show (if d.so = 0 then return data else _ : CacheM Bytes) d = _
      rw [if_neg hso, bind_of_ok hpatch]
      rfl
    · have hpos := hputs.pos
      have hplace' := (inPlace_seek d' d'.pos 0).so
      rw [List.length_take] at hpos
      rw [← List.length_eq_zero_iff, List.length_drop]
      omega

theorem writeFull_spec {data : Bytes} (h : d.Coherent) (hplace : d.InPlace)
    (hin : d.pos + data.length ≤ d.size) (hso : data = [] ∨ d.so = 0) :
    ∃ rest d', writeFull data d = .ok rest d' ∧ d.PutsPart data rest d' ∧
      (rest = [] ∨ d'.so = 0) ∧ rest.length ≤ 512 := by
  by_cases hlong : 512 < data.length
  · have hso' : d.so = 0 := hso.resolve_left (by rintro rfl; exact absurd hlong (by decide))
    have htake : (data.take (data.length / 512 * 512)).length = data.length / 512 * 512 := by
      rw [List.length_take]
      omega
    obtain ⟨d', hwrite, hputs, hplace'⟩ := writeDirect_spec
      (data.take (data.length / 512 * 512)) h hplace hso'
      (htake.symm ▸ Nat.dvd_mul_left 512 _) (by omega)
    refine ⟨data.drop (data.length / 512 * 512), d', ?_,
      ⟨⟨_, List.take_append_drop _ _, hputs⟩, hplace'⟩, .inr ?_, ?_⟩
    · show (if 512 < data.length then _ else _ : CacheM Bytes) d = _
      rw [if_pos hlong, bind_of_ok hwrite]
      rfl
    · have hoffset := hplace.so
      rw [hplace'.so, hputs.pos, htake]
      omega
    · rw [List.length_drop]
      omega
  · refine ⟨data, d, ?_, ⟨⟨[], rfl, .refl h⟩, hplace⟩, hso, Nat.not_lt.1 hlong⟩
    show (if 512 < data.length then _ else _ : CacheM Bytes) d = _
    rw [if_neg hlong]
    rfl

/-- A write that fits on the disk is shown, and the stream is in place behind it. -/
theorem write_spec {data : Bytes} (h : d.Coherent) (hplace : d.InPlace)
    (hin : d.pos + data.length ≤ d.size) (hdata : data ≠ []) :
    ∃ d', write data d = .ok () d' ∧ d.Puts data d' ∧ d'.InPlace := by
  obtain ⟨rest₁, d₁, hmiddle, ⟨⟨first, rfl, hputs₁⟩, hplace₁⟩, hso₁⟩ :=
    writeMiddle_spec h hplace hin hdata
  have hpos₁ := hputs₁.pos
  have hsize₁ := hputs₁.size
  rw [List.length_append] at hin
  obtain ⟨rest₂, d₂, hfull, ⟨⟨second, rfl, hputs₂⟩, hplace₂⟩, hso₂, hshort⟩ :=
    writeFull_spec hputs₁.coherent hplace₁ (by omega) hso₁
  have hpos₂ := hputs₂.pos
  have hsize₂ := hputs₂.size
  rw [List.length_append] at hin
  have hputs := hputs₁.trans hputs₂
  by_cases hnil : rest₂ = []
  · subst hnil
    refine ⟨d₂.seek d₂.pos 0, ?_, ?_, inPlace_seek _ _ _⟩
    · rw [write, if_neg hdata, bind_of_ok hmiddle, bind_of_ok hfull]
      rfl
    · rw [List.append_nil]
      exact hputs.keeps hputs.coherent.keeps_seek
  · have hlength := List.length_pos_iff.2 hnil
    have hso := hso₂.resolve_left hnil
    obtain ⟨d₃, hpatch, hputs₃⟩ := patch_seek_spec rest₂ hputs₂.coherent hplace₂ (by omega)
      (by rw [hso, Nat.zero_add]; exact hshort)
    refine ⟨d₃.seek d₃.pos 0, ?_, ?_, inPlace_seek _ _ _⟩
    · rw [write, if_neg hdata, bind_of_ok hmiddle, bind_of_ok hfull]
      show (if rest₂ ≠ [] then _ else _ : CacheM Unit) d₂ = _
      rw [if_pos hnil, bind_of_ok hpatch]
      rfl
    · rw [← List.append_assoc]
      exact hputs.trans hputs₃

/-! ### Reading -/

/-- The same is shown, and the position is `count` bytes further. -/
structure Advances (d : CachedDisk) (count : ℕ) (d' : CachedDisk) : Prop where
  coherent : d'.Coherent
  size : d'.size = d.size
  pos : d'.pos = d.pos + count
  shown : ∀ i < d.size, d'.shown i = d.shown i

theorem slice_stretch {f : ℕ → UInt8} {pos n a b : ℕ} (h : b ≤ n) :
    slice (stretch f pos n) a b = stretch f (pos + a) (b - a) := by
  rw [slice, take_stretch h]
  by_cases hle : a ≤ b
  · exact drop_stretch hle
  · rw [List.drop_eq_nil_of_le (by simp; omega), Nat.sub_eq_zero_of_le (by omega), stretch_zero]

/-- The end of the last sector of a range. -/
theorem last_sector (stop : ℕ) :
    (stop / 512 + if stop % 512 ≠ 0 then 1 else 0) * 512 < stop + 512 ∧
      stop ≤ (stop / 512 + if stop % 512 ≠ 0 then 1 else 0) * 512 := by
  split <;> omega

theorem readSlot_spec (count : ℕ) (h : d.Coherent) (hsi : d.si = d.pos / 512)
    (hso : d.so = d.pos % 512) (hv : d.table d.si = some v) (hcount : d.so + count ≤ 512) :
    ∃ d', readSlot v 512 count d = .ok (stretch d.shown d.pos count) d' ∧ d.Advances count d' := by
  have hle := (h.slot hv).2.trans h.index_le
  have hin := h.sector hv
  have hbytes : slice (d.view v 512) d.so (d.so + count) = stretch d.shown d.pos count := by
    rw [view, min_eq_left (by omega), slice_stretch hcount, Nat.add_sub_cancel_left]
    refine stretch_congr fun i hi => ?_
    have hdiv : (d.pos + i) / 512 = d.si := by omega
    have hmod : (d.pos + i) % 512 = d.so + i := by omega
    rw [shown_of_some (hdiv.symm ▸ hv), hmod, Nat.add_assoc]
  refine ⟨{ d with pos := d.pos + count }, ?_, { h with pos_le := ?_ }, rfl, rfl, fun _ _ => rfl⟩
  · show EStateM.Result.ok (slice (d.view v 512) d.so (d.so + count)) _ = _
    rw [hbytes]
  · show d.pos + count ≤ d.size
    omega

theorem readDirect_spec {asize : ℕ} (count : ℕ) (h : d.Coherent) (hplace : d.InPlace)
    (hclean : ∀ i ∈ List.range (asize / 512), d.si + i ∉ d.dirties) (hsectors : 512 ∣ asize)
    (hin : d.si * 512 + asize ≤ d.size) (hcount : d.so + count ≤ asize) :
    ∃ d', readDirect asize count d = .ok (stretch d.shown d.pos count) d' ∧ d.Advances count d' ∧
      (d.so + count = asize → d.so = 0 → d'.InPlace) := by
  have hsi := hplace.si
  have hso := hplace.so
  have hread : (d.file.seek (d.si * 512)).read asize =
      (stretch d.file.content (d.si * 512) asize, d.file.seek (d.si * 512 + asize)) :=
    RawFile.read_of_le (by simpa [h.file_size] using hin)
  have hbytes : slice (stretch d.file.content (d.si * 512) asize ++
      zeros (asize - (stretch d.file.content (d.si * 512) asize).length)) d.so (d.so + count) =
        stretch d.shown d.pos count := by
    rw [length_stretch, Nat.sub_self, zeros, List.replicate_zero, List.append_nil,
      slice_stretch hcount, Nat.add_sub_cancel_left]
    have hpos : d.si * 512 + d.so = d.pos := by omega
    rw [hpos]
    refine stretch_congr fun i hi => (h.shown_of_clean ?_).symm
    have hdiv : (d.pos + i) / 512 = d.si + ((d.pos + i) / 512 - d.si) := by omega
    rw [hdiv]
    exact hclean _ (List.mem_range.2 (by omega))
  refine ⟨{ d with
      file := d.file.seek (d.si * 512 + asize)
      si := d.si + asize / 512
      pos := d.pos + count }, ?_, ⟨{ h with pos_le := ?_ }, rfl, rfl, fun _ _ => rfl⟩, ?_⟩
  · have hrun : readDirect asize count d =
        .ok (slice (((d.file.seek (d.si * 512)).read asize).1 ++
            zeros (asize - ((d.file.seek (d.si * 512)).read asize).1.length)) d.so (d.so + count))
          { d with
            file := ((d.file.seek (d.si * 512)).read asize).2
            si := d.si + asize / 512
            pos := d.pos + count } := rfl
    rw [hrun, hread, hbytes]
  · show d.pos + count ≤ d.size
    omega
  · intro hwhole hstart
    refine ⟨?_, ?_, ?_⟩
    · show d.si + asize / 512 = (d.pos + count) / 512
      omega
    · show d.so = (d.pos + count) % 512
      omega
    · show d.si * 512 + asize = (d.pos + count) / 512 * 512
      omega

theorem readCount_eq {size : ℤ} (hin : d.pos < d.size) :
    d.readCount size = min (if size < 0 then d.size else size.toNat) (d.size - d.pos) := by
  rw [readCount]
  split <;> split <;> omega

theorem Keeps.advances {count : ℕ} {d'' : CachedDisk} (h : d.Keeps d')
    (h' : d'.Advances count d'') : d.Advances count d'' :=
  ⟨h'.coherent, h'.size.trans h.size, h'.pos.trans (congrArg (· + count) h.pos),
    fun i hi => (h'.shown i (h.size ▸ hi)).trans (h.shown i hi)⟩

theorem Keeps.stretch_shown {start count : ℕ} (h : d.Keeps d') (hin : start + count ≤ d.size) :
    stretch d'.shown start count = stretch d.shown start count :=
  stretch_congr fun i hi => h.shown _ (by omega)

/-- A read of at least one byte returns what is shown.  The stream is in place afterwards if full
sectors were read, more than one. -/
theorem read_spec (size : ℤ) (h : d.Coherent) (hin : d.pos < d.size)
    (hcount : 0 < d.readCount size) :
    ∃ d', read size d = .ok (stretch d.shown d.pos (d.readCount size)) d' ∧
      d.Advances (d.readCount size) d' ∧
      (512 ∣ d.pos → 512 ∣ d.readCount size → 512 < d.readCount size → d'.InPlace) := by
  have hkeeps := h.keeps_seek
  have hplace := inPlace_seek d d.pos 0
  have hle : d.pos + d.readCount size ≤ d.size := by
    rw [readCount_eq hin]
    omega
  have hhere : (d.seek d.pos 0).readCount size = d.readCount size := by
    rw [readCount, readCount, hkeeps.pos, hkeeps.size]
  have hsi : (d.seek d.pos 0).si = d.pos / 512 := by rw [hplace.si, hkeeps.pos]
  have hso : (d.seek d.pos 0).so = d.pos % 512 := by rw [hplace.so, hkeeps.pos]
  generalize hd₀ : d.seek d.pos 0 = d₀ at *
  generalize d.readCount size = count at *
  have haligned := h.aligned
  obtain ⟨hlast, hlast'⟩ := last_sector (d.pos + count)
  generalize hse : (d.pos + count) / 512 + (if (d.pos + count) % 512 ≠ 0 then 1 else 0) = se at *
  have hunfold : read size d = (do
      match ← cacheRetrieve ((se - d₀.si) * 512) with
      | some slot => readSlot slot ((se - d₀.si) * 512) count
      | none =>
        if 512 < (se - d₀.si) * 512 then readDirect ((se - d₀.si) * 512) count
        else do
          let slot ← cacheReadinto ((se - d₀.si) * 512)
          readSlot slot ((se - d₀.si) * 512) count : CacheM Bytes) d₀ := by
    rw [← hse, ← hkeeps.pos, ← hhere, ← hd₀]
    rfl
  rw [hunfold]
  have hstretch : ∀ {d' : CachedDisk}, d.Keeps d' →
      stretch d'.shown d'.pos count = stretch d.shown d.pos count := by
    intro d' hk
    rw [hk.pos, hk.stretch_shown hle]
  by_cases hone : (se - d₀.si) * 512 = 512
  · rw [hone]
    have hfit : ∀ {d' : CachedDisk}, d'.so = d₀.so → d'.so + count ≤ 512 := by
      intro d' hso'
      rw [hso', hso]
      omega
    have hplace' : 512 ∣ d.pos → 512 ∣ count → 512 < count → False := by omega
    cases htable : d₀.table d₀.si with
    | some v =>
      obtain ⟨d', hread, hadvances⟩ :=
        readSlot_spec count hkeeps.coherent hplace.si hplace.so htable (hfit rfl)
      refine ⟨d', ?_, hkeeps.advances hadvances, fun a b c => (hplace' a b c).elim⟩
      show (match d₀.table d₀.si with | some slot => _ | none => _ : CacheM Bytes) d₀ = _
      rw [htable, ← hstretch hkeeps]
      exact hread
    | none =>
      obtain ⟨v, d₁, hload, hkeeps₁, hsi₁, hso₁, hv⟩ := cacheReadinto_spec hkeeps.coherent hplace
        htable (by rw [hkeeps.pos, hkeeps.size]; exact hin)
      obtain ⟨d', hread, hadvances⟩ := readSlot_spec count hkeeps₁.coherent
        (by rw [hsi₁, hplace.si, hkeeps₁.pos]) (by rw [hso₁, hplace.so, hkeeps₁.pos]) hv (hfit hso₁)
      refine ⟨d', ?_, (hkeeps.trans hkeeps₁).advances hadvances, fun a b c => (hplace' a b c).elim⟩
      show (match d₀.table d₀.si with | some slot => _ | none => _ : CacheM Bytes) d₀ = _
      rw [htable, ← hstretch (hkeeps.trans hkeeps₁)]
      show (if 512 < 512 then _ else _ : CacheM Bytes) d₀ = _
      rw [if_neg (lt_irrefl 512), bind_of_ok hload]
      exact hread
  · have hlong : 512 < (se - d₀.si) * 512 := by omega
    obtain ⟨d₁, hflush, hflushes, hclean⟩ :=
      flushRange_spec hkeeps.coherent hplace (List.range ((se - d₀.si) * 512 / 512))
    have hkeeps₁ := hkeeps.trans hflushes.keeps
    have hsi₁ : d₁.si = d₀.si := by rw [hflushes.inPlace.si, hplace.si, hflushes.keeps.pos]
    have hso₁ : d₁.so = d₀.so := by rw [hflushes.inPlace.so, hplace.so, hflushes.keeps.pos]
    rw [← hsi₁] at hclean
    obtain ⟨d', hread, hadvances, hplace'⟩ := readDirect_spec count hkeeps₁.coherent
      hflushes.inPlace hclean (Nat.dvd_mul_left 512 _) (by rw [hkeeps₁.size]; omega)
      (by omega)
    refine ⟨d', ?_, hkeeps₁.advances hadvances, fun a b c => hplace' (by omega) (by omega)⟩
    have hretrieve : cacheRetrieve ((se - d₀.si) * 512) d₀ = .ok none d₁ := by
      rw [cacheRetrieve, if_neg hone, bind_of_ok hflush]
      rfl
    rw [bind_of_ok hretrieve]
    show (if 512 < (se - d₀.si) * 512 then _ else _ : CacheM Bytes) d₁ = _
    rw [if_pos hlong, ← hsi₁, hread, hstretch hkeeps₁]

/-! ### The image that is shown -/

/-- Cache and file show the bytes of the image, and stand where it does. -/
structure Shows (d : CachedDisk) (s : DiskImage) : Prop where
  coherent : d.Coherent
  size : d.size = s.size
  pos : d.pos = s.pos
  shown : ∀ i < s.size, d.shown i = s.content i

variable {s : DiskImage}

theorem Keeps.shows (hk : d.Keeps d') (h : d.Shows s) : d'.Shows s :=
  ⟨hk.coherent, hk.size.trans h.size, hk.pos.trans h.pos,
    fun i hi => (hk.shown i (h.size ▸ hi)).trans (h.shown i hi)⟩

theorem Shows.seek (h : d.Shows s) (offset whence : ℤ) :
    (d.seek offset whence).Shows (s.seek offset whence) := by
  refine ⟨h.coherent.moveTo _, h.size, ?_, h.shown⟩
  show (max 0 (min _ (d.size : ℤ))).toNat = (max 0 (min _ (s.size : ℤ))).toNat
  rw [h.size, h.pos]

theorem Puts.shows {data : Bytes} (hputs : d.Puts data d') (h : d.Shows s)
    (hin : s.pos + data.length ≤ s.size) : d'.Shows (s.write data) := by
  refine ⟨hputs.coherent, hputs.size.trans h.size, ?_, fun i hi => ?_⟩
  · show d'.pos = min s.size (s.pos + data.length)
    rw [hputs.pos, h.pos, min_eq_right hin]
  · show d'.shown i = overlay s.content s.pos data i
    rw [hputs.shown i (h.size ▸ hi), h.pos]
    by_cases hmem : s.pos ≤ i ∧ i < s.pos + data.length
    · exact overlay_congr hmem.1 hmem.2
    · by_cases hlt : i < s.pos
      · rw [overlay_of_lt hlt, overlay_of_lt hlt, h.shown i hi]
      · rw [overlay_of_le (by omega), overlay_of_le (by omega), h.shown i hi]

theorem coherent_new {size capacity : ℕ} (content : ℕ → UInt8) (hsize : 512 ∣ size)
    (hcapacity : 512 ∣ capacity) (hroom : 512 ≤ capacity) :
    (new size content capacity).Coherent where
  file_size := rfl
  aligned := hsize
  pos_le := Nat.zero_le _
  room := hroom
  capacity := hcapacity
  index := Nat.dvd_zero 512
  index_le := Nat.zero_le _
  slot := nofun
  sector := nofun
  back := ⟨nofun, nofun⟩
  clean := nofun
  dirty := nofun
  nodup := List.nodup_nil

theorem shows_new {size capacity : ℕ} (content : ℕ → UInt8) (hsize : 512 ∣ size)
    (hcapacity : 512 ∣ capacity) (hroom : 512 ≤ capacity) :
    (new size content capacity).Shows (.new size content) :=
  ⟨coherent_new content hsize hcapacity hroom, rfl, rfl, fun _ _ => rfl⟩

theorem inPlace_new (size : ℕ) (content : ℕ → UInt8) (capacity : ℕ) :
    (new size content capacity).InPlace := by
  constructor <;> simp [new]

theorem perform_of_ok {o : RawOp} {a : o.Answer} (h : call o d = .ok a d') :
    d.perform o = (.ok a, d') := by
  rw [perform, h]

end CachedDisk

def runCached {α : Type} (p : RawProgram α) (d : CachedDisk) : Outcome PyError α CachedDisk :=
  run (fun _ d o => CachedDisk.perform d o) p 0 d

/-! ### Programs over the cache -/

/-- How many bytes a read of the image returns. -/
def DiskImage.count (s : DiskImage) (size : ℤ) : ℕ :=
  min (if size < 0 then s.size else size.toNat) (s.size - s.pos)

/-- The calls that the cache carries out as the image does: a read finds a byte at least; a write
fits on the disk, and the stream was aimed at its place. -/
def OrderlyCall (s : DiskImage) (aimed : Bool) : RawOp → Prop
  | .read size => 0 < s.count size
  | .write data => data = [] ∨ aimed = true ∧ s.pos + data.length ≤ s.size
  | _ => True

/-- Whether the stream is aimed at its position after a call: after a `seek`, a write, or a read of
full sectors, more than one. -/
def aims (s : DiskImage) (aimed : Bool) : RawOp → Bool
  | .seek .. => true
  | .tell => aimed
  | .read size => decide (512 ∣ s.pos ∧ 512 ∣ s.count size ∧ 512 < s.count size)
  | .write data => aimed || !data.isEmpty
  | .flush => false

def orderlyContract : Contract rawInterface PyError (DiskImage × Bool) where
  may g o := OrderlyCall g.1 g.2 o
  answers g o r g' := g.1.perform o = (r, g'.1) ∧ g'.2 = aims g.1 g.2 o

/-- All calls of the program are of this kind. -/
def Orderly {α : Type} (p : RawProgram α) (g : DiskImage × Bool) : Prop :=
  wp orderlyContract p (fun _ _ => True) (fun _ _ => True) g

variable {α : Type} {d : CachedDisk} {s : DiskImage} {aimed : Bool}

/-- One call over the cache. -/
theorem CachedDisk.Shows.perform {o : RawOp} (h : d.Shows s) (haimed : aimed = true → d.InPlace)
    (ho : OrderlyCall s aimed o) :
    ∃ d', d.perform o = ((s.perform o).1, d') ∧ d'.Shows (s.perform o).2 ∧
      (aims s aimed o = true → d'.InPlace) := by
  cases o with
  | seek offset whence =>
    exact ⟨_, rfl, h.seek offset whence, fun _ => inPlace_seek d offset whence⟩
  | tell =>
    have hpos : (s.perform .tell).1 = .ok d.pos := congrArg Except.ok h.pos.symm
    exact ⟨d, by rw [hpos]; rfl, h, haimed⟩
  | flush => exact ⟨_, rfl, h.coherent.keeps_flush.shows h, nofun⟩
  | read size =>
    have hcount : 0 < s.count size := ho
    have hin : d.pos < d.size := by
      rw [DiskImage.count] at hcount
      rw [h.pos, h.size]
      omega
    have hsame : d.readCount size = s.count size := by
      rw [readCount_eq hin, DiskImage.count, h.size, h.pos]
    obtain ⟨d', hread, hadvances, hplace⟩ :=
      read_spec size h.coherent hin (hsame.symm ▸ hcount)
    rw [hsame, h.pos] at hread hplace
    have hbytes : stretch d.shown s.pos (s.count size) = (s.read size).1 := by
      refine stretch_congr fun i hi => h.shown _ ?_
      rw [DiskImage.count] at hi
      omega
    refine ⟨d', ?_, ⟨hadvances.coherent, hadvances.size.trans h.size, ?_, fun i hi => ?_⟩, ?_⟩
    · rw [hbytes] at hread
      exact perform_of_ok (o := .read size) hread
    · show d'.pos = s.pos + ((s.read size).1).length
      rw [hadvances.pos, hsame, h.pos, ← hbytes, length_stretch]
    · exact (hadvances.shown i (h.size ▸ hi)).trans (h.shown i hi)
    · intro hfull
      obtain ⟨hpos, hdvd, hlong⟩ := of_decide_eq_true hfull
      exact hplace hpos hdvd hlong
  | write data =>
    by_cases hnil : data = []
    · subst hnil
      refine ⟨d, rfl, ?_, fun h' => haimed (by simpa [aims] using h')⟩
      have hsame := (CachedDisk.Puts.refl h.coherent).shows h (by
        rw [← h.pos, ← h.size]
        exact h.coherent.pos_le)
      exact hsame
    · obtain ⟨haim, hin⟩ := ho.resolve_left hnil
      obtain ⟨d', hwrite, hputs, hplace⟩ := write_spec h.coherent (haimed haim)
        (by rw [h.pos, h.size]; exact hin) hnil
      exact ⟨d', perform_of_ok (o := .write data) hwrite, hputs.shows h hin, fun _ => hplace⟩

/-- A program of orderly calls has the result that it has over the image, and shows its bytes. -/
theorem run_orderly {p : RawProgram α} (hp : Orderly p (s, aimed)) (h : d.Shows s)
    (haimed : aimed = true → d.InPlace) (clock : ℕ) :
    (run (fun _ d o => CachedDisk.perform d o) p clock d).result =
        (run (fun _ s o => DiskImage.perform s o) p clock s).result ∧
      (run (fun _ d o => CachedDisk.perform d o) p clock d).world.Shows
        (run (fun _ s o => DiskImage.perform s o) p clock s).world := by
  induction p generalizing s d aimed clock with
  | pure a => exact ⟨rfl, h⟩
  | raise e => exact ⟨rfl, h⟩
  | call o k ih =>
    obtain ⟨d', hperform, hshows, haims⟩ := h.perform haimed hp.1
    have hrest := hp.2 (s.perform o).1 ((s.perform o).2, aims s aimed o) ⟨rfl, rfl⟩
    have hrun := ih (s.perform o).1 hrest hshows haims (clock + 1)
    simp only [run, hperform]
    exact hrun

/-- No call changes the size of an image. -/
theorem size_runImage (p : RawProgram α) (s : DiskImage) (clock : ℕ) :
    (run (fun _ s o => DiskImage.perform s o) p clock s).world.size = s.size := by
  induction p generalizing s clock with
  | pure a => rfl
  | raise e => rfl
  | call o k ih =>
    have hstep : (s.perform o).2.size = s.size := by
      cases o <;> rfl
    exact (ih _ _ (clock + 1)).trans hstep

/-- The file of a closed disk consists of the bytes that the disk has shown. -/
theorem CachedDisk.Shows.flushed (h : d.Shows s) :
    d.flush.file.size = s.size ∧ ∀ i < s.size, d.flush.file.content i = s.content i := by
  obtain ⟨f, hflush, hfile, hcontent⟩ := h.coherent.flush_spec
  rw [hflush]
  exact ⟨hfile.trans h.size,
    fun i hi => (hcontent i (h.size.symm ▸ hi)).trans (h.shown i hi)⟩

/-- **The cache is transparent.**  Over an image file of full sectors a program of orderly calls has
the result that it has over the bytes themselves, however few sectors the cache can hold; and when
the disk is closed the file consists of these bytes. -/
theorem cached_run (p : RawProgram α) (content : ℕ → UInt8) (size capacity : ℕ)
    (hsize : 512 ∣ size) (hcapacity : 512 ∣ capacity) (hroom : 512 ≤ capacity)
    (hp : Orderly p (.new size content, true)) :
    let out := runCached p (.new size content capacity)
    let plain := runImage p (.new size content)
    out.result = plain.result ∧ out.world.flush.file.size = size ∧
      ∀ i < size, out.world.flush.file.content i = plain.world.content i := by
  intro out plain
  obtain ⟨hresult, hshows⟩ := run_orderly hp
    (CachedDisk.shows_new content hsize hcapacity hroom) (fun _ => CachedDisk.inPlace_new _ _ _) 0
  have hkept : plain.world.size = size := size_runImage p (.new size content) 0
  obtain ⟨hfile, hcontent⟩ := hshows.flushed
  exact ⟨hresult, hfile.trans hkept, fun i hi => hcontent i (hkept.symm ▸ hi)⟩

/-- A write across the end of a sector, which is read back. -/
def writeAndReadBack : RawProgram Bytes := do
  raw (.seek 510 0)
  raw (.write [1, 2, 3, 4])
  raw (.seek 509 0)
  raw (.read 5)

theorem cached_run_sample :
    let out := runCached writeAndReadBack (.new 1024 (fun _ => 0) 512)
    let plain := runImage writeAndReadBack (.new 1024 fun _ => 0)
    out.result = plain.result ∧ out.world.flush.file.size = 1024 ∧
      ∀ i < 1024, out.world.flush.file.content i = plain.world.content i := by
  refine cached_run writeAndReadBack (fun _ => 0) 1024 512 (by norm_num) (by norm_num) le_rfl ?_
  refine ⟨trivial, ?_⟩
  rintro _ ⟨s₁, _⟩ ⟨⟨⟩, rfl⟩
  refine ⟨.inr ⟨rfl, by decide⟩, ?_⟩
  rintro _ ⟨s₂, _⟩ ⟨⟨⟩, rfl⟩
  refine ⟨trivial, ?_⟩
  rintro _ ⟨s₃, _⟩ ⟨⟨⟩, rfl⟩
  refine ⟨(by decide : 0 < DiskImage.count _ 5), ?_⟩
  rintro _ ⟨s₄, _⟩ ⟨⟨⟩, rfl⟩
  trivial

end Ps2Ripper
