import Ps2Ripper.Interactive.Steps
import Ps2Ripper.Imaging.CdSector

/-!
# The world of a run

The operations that the imaging functions and the workflow call on the file system, on the optical
drive, on `pycdlib`, on the cancellation token and on the progress callback, and what each of them
does to the world.  An `Oracle` decides for every operation whether it fails, what a write really
stores, how much a read delivers and whether a cancellation request has arrived.

The last fields of `World` are histories: they record what was read from the disc, what was
reported, which texts were written, and which files were published by `os.replace` or filled by
`shutil.move`.
-/

namespace Ps2Ripper

open Interactive

/-! ### The outside of the program -/

/-- A random-access source of bytes, some of which may be unreadable. -/
structure ByteSource where
  length : ℕ
  read : ℕ → Except PyError UInt8

/-- An opened ISO 9660 image: whether a record exists, and the bytes of a file. -/
structure Iso where
  getRecord : String → Except PyError Bool
  getFile : String → Except PyError Bytes

/-- The functions taken from libraries: SHA-256 in hexadecimal and `pycdlib`. -/
structure Externals where
  hexdigest : Bytes → String
  openIso : ByteSource → Except PyError Iso

/-- What the drive answers for the inserted disc. -/
structure Disc where
  ready : Bool := true
  configuration : Bytes := []
  capacity : Bytes := []
  dvdStructure : Option Bytes := none
  session : Bytes := []
  toc : Bytes := []
  block : ℕ → Bytes
  raw : ℕ → Bytes
  block_length : ∀ n, (block n).length = 2048
  raw_length : ∀ n, (raw n).length = 2352

/-- The logical sectors `lba, …, lba + count - 1`. -/
def Disc.blocks (d : Disc) (lba count : ℕ) : Bytes := (List.range' lba count).flatMap d.block

/-- The raw sectors `lba, …, lba + count - 1`. -/
def Disc.raws (d : Disc) (lba count : ℕ) : Bytes := (List.range' lba count).flatMap d.raw

theorem Disc.length_blocks (d : Disc) (lba count : ℕ) :
    (d.blocks lba count).length = count * 2048 := by
  simp [Disc.blocks, List.length_flatMap, d.block_length]

theorem Disc.length_raws (d : Disc) (lba count : ℕ) : (d.raws lba count).length = count * 2352 := by
  simp [Disc.raws, List.length_flatMap, d.raw_length]

theorem Disc.blocks_append (d : Disc) (lba i j : ℕ) :
    d.blocks lba i ++ d.blocks (lba + i) j = d.blocks lba (i + j) := by
  rw [Disc.blocks, Disc.blocks, ← List.flatMap_append, List.range'_append_1, Disc.blocks]

theorem Disc.raws_append (d : Disc) (lba i j : ℕ) :
    d.raws lba i ++ d.raws (lba + i) j = d.raws lba (i + j) := by
  rw [Disc.raws, Disc.raws, ← List.flatMap_append, List.range'_append_1, Disc.raws]

/-- What `pycdlib` is opened on: a file, or an `OpticalBlockStream`. -/
inductive IsoSource
  | file (path : Path)
  | stream (sectors : ℕ) (dataTrack : Option CDTrack)

/-- What a read past the end of a source raises. -/
def endOfData : PyError := .otherError "end of data"

def ByteSource.ofBytes (data : Bytes) : ByteSource where
  length := data.length
  read i := match data[i]? with
    | some b => .ok b
    | none => .error endOfData

/-- Free space is counted by volume: the one of an OPL root or of the temporary directory. -/
inductive Volume
  | opl (root : String)
  | temporary (base : String)
  deriving DecidableEq

/-- The volume of a directory. -/
def Dir.volume : Dir → Volume
  | .oplRoot root | .opl root _ => .opl root
  | .temporary base | .task base _ | .archives base _ | .retainedImages base => .temporary base

/-- What a run finds and cannot change: the libraries, the inserted disc and the free space. -/
structure Machine extends Externals where
  disc : Disc
  free : Volume → ℕ

/-- The bytes that an `OpticalBlockStream` presents. -/
def ByteSource.ofStream (d : Disc) (sectors : ℕ) : Option CDTrack → ByteSource
  | none =>
    { length := sectors * 2048
      read := fun i =>
        if i < sectors * 2048 then .ok ((d.block (i / 2048)).getD (i % 2048) 0)
        else .error endOfData }
  | some track =>
    { length := track.sectors * 2048
      read := fun i =>
        if i < track.sectors * 2048 then
          (extract2048UserData (d.raw (track.startLba + i / 2048))).map
            fun data => data.getD (i % 2048) 0
        else .error endOfData }

/-! ### Operations -/

/-- The number of bytes that `read(n)` delivers when `left` bytes remain: at most `n`, and none
only at the end. -/
abbrev ReadSize (left n : ℕ) := { k : ℕ // k ≤ min left n ∧ (0 < min left n → 0 < k) }

inductive Op
  | isRequested
  | progress (snapshot : ProgressSnapshot)
  | mkdir (dir : Dir)
  | mkdtemp (base : String)
  | uuid4
  | diskUsage (dir : Dir)
  | pathExists (path : Path)
  | openExclusive (path : Path)
  | openRead (path : Path)
  | read (path : Path) (left n : ℕ)
  | write (path : Path) (data : Bytes)
  | fsync (path : Path)
  | writeText (path : Path) (data : Bytes)
  | stat (path : Path)
  | unlink (path : Path)
  | replace (src dst : Path)
  | move (src dst : Path)
  | rmtree (dir : Dir)
  | openDevice
  | testUnitReady
  | getConfiguration
  | readCapacity
  | dvdReadStructure
  | readSessionInfo
  | readTocResponse
  | readCdRawAny (lba : ℕ)
  | readBlocks (lba count : ℕ)
  | readCdRaw (lba count : ℕ) (kind : TrackKind)
  | isoRecord (source : IsoSource) (isoPath : String)
  | isoFile (source : IsoSource) (isoPath : String)

/-- What an operation answers. -/
abbrev Op.Answer : Op → Type
  | .isRequested | .pathExists _ | .isoRecord .. => Bool
  | .mkdtemp _ | .uuid4 | .diskUsage _ | .stat _ | .write .. => ℕ
  | .openRead _ | .getConfiguration | .readCapacity | .dvdReadStructure | .readSessionInfo
  | .readTocResponse | .readCdRawAny _ | .readBlocks .. | .readCdRaw .. | .isoFile .. => Bytes
  | .read _ left n => ReadSize left n
  | _ => Unit

/-- The interface of the program. -/
abbrev interface : Signature := ⟨Op, Op.Answer⟩

/-- The programs of the model. -/
abbrev Program := Prog interface PyError

/-- Call one operation. -/
def call (o : Op) : Program o.Answer := Prog.perform (S := interface) o

/-- Operations that never raise; `rmtree` is called with `ignore_errors=True`. -/
def Op.infallible : Op → Bool
  | .isRequested | .uuid4 | .rmtree _ => true
  | _ => false

/-- How one operation turns out.  `request` is what a checkpoint sees of the token: the first
request that it sees ends the run, so that nothing is lost by leaving out that a request lasts. -/
structure Choice where
  request : Bool := false
  fault : Option PyError := none
  stored : Option Bytes := none
  size : Option ℕ := none

/-- The outcome of every operation of a run, by its position in the run. -/
abbrev Oracle := ℕ → Op → Choice

/-- The choices that an oracle makes. -/
def Oracle.choices (σ : Oracle) (o : Op) (c : Choice) : Prop := ∃ n, σ n o = c

/-- A read that was sent to the drive; `kind` is `none` for a logical read. -/
structure ReadCall where
  lba : ℕ
  count : ℕ
  kind : Option TrackKind
  ok : Bool

/-- The sectors that a read delivered. -/
def ReadCall.sectors (r : ReadCall) : List (ℕ × Option TrackKind) :=
  if r.ok then (List.range' r.lba r.count).map fun lba => (lba, r.kind) else []

structure World where
  files : Path → Option Bytes
  fresh : ℕ := 0
  reads : List ReadCall := []
  reported : List ProgressSnapshot := []
  texts : List (Path × Bytes) := []
  published : List (Path × Bytes) := []
  moved : List (Path × Bytes) := []

namespace World

def setFile (w : World) (p : Path) (x : Option Bytes) : World :=
  { w with files := Function.update w.files p x }

@[simp] theorem setFile_files_self (w : World) (p : Path) (x : Option Bytes) :
    (w.setFile p x).files p = x :=
  Function.update_self ..

theorem setFile_files_of_ne (w : World) {p q : Path} (x : Option Bytes) (h : q ≠ p) :
    (w.setFile p x).files q = w.files q :=
  Function.update_of_ne h ..

/-- Remove every file of a directory. -/
def removeAll (w : World) (d : Dir) : World :=
  { w with files := fun p => if p.dir = d then none else w.files p }

def logRead (w : World) (lba count : ℕ) (kind : Option TrackKind) (ok : Bool) : World :=
  { w with reads := w.reads ++ [⟨lba, count, kind, ok⟩] }

/-- The sectors that were delivered so far, in order. -/
def sectorsRead (w : World) : List (ℕ × Option TrackKind) := w.reads.flatMap ReadCall.sectors

/-- The bytes behind an image that `pycdlib` opens. -/
def source (w : World) (d : Disc) : IsoSource → Except PyError ByteSource
  | .file p =>
    match w.files p with
    | some data => .ok (.ofBytes data)
    | none => .error (.osError "No such file or directory")
  | .stream sectors track => .ok (.ofStream d sectors track)

end World

theorem readSize_full (left n : ℕ) :
    min left n ≤ min left n ∧ (0 < min left n → 0 < min left n) :=
  ⟨le_rfl, id⟩

theorem readSize_short (left n k : ℕ) :
    min (min left n) (max 1 k) ≤ min left n ∧ (0 < min left n → 0 < min (min left n) (max 1 k)) :=
  ⟨by omega, by omega⟩

/-- The number of bytes a read delivers. -/
def readSize (left n : ℕ) (size : Option ℕ) : ReadSize left n :=
  match size with
  | none => ⟨min left n, readSize_full left n⟩
  | some k => ⟨min (min left n) (max 1 k), readSize_short left n k⟩

/-- The effect of an operation that raises: a write or a move may have stored something. -/
def fail (o : Op) (c : Choice) (w : World) : World :=
  match o, c.stored with
  | .write p _, some data => w.setFile p ((w.files p).map (· ++ data))
  | .writeText p _, some data => w.setFile p (some data)
  | .move _ dst, some data =>
    { w.setFile dst (some data) with moved := w.moved ++ [(dst, data)] }
  | .readBlocks lba count, _ => w.logRead lba count none false
  | .readCdRaw lba count kind, _ => w.logRead lba count (some kind) false
  | _, _ => w

/-- The answer and the effect of an operation that goes through. -/
def succeed (m : Machine) (c : Choice) (w : World) : (o : Op) → Except PyError o.Answer × World
  | .isRequested => (.ok c.request, w)
  | .progress s => (.ok (), { w with reported := w.reported ++ [s] })
  | .mkdir _ => (.ok (), w)
  | .mkdtemp _ => (.ok w.fresh, { w with fresh := w.fresh + 1 })
  | .uuid4 => (.ok w.fresh, { w with fresh := w.fresh + 1 })
  | .diskUsage d => (.ok (c.size.getD (m.free d.volume)), w)
  | .pathExists p => (.ok (w.files p).isSome, w)
  | .openExclusive p =>
    if (w.files p).isSome then (.error (.fileExistsError p), w) else (.ok (), w.setFile p (some []))
  | .openRead p =>
    match w.files p with
    | some data => (.ok data, w)
    | none => (.error (.osError "No such file or directory"), w)
  | .read _ left n => (.ok (readSize left n c.size), w)
  | .write p data =>
    let data := c.stored.getD data
    (.ok data.length, w.setFile p ((w.files p).map (· ++ data)))
  | .fsync _ => (.ok (), w)
  | .writeText p data =>
    (.ok (), { w.setFile p (some (c.stored.getD data)) with texts := w.texts ++ [(p, data)] })
  | .stat p =>
    match w.files p with
    | some data => (.ok data.length, w)
    | none => (.error (.osError "No such file or directory"), w)
  | .unlink p => (.ok (), w.setFile p none)
  | .replace src dst =>
    match w.files src with
    | some data =>
      (.ok (), { (w.setFile src none).setFile dst (some data) with
        published := w.published ++ [(dst, data)] })
    | none => (.error (.osError "No such file or directory"), w)
  | .move src dst =>
    match w.files src with
    | some data =>
      (.ok (), { (w.setFile src none).setFile dst (some data) with
        moved := w.moved ++ [(dst, data)] })
    | none => (.error (.osError "No such file or directory"), w)
  | .rmtree d => (.ok (), if c.fault.isSome then w else w.removeAll d)
  | .openDevice => (.ok (), w)
  | .testUnitReady =>
    if m.disc.ready then (.ok (), w) else (.error (.osError "SCSI command 0x00 failed"), w)
  | .getConfiguration => (.ok m.disc.configuration, w)
  | .readCapacity => (.ok m.disc.capacity, w)
  | .dvdReadStructure =>
    match m.disc.dvdStructure with
    | some data => (.ok data, w)
    | none => (.error (.osError "IOCTL_DVD_READ_STRUCTURE failed"), w)
  | .readSessionInfo => (.ok m.disc.session, w)
  | .readTocResponse => (.ok m.disc.toc, w)
  | .readCdRawAny lba => (.ok (m.disc.raw lba), w)
  | .readBlocks lba count => (.ok (m.disc.blocks lba count), w.logRead lba count none true)
  | .readCdRaw lba count kind => (.ok (m.disc.raws lba count), w.logRead lba count (some kind) true)
  | .isoRecord src isoPath =>
    (do let iso ← m.openIso (← w.source m.disc src); iso.getRecord isoPath, w)
  | .isoFile src isoPath =>
    (do let iso ← m.openIso (← w.source m.disc src); iso.getFile isoPath, w)

/-- Carry out one operation. -/
def perform (m : Machine) (o : Op) (c : Choice) (w : World) :
    Except PyError o.Answer × World :=
  match c.fault with
  | none => succeed m c w o
  | some e => if o.infallible then succeed m c w o else (.error e, fail o c w)

/-- The handlers that an oracle stands for. -/
def handlers (m : Machine) (σ : Oracle) : ℕ → Handler interface PyError World :=
  fun n w o => perform m o (σ n o) w

/-- Execute a program from the first decision of the oracle on. -/
def execute (m : Machine) (σ : Oracle) {α : Type} (p : Program α) (w : World) :
    Outcome PyError α World :=
  run (handlers m σ) p 0 w

/-- The environment in which exactly the choices `A` can be made. -/
def allowing (m : Machine) (A : Op → Choice → Prop) : Contract interface PyError World where
  may _ _ := True
  answers w o r w' := ∃ c, A o c ∧ perform m o c w = (r, w')

theorem allowing_admits {m : Machine} {A : Op → Choice → Prop} {σ : Oracle}
    (hσ : ∀ n o, A o (σ n o)) : (allowing m A).Admits (handlers m σ) :=
  fun n _ o => ⟨σ n o, hσ n o, rfl⟩

/-- What is guaranteed for a program holds at the end of each of its executions. -/
theorem execute_of_wp {m : Machine} {A : Op → Choice → Prop} {σ : Oracle} {α : Type} {p : Program α}
    {Q : α → World → Prop} {E : PyError → World → Prop} {w : World} (hσ : ∀ n o, A o (σ n o))
    (hp : wp (allowing m A) p Q E w) :
    (∀ a, (execute m σ p w).result = .ok a → Q a (execute m σ p w).world) ∧
      (∀ e, (execute m σ p w).result = .error e → E e (execute m σ p w).world) :=
  run_of_wp (allowing_admits hσ) hp

/-- The steps of an execution. -/
def issued (m : Machine) (σ : Oracle) {α : Type} (p : Program α) (w : World) :
    List (Step interface Choice World) :=
  steps (perform m) σ p 0 w

/-- The clock counts the steps. -/
theorem clock_execute {m : Machine} {σ : Oracle} {α : Type} {p : Program α} {w : World} :
    (execute m σ p w).clock = (issued m σ p w).length :=
  (clock_run (S := interface) (n := 0)).trans (Nat.zero_add _)

/-- The choices that were made at these steps. -/
def made (t : List (Step interface Choice World)) (o : Op) (c : Choice) : Prop :=
  ∃ s ∈ t, s.op = o ∧ s.choice = c

theorem forall_made {t : List (Step interface Choice World)} : ∀ s ∈ t, made t s.op s.choice :=
  fun s hs => ⟨s, hs, rfl, rfl⟩

theorem forall_issued {m : Machine} {A : Op → Choice → Prop} {σ : Oracle} {α : Type} {p : Program α}
    {w : World} (hσ : ∀ n o, A o (σ n o)) : ∀ s ∈ issued m σ p w, A s.op s.choice :=
  forall_steps hσ

/-- Only the choices for the steps of an execution matter. -/
theorem execute_of_wp_issued {m : Machine} {A : Op → Choice → Prop} {σ : Oracle} {α : Type}
    {p : Program α} {Q : α → World → Prop} {E : PyError → World → Prop} {w : World}
    (hσ : ∀ s ∈ issued m σ p w, A s.op s.choice) (hp : wp (allowing m A) p Q E w) :
    (∀ a, (execute m σ p w).result = .ok a → Q a (execute m σ p w).world) ∧
      (∀ e, (execute m σ p w).result = .error e → E e (execute m σ p w).world) :=
  run_of_wp_steps hσ hp

/-- What is guaranteed of the steps of a program holds of those of its executions. -/
theorem execute_of_traced {m : Machine} {σ : Oracle} {α : Type} {p : Program α}
    {Q : α → World → List (Step interface Choice World) → Prop}
    {E : PyError → World → List (Step interface Choice World) → Prop} {w : World}
    (hp : traced (perform m) p Q E w) :
    (∀ a, (execute m σ p w).result = .ok a → Q a (execute m σ p w).world (issued m σ p w)) ∧
      (∀ e, (execute m σ p w).result = .error e →
        E e (execute m σ p w).world (issued m σ p w)) :=
  run_of_traced hp

theorem execute_error_of_wp {m : Machine} {A : Op → Choice → Prop} {σ : Oracle} {α : Type}
    {p : Program α} {E : PyError → World → Prop} {w : World} (hσ : ∀ n o, A o (σ n o))
    (hp : wp (allowing m A) p (fun _ _ => False) E w) :
    ∃ e, (execute m σ p w).result = .error e ∧ E e (execute m σ p w).world :=
  exists_error_of_wp (allowing_admits hσ) hp

/-- What is ensured for a program holds wherever one of its runs returns. -/
theorem of_run_eq_ok {m : Machine} {σ : Oracle} {α : Type} {p : Program α} {Q : α → World → Prop}
    {a : α} {n n' : ℕ} {w w' : World} (hp : ensures (allowing m fun _ _ => True) p Q w)
    (hrun : run (handlers m σ) p n w = ⟨.ok a, w', n'⟩) : Q a w' := by
  have h := (run_of_wp (allowing_admits (σ := σ) fun _ _ => trivial) (n := n) hp).1 a
  rw [hrun] at h
  exact h rfl

theorem allowing_permissive {m : Machine} {A : Op → Choice → Prop} : (allowing m A).Permissive :=
  fun _ _ => trivial

end Ps2Ripper
