import Ps2Ripper.Core.Models

/-!
# The raw disk stream

`RawDiskStream` of `windows/raw_disk.py`.  The stream caches a position; the handle has the real
one.

* `RawDisk`, `DiskState`: the disk, the cached and the real position, and what was transferred;
* `DiskState.apply`, `AlwaysOnDisk`: the calls, with the reply of the device to each of them;
* `staysInStep_iff`: cached and real position agree in the runs in which no failing call and no
  short write moves the file pointer.
-/

namespace Ps2Ripper

/-- The size is that of a `LARGE_INTEGER`. -/
structure RawDisk where
  size : ℕ
  sectorSize : ℕ
  size_lt : size < 2 ^ 63

/-- A transfer: the position that `tell()` reported, where it really started, and its bytes. -/
structure Transfer where
  told : ℕ
  start : ℕ
  bytes : Bytes

/-- The cached position, the file pointer of the handle, the bytes on the disk, and what was
transferred so far. -/
structure DiskState where
  position : ℕ
  pointer : ℕ
  content : ℕ → UInt8
  reads : List Transfer
  writes : List Transfer

/-- The reply to a native call: how many bytes it transfers at most, and whether it fails. -/
structure DeviceReply where
  transferred : ℕ
  failure : Option (ℕ × String)

inductive DiskCall
  | seek (offset whence : ℤ)
  | tell
  | read (size : ℤ)
  | write (data : Bytes)

/-- A count as the `DWORD` that is passed on. -/
def dword (n : ℕ) : ℕ := n % 2 ^ 32

/-- The stream of a handle that has just been opened. -/
def DiskState.new (content : ℕ → UInt8) : DiskState := ⟨0, 0, content, [], []⟩

namespace DiskState

variable (d : RawDisk) (s : DiskState)

def seekTarget (offset whence : ℤ) : ℤ :=
  if whence = 0 then offset
  else if whence = 1 then s.position + offset
  else d.size + offset

def seek (offset whence : ℤ) (reply : DeviceReply) : Except PyError Unit × DiskState :=
  let target := s.seekTarget d offset whence
  if target < 0 ∨ d.size < target then (.error (.valueError "Raw disk seek is out of range"), s)
  else
    match reply.failure with
    | some (code, message) =>
      (.error (nativeCallError "SetFilePointerEx(raw disk)" code message), s)
    | none => (.ok (), { s with position := target.toNat, pointer := target.toNat })

/-- `self.position % self.sector_size or count % self.sector_size`, as an error. -/
def checkAligned (count : ℕ) (message : String) : Except PyError Unit :=
  if d.sectorSize = 0 then .error (.otherError "integer modulo by zero")
  else if s.position % d.sectorSize ≠ 0 ∨ count % d.sectorSize ≠ 0 then .error (.valueError message)
  else .ok ()

/-- What `read` checks before it calls `ReadFile`. -/
def checkRead (size : ℤ) : Except PyError Unit :=
  if size < 0 ∨ (d.size : ℤ) < s.position + size then
    .error (.valueError "Raw disk read is out of range")
  else s.checkAligned d size.toNat "Raw disk reads must be sector aligned"

/-- What `write` checks before it calls `WriteFile`. -/
def checkWrite (payload : Bytes) : Except PyError Unit := do
  s.checkAligned d payload.length "Raw disk writes must be sector aligned"
  if d.size < s.position + payload.length then .error (.valueError "Raw disk write is out of range")

/-- The bytes that `ReadFile` puts into the buffer. -/
def readBytes (size : ℕ) (reply : DeviceReply) : Bytes :=
  (List.range (min reply.transferred (dword size))).map fun i => s.content (s.pointer + i)

/-- The bytes that `WriteFile` stores. -/
def writtenBytes (payload : Bytes) (reply : DeviceReply) : Bytes :=
  payload.take (min reply.transferred (dword payload.length))

/-- The disk after bytes were stored at the file pointer. -/
def store (bytes : Bytes) : ℕ → UInt8 := fun i =>
  if s.pointer ≤ i then bytes.getD (i - s.pointer) (s.content i) else s.content i

/-- `ReadFile` was called: the handle moves by what was transferred. -/
def readFile (bytes : Bytes) : DiskState :=
  { s with
    pointer := s.pointer + bytes.length
    reads := s.reads ++ [⟨s.position, s.pointer, bytes⟩] }

/-- `WriteFile` was called: the handle moves by what was stored. -/
def writeFile (bytes : Bytes) : DiskState :=
  { s with
    pointer := s.pointer + bytes.length
    content := s.store bytes
    writes := s.writes ++ [⟨s.position, s.pointer, bytes⟩] }

def read (size : ℤ) (reply : DeviceReply) : Except PyError Bytes × DiskState :=
  match s.checkRead d size with
  | .error e => (.error e, s)
  | .ok _ =>
    let bytes := s.readBytes size.toNat reply
    match reply.failure with
    | some (code, message) =>
      (.error (nativeCallError "ReadFile(raw disk)" code message), s.readFile bytes)
    | none => (.ok bytes, { s.readFile bytes with position := s.position + bytes.length })

def write (payload : Bytes) (reply : DeviceReply) : Except PyError Unit × DiskState :=
  match s.checkWrite d payload with
  | .error e => (.error e, s)
  | .ok _ =>
    let bytes := writtenBytes payload reply
    match reply.failure with
    | some (code, message) =>
      (.error (nativeCallError "WriteFile(raw disk)" code message), s.writeFile bytes)
    | none =>
      if bytes.length ≠ payload.length then
        (.error (.osError "Raw disk returned a short write"), s.writeFile bytes)
      else (.ok (), { s.writeFile bytes with position := s.position + bytes.length })

def tell : ℕ := s.position

/-- The state that a call leaves, whether it returns or raises. -/
def apply (call : DiskCall) (reply : DeviceReply) : DiskState :=
  match call with
  | .seek offset whence => (s.seek d offset whence reply).2
  | .tell => s
  | .read size => (s.read d size reply).2
  | .write payload => (s.write d payload reply).2

end DiskState

/-- What holds in every state of a run. -/
def AlwaysOnDisk (d : RawDisk) (P : DiskState → Prop) :
    List (DiskCall × DeviceReply) → DiskState → Prop
  | [], s => P s
  | (call, reply) :: calls, s => P s ∧ AlwaysOnDisk d P calls (s.apply d call reply)

/-- A transfer starts on a sector boundary, where `tell()` said, and stays inside the disk. -/
structure Transfer.Inside (d : RawDisk) (t : Transfer) : Prop where
  start : t.start = t.told
  aligned : d.sectorSize ∣ t.start
  inside : t.start + t.bytes.length ≤ d.size

/-- The stream is in step with its handle and inside the disk. -/
structure InStep (d : RawDisk) (s : DiskState) : Prop where
  position : s.position = s.pointer
  transfers : ∀ t ∈ s.reads ++ s.writes, t.Inside d

/-- The reply of the device to a transfer moves the file pointer only with the cached position:
nothing is transferred, or the call succeeds and, for a write, transfers everything. Nothing is
asked of the reply to a transfer that the stream refuses. -/
def KeepsInStep (d : RawDisk) (s : DiskState) (reply : DeviceReply) : DiskCall → Prop
  | .seek .. | .tell => True
  | .read size => s.checkRead d size = .ok () →
      min reply.transferred (dword size.toNat) = 0 ∨ reply.failure = none
  | .write payload => s.checkWrite d payload = .ok () →
      min reply.transferred (dword payload.length) = 0 ∨
        reply.failure = none ∧ payload.length ≤ min reply.transferred (dword payload.length)

/-- All replies of a run are of this kind. -/
def AllKeepInStep (d : RawDisk) : List (DiskCall × DeviceReply) → DiskState → Prop
  | [], _ => True
  | (call, reply) :: calls, s => KeepsInStep d s reply call ∧
      AllKeepInStep d calls (s.apply d call reply)

variable {d : RawDisk} {s : DiskState} {reply : DeviceReply}

theorem dword_le (n : ℕ) : dword n ≤ n := Nat.mod_le ..

namespace DiskState

@[simp] theorem length_readBytes (size : ℕ) :
    (s.readBytes size reply).length = min reply.transferred (dword size) := by
  simp [readBytes]

@[simp] theorem length_writtenBytes (payload : Bytes) :
    (writtenBytes payload reply).length = min reply.transferred (dword payload.length) := by
  have := dword_le payload.length
  rw [writtenBytes, List.length_take]
  omega

theorem dvd_of_checkAligned {count : ℕ} {message : String}
    (h : s.checkAligned d count message = .ok ()) : d.sectorSize ∣ s.position := by
  unfold checkAligned at h
  split at h
  · cases h
  split at h
  · cases h
  exact Nat.dvd_of_mod_eq_zero (by tauto)

theorem of_checkRead {size : ℤ} (h : s.checkRead d size = .ok ()) :
    d.sectorSize ∣ s.position ∧ s.position + size.toNat ≤ d.size := by
  unfold checkRead at h
  split at h
  · cases h
  exact ⟨dvd_of_checkAligned h, by omega⟩

theorem of_checkWrite {payload : Bytes} (h : s.checkWrite d payload = .ok ()) :
    d.sectorSize ∣ s.position ∧ s.position + payload.length ≤ d.size := by
  unfold checkWrite at h
  cases ha : s.checkAligned d payload.length "Raw disk writes must be sector aligned" with
  | error e =>
    rw [ha] at h
    cases h
  | ok =>
    rw [ha] at h
    refine ⟨dvd_of_checkAligned ha, ?_⟩
    by_contra hlt
    rw [Nat.not_le] at hlt
    exact absurd ((if_pos hlt).symm.trans h) nofun

end DiskState

/-- A transfer from a state in step, within the bounds that were checked. -/
theorem InStep.inside (h : InStep d s) {bytes : Bytes} (haligned : d.sectorSize ∣ s.position)
    (hsize : s.position + bytes.length ≤ d.size) :
    Transfer.Inside d ⟨s.position, s.pointer, bytes⟩ :=
  ⟨h.position.symm, h.position ▸ haligned, h.position ▸ hsize⟩

/-- After a read the stream is in step if the file pointer is where the position is. -/
theorem InStep.readFile_iff (h : InStep d s) {bytes : Bytes} (haligned : d.sectorSize ∣ s.position)
    (hsize : s.position + bytes.length ≤ d.size) (position : ℕ) :
    InStep d { s.readFile bytes with position } ↔ position = s.position + bytes.length := by
  constructor
  · intro h'
    exact h'.position.trans (congrArg (· + bytes.length) h.position.symm)
  · rintro rfl
    refine ⟨congrArg (· + bytes.length) h.position, fun t ht => ?_⟩
    have ht' : t ∈ (s.reads ++ [⟨s.position, s.pointer, bytes⟩]) ++ s.writes := ht
    obtain ht' | ht' := List.mem_append.1 ht'
    · obtain ht' | ht' := List.mem_append.1 ht'
      · exact h.transfers t (List.mem_append_left _ ht')
      · obtain rfl := List.mem_singleton.1 ht'
        exact h.inside haligned hsize
    · exact h.transfers t (List.mem_append_right _ ht')

theorem InStep.writeFile_iff (h : InStep d s) {bytes : Bytes} (haligned : d.sectorSize ∣ s.position)
    (hsize : s.position + bytes.length ≤ d.size) (position : ℕ) :
    InStep d { s.writeFile bytes with position } ↔ position = s.position + bytes.length := by
  constructor
  · intro h'
    exact h'.position.trans (congrArg (· + bytes.length) h.position.symm)
  · rintro rfl
    refine ⟨congrArg (· + bytes.length) h.position, fun t ht => ?_⟩
    have ht' : t ∈ s.reads ++ (s.writes ++ [⟨s.position, s.pointer, bytes⟩]) := ht
    rw [← List.append_assoc] at ht'
    obtain ht' | ht' := List.mem_append.1 ht'
    · exact h.transfers t ht'
    · obtain rfl := List.mem_singleton.1 ht'
      exact h.inside haligned hsize

/-- One call keeps the stream in step exactly when the reply of the device does. -/
theorem inStep_apply_iff (h : InStep d s) (call : DiskCall) :
    InStep d (s.apply d call reply) ↔ KeepsInStep d s reply call := by
  cases call with
  | seek offset whence =>
    refine iff_of_true ?_ trivial
    show InStep d (s.seek d offset whence reply).2
    unfold DiskState.seek
    dsimp only
    split_ifs
    · exact h
    · cases reply.failure with
      | none => exact ⟨rfl, h.transfers⟩
      | some failure => exact h
  | tell => exact iff_of_true h trivial
  | read size =>
    show InStep d (s.read d size reply).2 ↔ (s.checkRead d size = .ok () → _)
    unfold DiskState.read
    cases hcheck : s.checkRead d size with
    | error e => exact iff_of_true h nofun
    | ok =>
      obtain ⟨haligned, hsize⟩ := DiskState.of_checkRead hcheck
      have hlen : s.position + (s.readBytes size.toNat reply).length ≤ d.size := by
        rw [DiskState.length_readBytes]
        have := dword_le size.toNat
        omega
      rw [← DiskState.length_readBytes (s := s)]
      cases hfailure : reply.failure with
      | none => exact iff_of_true ((h.readFile_iff haligned hlen _).2 rfl) fun _ => .inr rfl
      | some failure =>
        refine (h.readFile_iff haligned hlen s.position).trans ?_
        simp
  | write payload =>
    show InStep d (s.write d payload reply).2 ↔ (s.checkWrite d payload = .ok () → _)
    unfold DiskState.write
    cases hcheck : s.checkWrite d payload with
    | error e => exact iff_of_true h nofun
    | ok =>
      obtain ⟨haligned, hsize⟩ := DiskState.of_checkWrite hcheck
      have hle : (DiskState.writtenBytes payload reply).length ≤ payload.length := by
        rw [DiskState.length_writtenBytes]
        have := dword_le payload.length
        omega
      rw [← DiskState.length_writtenBytes]
      have hlen := (Nat.add_le_add_left hle s.position).trans hsize
      cases hfailure : reply.failure with
      | none =>
        dsimp only
        by_cases hshort : (DiskState.writtenBytes payload reply).length = payload.length
        · rw [if_neg (not_not.2 hshort)]
          exact iff_of_true ((h.writeFile_iff haligned hlen _).2 rfl) fun _ => .inr ⟨rfl, hshort.ge⟩
        · -- a short write raises before the position is moved
          rw [if_pos hshort]
          refine (h.writeFile_iff haligned hlen s.position).trans ?_
          simp only [forall_const, true_and]
          omega
      | some failure =>
        refine (h.writeFile_iff haligned hlen s.position).trans ?_
        simp

/-- **The raw disk stream.** Over a run the stream stays in step with its handle and inside the disk
exactly when no reply to a transfer moves the file pointer alone. -/
theorem staysInStep_iff (d : RawDisk) (content : ℕ → UInt8)
    (calls : List (DiskCall × DeviceReply)) :
    AlwaysOnDisk d (InStep d) calls (.new content) ↔ AllKeepInStep d calls (.new content) := by
  have hrun : ∀ calls s, InStep d s →
    (AlwaysOnDisk d (InStep d) calls s ↔ AllKeepInStep d calls s) := by
    intro calls
    induction calls with
    | nil => exact fun s h => iff_of_true h trivial
    | cons call calls ih =>
      intro s h
      obtain ⟨call, reply⟩ := call
      have hstep : InStep d (s.apply d call reply) ↔ _ := inStep_apply_iff h call
      refine ⟨fun ⟨_, halways⟩ => ?_, fun ⟨hkeeps, hall⟩ => ⟨h, (ih _ (hstep.2 hkeeps)).2 hall⟩⟩
      have hnext : InStep d (s.apply d call reply) := by
        cases calls with
        | nil => exact halways
        | cons => exact halways.1
      exact ⟨hstep.1 hnext, (ih _ hnext).1 halways⟩
  exact hrun calls _ ⟨rfl, by simp [DiskState.new]⟩

/-- A disk of two sectors; both are written, and one of them is stored. -/
def twoSectors : RawDisk := ⟨1024, 512, by norm_num⟩

def twoEmptySectors : Bytes := List.replicate 1024 0

theorem length_twoEmptySectors : twoEmptySectors.length = 1024 := List.length_replicate

theorem not_staysInStep :
    ¬ ∀ (d : RawDisk) (content : ℕ → UInt8) (calls : List (DiskCall × DeviceReply)),
      AlwaysOnDisk d (InStep d) calls (.new content) := by
  intro h
  obtain ⟨hinit, hshort⟩ := h twoSectors (fun _ => 0) [(.write twoEmptySectors, ⟨512, none⟩)]
  have hcheck : (DiskState.new fun _ => 0).checkWrite twoSectors twoEmptySectors = .ok () := by
    simp [DiskState.checkWrite, DiskState.checkAligned, length_twoEmptySectors, twoSectors,
      DiskState.new]
  obtain hnone | ⟨-, hall⟩ := (inStep_apply_iff hinit _).1 hshort hcheck
  · rw [length_twoEmptySectors] at hnone
    exact absurd hnone (by decide)
  · rw [length_twoEmptySectors] at hall
    exact absurd hall (by decide)

end Ps2Ripper
