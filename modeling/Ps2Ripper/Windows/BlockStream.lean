import Ps2Ripper.Core.Returns

/-!
# The optical block stream

`OpticalBlockStream` of `windows/optical_api.py`, the file through which `pycdlib` looks at a disc.
An operation that raises is answered by the exception and the stream it leaves.

* `OpticalBlockStream`, `runStream`: the stream and sequences of its operations;
* `flatApply`: the same operations on a byte array, `Disc.flat`;
* `stream_faithful`: the stream answers like the byte array.
-/

namespace Ps2Ripper

open Interactive Prog

/-- The position never passes the end; `seek` and `read` keep it there. -/
structure OpticalBlockStream where
  sectors : ℕ
  dataTrack : Option CDTrack
  position : ℕ
  position_le : position ≤ sectors * 2048

namespace OpticalBlockStream

/-- `OpticalBlockStream(device, sectors, data_track)`. -/
def new (sectors : ℕ) (dataTrack : Option CDTrack) : OpticalBlockStream where
  sectors := match dataTrack with
    | none => sectors
    | some track => track.endLba - track.startLba + 1
  dataTrack
  position := 0
  position_le := Nat.zero_le _

def seek (s : OpticalBlockStream) (offset whence : ℤ) : Except PyError ℕ × OpticalBlockStream :=
  let target : ℤ :=
    if whence = 0 then offset
    else if whence = 1 then s.position + offset
    else s.sectors * 2048 + offset
  if target < 0 then (.error (.valueError "negative seek"), s)
  else
    let position := min target.toNat (s.sectors * 2048)
    (.ok position, { s with position, position_le := min_le_right .. })

def tell (s : OpticalBlockStream) : ℕ := s.position

/-- The number of bytes that `read(size)` asks for. -/
def clampSize (s : OpticalBlockStream) (size : ℤ) : ℕ :=
  let remaining := s.sectors * 2048 - s.position
  if size < 0 ∨ (remaining : ℤ) < size then remaining else size.toNat

theorem clampSize_le (s : OpticalBlockStream) (size : ℤ) :
    s.clampSize size ≤ s.sectors * 2048 - s.position := by
  unfold clampSize
  dsimp only
  split <;> omega

/-- `b"".join(extract_2048_user_data(raw[offset : offset + 2352]) for offset in range(0, len(raw),
2352))`. -/
def joinUserData (raw : Bytes) : Except PyError Bytes :=
  if _h : raw = [] then .ok []
  else do
    let data ← extract2048UserData (raw.take 2352)
    let rest ← joinUserData (raw.drop 2352)
    return data ++ rest
termination_by raw.length
decreasing_by
  have := List.length_pos_iff.2 ‹_›
  simp only [List.length_drop]
  omega

/-- The user data of `count` sectors of the stream. -/
def readSectors (s : OpticalBlockStream) (firstSector count : ℕ) : Program Bytes :=
  match s.dataTrack with
  | none => call (.readBlocks firstSector count)
  | some track => do
    let raw ← call (.readCdRaw (track.startLba + firstSector) count track.kind)
    Prog.lift (joinUserData raw)

/-- `self.position += len(result)`. -/
def advance (s : OpticalBlockStream) (result : Bytes)
    (h : result.length ≤ s.sectors * 2048 - s.position) : OpticalBlockStream :=
  { s with
    position := s.position + result.length
    position_le := by
      have := s.position_le
      omega }

/-- A step whose exception becomes its answer. -/
def attempt {α : Type} (p : Program α) : Program (Except PyError α) :=
  (p >>= fun a => return .ok a).tryCatch fun e => return .error e

theorem length_slice_le (data : Bytes) (i n : ℕ) : (slice data i (i + n)).length ≤ n := by
  simp only [slice, List.length_drop, List.length_take]
  omega

def read (s : OpticalBlockStream) (size : ℤ) :
    Program (Except PyError Bytes × OpticalBlockStream) :=
  let n := s.clampSize size
  if n = 0 then return (.ok [], s)
  else do
    let firstSector := s.position / 2048
    let intra := s.position % 2048
    let count := (intra + n + 2047) / 2048
    let outcome ← attempt (s.readSectors firstSector count)
    match outcome with
    | .error e => return (.error e, s)
    | .ok data =>
      let result := slice data intra (intra + n)
      return (.ok result, s.advance result ((length_slice_le ..).trans (s.clampSize_le size)))

end OpticalBlockStream

/-! ### Sequences of operations -/

inductive StreamOp
  | seek (offset whence : ℤ)
  | tell
  | read (size : ℤ)

/-- What an operation returns. -/
inductive Reply
  | position (n : ℕ)
  | data (bytes : Bytes)

def OpticalBlockStream.apply (s : OpticalBlockStream) :
    StreamOp → Program (Except PyError Reply × OpticalBlockStream)
  | .seek offset whence =>
    let (r, s) := s.seek offset whence
    return (r.map .position, s)
  | .tell => return (.ok (.position s.tell), s)
  | .read size => do
    let (r, s) ← s.read size
    return (r.map .data, s)

/-- The answers of a sequence of operations, and the stream they leave. -/
def runStream : List StreamOp → OpticalBlockStream →
    Program (List (Except PyError Reply) × OpticalBlockStream)
  | [], s => return ([], s)
  | op :: ops, s => do
    let (r, s) ← s.apply op
    let (rs, s) ← runStream ops s
    return (r :: rs, s)

/-! ### The byte array -/

/-- An operation on a byte array with a position that stays inside it. -/
def flatApply (content : Bytes) : StreamOp → ℕ → Except PyError Reply × ℕ
  | .seek offset whence, p =>
    let target : ℤ :=
      if whence = 0 then offset else if whence = 1 then p + offset else content.length + offset
    if target < 0 then (.error (.valueError "negative seek"), p)
    else (.ok (.position (min target.toNat content.length)), min target.toNat content.length)
  | .tell, p => (.ok (.position p), p)
  | .read size, p =>
    let n := if size < 0 then content.length - p else min size.toNat (content.length - p)
    (.ok (.data (slice content p (p + n))), p + n)

/-- The user data of a raw sector, if it can be represented, and otherwise anything of its size. -/
def Disc.userSector (d : Disc) (lba : ℕ) : Bytes :=
  match extract2048UserData (d.raw lba) with
  | .ok data => data
  | .error _ => List.replicate 2048 0

/-- The byte array that the stream presents. -/
def Disc.flat (d : Disc) (sectors : ℕ) : Option CDTrack → Bytes
  | none => d.blocks 0 sectors
  | some track => (List.range' track.startLba track.sectors).flatMap d.userSector

/-- A sector holds one of the `n` bytes from `p` on. -/
def Touches (p n i : ℕ) : Prop := 0 < n ∧ p < (i + 1) * 2048 ∧ i * 2048 < p + n

/-- The `i`-th sector of the stream has no user data, for the reason `e`. -/
def Unrepresentable (d : Disc) (dataTrack : Option CDTrack) (i : ℕ) (e : PyError) : Prop :=
  ∃ track, dataTrack = some track ∧ extract2048UserData (d.raw (track.startLba + i)) = .error e

/-- The device can fail with this exception. -/
def DeviceFails (A : Op → Choice → Prop) (e : PyError) : Prop :=
  ∃ lba count c, (A (.readBlocks lba count) c ∨ ∃ kind, A (.readCdRaw lba count kind) c) ∧
    c.fault = some e

/-- An operation at the position `p` is answered as on the byte array, or it is a read that fails
and leaves the position where it was. -/
inductive Answers (A : Op → Choice → Prop) (d : Disc) (sectors : ℕ) (dataTrack : Option CDTrack)
    (p : ℕ) : StreamOp → Except PyError Reply → ℕ → Prop
  | same {op r p'} (h : flatApply (d.flat sectors dataTrack) op p = (r, p'))
    (hall : ∀ size, op = .read size → ∀ i, Touches p (p' - p) i →
      ∀ e, ¬ Unrepresentable d dataTrack i e) : Answers A d sectors dataTrack p op r p'
  | failed {size e r p'} (h : flatApply (d.flat sectors dataTrack) (.read size) p = (r, p'))
    (hfail : DeviceFails A e ∨ ∃ i, Touches p (p' - p) i ∧ Unrepresentable d dataTrack i e) :
    Answers A d sectors dataTrack p (.read size) (.error e) p

/-- A sequence of operations is answered in this way, one after the other. -/
inductive AnswersAll (A : Op → Choice → Prop) (d : Disc) (sectors : ℕ)
    (dataTrack : Option CDTrack) :
    ℕ → List StreamOp → List (Except PyError Reply) → ℕ → Prop
  | nil {p} : AnswersAll A d sectors dataTrack p [] [] p
  | cons {p p' p'' op ops r rs} (h : Answers A d sectors dataTrack p op r p')
    (hrest : AnswersAll A d sectors dataTrack p' ops rs p'') :
    AnswersAll A d sectors dataTrack p (op :: ops) (r :: rs) p''

/-- A read of sectors of the stream: of the first `sectors` blocks, or inside the track. -/
def InStream (sectors : ℕ) : Option CDTrack → ReadCall → Prop
  | none, c => c.kind = none ∧ 0 < c.count ∧ c.lba + c.count ≤ sectors
  | some track, c => c.kind = some track.kind ∧ 0 < c.count ∧ track.startLba ≤ c.lba ∧
      c.lba + c.count ≤ track.endLba + 1

variable {m : Machine} {A : Op → Choice → Prop} {w : World}

/-! ### Sectors of one size -/

/-- A part of some of the sectors is a part of all of them. -/
theorem slice_sectors {f : ℕ → Bytes} (hf : ∀ n, (f n).length = 2048) {base first count n i j : ℕ}
    (h : first + count ≤ n) (hj : j ≤ count * 2048) :
    slice ((List.range' (base + first) count).flatMap f) i j =
      slice ((List.range' base n).flatMap f) (first * 2048 + i) (first * 2048 + j) := by
  have hlen : ∀ lba k, ((List.range' lba k).flatMap f).length = k * 2048 := fun lba k => by
    simp [List.length_flatMap, hf]
  have hsplit : n = first + (count + (n - first - count)) := by omega
  rw [hsplit, ← List.range'_append_1, List.flatMap_append, ← List.range'_append_1,
    List.flatMap_append, slice, slice, ← hlen base first, List.take_length_add_append,
    List.drop_length_add_append, List.take_append_of_le_length (by rw [hlen]; exact hj)]

theorem Disc.length_userSector (d : Disc) (lba : ℕ) : (d.userSector lba).length = 2048 := by
  unfold Disc.userSector
  split
  · exact length_of_extract2048UserData ‹_›
  · exact List.length_replicate

theorem Disc.length_flat (d : Disc) (sectors : ℕ) (dataTrack : Option CDTrack) :
    (d.flat sectors dataTrack).length =
      (OpticalBlockStream.new sectors dataTrack).sectors * 2048 := by
  cases dataTrack with
  | none => exact d.length_blocks 0 sectors
  | some track => simp [Disc.flat, List.length_flatMap, d.length_userSector, OpticalBlockStream.new,
      CDTrack.sectors]

theorem joinUserData_cons {sector rest : Bytes} (h : sector.length = 2352) :
    OpticalBlockStream.joinUserData (sector ++ rest) =
      extract2048UserData sector >>= fun data =>
        OpticalBlockStream.joinUserData rest >>= fun others => .ok (data ++ others) := by
  have hne : sector ++ rest ≠ [] := by
    rintro heq
    simp [List.append_eq_nil_iff.1 heq] at h
  rw [OpticalBlockStream.joinUserData, dif_neg hne, ← h, List.take_left, List.drop_left]
  rfl

/-- Raw sectors are joined when all of them have user data, and otherwise one of them is to
blame. -/
theorem joinUserData_raws (d : Disc) (lba count : ℕ) :
    (OpticalBlockStream.joinUserData (d.raws lba count) =
        .ok ((List.range' lba count).flatMap d.userSector) ∧
      ∀ i < count, ∀ e, extract2048UserData (d.raw (lba + i)) ≠ .error e) ∨
    ∃ e, OpticalBlockStream.joinUserData (d.raws lba count) = .error e ∧
      ∃ i < count, extract2048UserData (d.raw (lba + i)) = .error e := by
  induction count generalizing lba with
  | zero =>
    refine .inl ⟨?_, by omega⟩
    rw [OpticalBlockStream.joinUserData]
    simp [Disc.raws]
  | succ count ih =>
    rw [Disc.raws_succ, joinUserData_cons (d.raw_length lba)]
    cases hx : extract2048UserData (d.raw lba) with
    | error e => exact .inr ⟨e, rfl, 0, by omega, hx⟩
    | ok data =>
      have hdata : d.userSector lba = data := by rw [Disc.userSector, hx]
      obtain ⟨hjoin, hall⟩ | ⟨e, hjoin, i, hi, he⟩ := ih (lba + 1)
      · refine .inl ⟨?_, fun i hi e he => ?_⟩
        · rw [hjoin, List.range'_succ, List.flatMap_cons, hdata]
          rfl
        · cases i with
          | zero =>
            rw [Nat.add_zero, hx] at he
            cases he
          | succ i => exact hall i (by omega) e (by rwa [Nat.add_assoc, Nat.add_comm 1])
      · refine .inr ⟨e, ?_, i + 1, by omega, by rwa [Nat.add_assoc, Nat.add_comm 1] at he⟩
        rw [hjoin]
        rfl

/-! ### Reading from the device -/

theorem wp_attempt {α : Type} {p : Program α} {Q : α → World → Prop} {E : PyError → World → Prop}
    (h : wp (allowing m A) p Q E w) :
    wp (allowing m A) (OpticalBlockStream.attempt p)
      (fun r w' => (∀ a, r = .ok a → Q a w') ∧ ∀ e, r = .error e → E e w')
      (fun _ _ => False) w := by
  refine wp_tryCatch.2 (wp_bind.2 (wp_mono h (fun a w' hQ => ?_) fun e w' hE => ?_))
  · exact ⟨fun _ h => by cases h; exact hQ, nofun⟩
  · exact ⟨nofun, fun _ h => by cases h; exact hE⟩

/-- Some reads were sent, all of them for sectors of the stream. -/
def ReadsInside (sectors : ℕ) (dataTrack : Option CDTrack) (w w' : World) : Prop :=
  ∃ log, w'.reads = w.reads ++ log ∧ ∀ c ∈ log, InStream sectors dataTrack c

theorem ReadsInside.refl {sectors : ℕ} {dataTrack : Option CDTrack} :
    ReadsInside sectors dataTrack w w := ⟨[], by simp, by simp⟩

theorem ReadsInside.trans {sectors : ℕ} {dataTrack : Option CDTrack} {w' w'' : World}
    (h : ReadsInside sectors dataTrack w w') (h' : ReadsInside sectors dataTrack w' w'') :
    ReadsInside sectors dataTrack w w'' := by
  obtain ⟨log, hlog, hin⟩ := h
  obtain ⟨log', hlog', hin'⟩ := h'
  refine ⟨log ++ log', by rw [hlog', hlog, List.append_assoc], fun c hc => ?_⟩
  exact (List.mem_append.1 hc).elim (hin c) (hin' c)

/-- A stream of a disc: all of it or a data track. -/
structure Presents (sectors : ℕ) (dataTrack : Option CDTrack) (s : OpticalBlockStream) : Prop where
  sectors : s.sectors = (OpticalBlockStream.new sectors dataTrack).sectors
  dataTrack : s.dataTrack = dataTrack

/-- The bytes of sectors of the stream, as a part of the byte array. -/
def IsPart (d : Disc) (sectors : ℕ) (dataTrack : Option CDTrack) (first count : ℕ) (data : Bytes) :
    Prop :=
  ∀ i j, j ≤ count * 2048 →
    slice data i j = slice (d.flat sectors dataTrack) (first * 2048 + i) (first * 2048 + j)

variable {sectors : ℕ} {dataTrack : Option CDTrack} {s : OpticalBlockStream}

theorem wp_readSectors (hs : Presents sectors dataTrack s) {first count : ℕ} (hcount : 0 < count)
    (hend : first + count ≤ s.sectors) :
    wp (allowing m A) (s.readSectors first count)
      (fun data w' => ReadsInside sectors dataTrack w w' ∧
        IsPart m.disc sectors dataTrack first count data ∧
        ∀ i, first ≤ i → i < first + count → ∀ e, ¬ Unrepresentable m.disc dataTrack i e)
      (fun e w' => ReadsInside sectors dataTrack w w' ∧ (DeviceFails A e ∨
        ∃ i, first ≤ i ∧ i < first + count ∧ Unrepresentable m.disc dataTrack i e)) w := by
  rw [hs.sectors] at hend
  unfold OpticalBlockStream.readSectors
  rw [hs.dataTrack]
  -- Without a track the sectors are read as they are; with one the user data is taken from raw
  -- sectors.
  cases dataTrack with
  | none =>
    have hin : ∀ ok, ReadsInside sectors none w (w.logRead first count none ok) := fun ok =>
      ⟨[⟨first, count, none, ok⟩], rfl, by simpa [InStream] using ⟨hcount, hend⟩⟩
    refine wp_call_iff.2 fun c hc => ⟨fun data w' h => ?_, fun e w' h => ?_⟩
    · obtain ⟨rfl, rfl⟩ := perform_readBlocks_ok h
      refine ⟨hin true, fun i j hj => ?_, fun _ _ _ _ ⟨track, htrack, _⟩ => by cases htrack⟩
      have hpart : slice (m.disc.blocks (0 + first) count) i j =
          slice (m.disc.blocks 0 sectors) (first * 2048 + i) (first * 2048 + j) :=
        slice_sectors m.disc.block_length hend hj
      rwa [Nat.zero_add] at hpart
    · refine ⟨perform_readBlocks_error h ▸ hin false, .inl ⟨first, count, c, .inl hc, ?_⟩⟩
      obtain h | ⟨hfault, -, -⟩ := cases_of_perform_error h
      · cases h
      · exact hfault
  | some track =>
    have hle := track.start_le_end
    have hsectors : (OpticalBlockStream.new sectors (some track)).sectors = track.sectors := rfl
    rw [hsectors, CDTrack.sectors] at hend
    have hin : ∀ ok, ReadsInside sectors (some track) w
        (w.logRead (track.startLba + first) count (some track.kind) ok) := fun ok => by
      refine ⟨[⟨track.startLba + first, count, some track.kind, ok⟩], rfl, ?_⟩
      simp only [List.mem_singleton, forall_eq, InStream, true_and]
      omega
    refine wp_bind.2 (wp_call_iff.2 fun c hc => ⟨fun raw w' h => ?_, fun e w' h => ?_⟩)
    · obtain ⟨rfl, rfl⟩ := perform_readCdRaw_ok h
      obtain ⟨hjoin, hall⟩ | ⟨e, hjoin, i, hi, he⟩ :=
        joinUserData_raws m.disc (track.startLba + first) count
      · rw [hjoin]
        refine ⟨hin true, fun i j hj => ?_, ?_⟩
        · exact slice_sectors m.disc.length_userSector (by rw [CDTrack.sectors]; omega) hj
        · rintro i hi hi' e ⟨track', ⟨⟩, he⟩
          refine hall (i - first) (by omega) e ?_
          rwa [Nat.add_assoc, Nat.add_sub_cancel' hi]
      · rw [hjoin]
        refine ⟨hin true, .inr ⟨first + i, by omega, by omega, track, rfl, ?_⟩⟩
        rwa [← Nat.add_assoc]
    · refine ⟨perform_readCdRaw_error h ▸ hin false,
        .inl ⟨track.startLba + first, count, c, .inr ⟨_, hc⟩, ?_⟩⟩
      obtain h | ⟨hfault, -, -⟩ := cases_of_perform_error h
      · cases h
      · exact hfault

/-! ### One operation and a sequence of them -/

theorem flatApply_read (content : Bytes) (size : ℤ) (p : ℕ) :
    flatApply content (.read size) p =
      let n := if size < 0 then content.length - p else min size.toNat (content.length - p)
      (.ok (.data (slice content p (p + n))), p + n) := rfl

theorem clampSize_eq (hs : Presents sectors dataTrack s) (d : Disc) (size : ℤ) :
    s.clampSize size = if size < 0 then (d.flat sectors dataTrack).length - s.position
      else min size.toNat ((d.flat sectors dataTrack).length - s.position) := by
  rw [d.length_flat, ← hs.sectors]
  unfold OpticalBlockStream.clampSize
  dsimp only
  split_ifs <;> omega

theorem flatApply_seek {content : Bytes} (h : content.length = s.sectors * 2048)
    (offset whence : ℤ) :
    flatApply content (.seek offset whence) s.position =
      ((s.seek offset whence).1.map .position, (s.seek offset whence).2.position) := by
  have hlen : (content.length : ℤ) = s.sectors * 2048 := by omega
  unfold flatApply OpticalBlockStream.seek
  dsimp only
  rw [hlen, h]
  split_ifs <;> rfl

theorem presents_seek (hs : Presents sectors dataTrack s) (offset whence : ℤ) :
    Presents sectors dataTrack (s.seek offset whence).2 := by
  unfold OpticalBlockStream.seek
  dsimp only
  split_ifs <;> exact ⟨hs.sectors, hs.dataTrack⟩

/-- The bytes that `read` takes from its sectors are those at the position. -/
theorem slice_of_isPart {d : Disc} {data : Bytes} {n : ℕ}
    (h : IsPart d sectors dataTrack (s.position / 2048) ((s.position % 2048 + n + 2047) / 2048)
      data) :
    slice data (s.position % 2048) (s.position % 2048 + n) =
      slice (d.flat sectors dataTrack) s.position (s.position + n) := by
  have hpos := Nat.div_add_mod' s.position 2048
  rw [h _ _ (by omega), ← Nat.add_assoc, hpos]

/-- Every operation answers as on the byte array, or is a read that fails. -/
theorem wp_apply (hs : Presents sectors dataTrack s) (op : StreamOp) :
    wp (allowing m A) (s.apply op)
      (fun x w' => Answers A m.disc sectors dataTrack s.position op x.1 x.2.position ∧
        Presents sectors dataTrack x.2 ∧ ReadsInside sectors dataTrack w w')
      (fun _ _ => False) w := by
  have hlength : (m.disc.flat sectors dataTrack).length = s.sectors * 2048 := by
    rw [m.disc.length_flat, hs.sectors]
  cases op with
  | seek offset whence =>
    exact ⟨.same (flatApply_seek hlength offset whence) nofun, presents_seek hs offset whence,
      .refl⟩
  | tell => exact ⟨.same rfl nofun, hs, .refl⟩
  | read size =>
    have hflat := flatApply_read (m.disc.flat sectors dataTrack) size s.position
    dsimp only at hflat
    rw [← clampSize_eq hs] at hflat
    have hle := s.clampSize_le size
    have hposition := s.position_le
    refine wp_bind.2 ?_
    unfold OpticalBlockStream.read
    dsimp only
    by_cases h0 : s.clampSize size = 0
    · rw [if_pos h0]
      rw [h0] at hflat
      refine ⟨.same (hflat.trans ?_) fun size' _ i ht => ?_, hs, .refl⟩
      · simp [slice, Except.map]
      · exact absurd ht.1 (by simp)
    · rw [if_neg h0]
      refine wp_seq (wp_attempt (wp_readSectors hs (by omega) (by omega))) ?_ fun _ _ => id
      rintro (e | data) w' ⟨hok, herr⟩
      · obtain ⟨hreads, hfail⟩ := herr e rfl
        refine ⟨.failed hflat (hfail.imp_right ?_), hs, hreads⟩
        rintro ⟨i, hi, hi', hbad⟩
        exact ⟨i, ⟨by omega, by omega, by omega⟩, hbad⟩
      · obtain ⟨hreads, hpart, hgood⟩ := hok data rfl
        have hslice := slice_of_isPart hpart
        -- The sectors that cover the range were read, and what is cut out of them has the length
        -- asked for.
        have hlen : (slice data (s.position % 2048)
            (s.position % 2048 + s.clampSize size)).length = s.clampSize size := by
          rw [hslice, slice, List.length_drop, List.length_take, hlength]
          omega
        refine ⟨.same (hflat.trans ?_) fun _ _ i ht e => ?_, ⟨hs.sectors, hs.dataTrack⟩, hreads⟩
        · rw [← hslice]
          exact Prod.ext rfl (congrArg (s.position + ·) hlen.symm)
        · obtain ⟨-, hlow, hhigh⟩ := ht
          have hposition' : (s.advance (slice data (s.position % 2048)
              (s.position % 2048 + s.clampSize size))
                ((OpticalBlockStream.length_slice_le ..).trans hle)).position =
              s.position + s.clampSize size := congrArg (s.position + ·) hlen
          have hhigh' := hposition' ▸ hhigh
          exact hgood i (by omega) (by omega) e

/-- A sequence of operations answers as on the byte array. -/
theorem wp_runStream (hs : Presents sectors dataTrack s) (ops : List StreamOp) :
    wp (allowing m A) (runStream ops s)
      (fun x w' => AnswersAll A m.disc sectors dataTrack s.position ops x.1 x.2.position ∧
        ReadsInside sectors dataTrack w w') (fun _ _ => False) w := by
  induction ops generalizing s w with
  | nil => exact ⟨.nil, .refl⟩
  | cons op ops ih =>
    refine wp_seq (wp_apply hs op) ?_ fun _ _ => id
    rintro ⟨r, s'⟩ w₁ ⟨hanswer, hs', hreads⟩
    refine wp_seq (ih hs') ?_ fun _ _ => id
    rintro ⟨rs, s''⟩ w₂ ⟨hrest, hreads'⟩
    exact ⟨.cons hanswer hrest, hreads.trans hreads'⟩

/-- **The stream is a faithful read-only file.** Whatever the device does, a sequence of operations
is answered as on the byte array, or by a failed read that keeps the position; only sectors of the
stream are read. -/
theorem stream_faithful {σ : Oracle} (sectors : ℕ) (dataTrack : Option CDTrack)
    (ops : List StreamOp) :
    ∃ replies s,
      (execute m σ (runStream ops (.new sectors dataTrack)) w).result = .ok (replies, s) ∧
      AnswersAll σ.choices m.disc sectors dataTrack 0 ops replies s.position ∧
      ReadsInside sectors dataTrack w
        (execute m σ (runStream ops (.new sectors dataTrack)) w).world := by
  have hs : Presents sectors dataTrack (.new sectors dataTrack) := ⟨rfl, rfl⟩
  obtain ⟨⟨replies, s⟩, hresult, hall, hreads⟩ := exists_ok_of_wp (n := 0)
    (allowing_admits (A := σ.choices) (σ := σ) fun n o => ⟨n, rfl⟩) (wp_runStream (w := w) hs ops)
  exact ⟨replies, s, hresult, hall, hreads⟩

end Ps2Ripper
