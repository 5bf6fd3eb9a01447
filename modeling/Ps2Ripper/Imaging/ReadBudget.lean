import Ps2Ripper.Imaging.Conversion
import Ps2Ripper.Interactive.Record

/-!
# How much is read

The requests of the two rips to a reader of any kind, which may fail at every call and may answer
anything.  The loops are total functions; here is how many requests they make, and of which size.

* `AtPosition`: the requests at one position;
* `Positions`: the requests from one position to another, always forward;
* `wp_readDvd_budget`, `wp_readCd_budget`: the retry loops, by their own recursion;
* `retryLoops_end`: every run of a rip makes finitely many requests, position by position.
-/

namespace Ps2Ripper

open Interactive Prog

structure ReadRequest where
  lba : ℕ
  count : ℕ

/-- The request that an operation makes to the reader. -/
def Op.readRequest : Op → List ReadRequest
  | .readBlocks lba count => [⟨lba, count⟩]
  | .readCdRaw lba count _ => [⟨lba, count⟩]
  | _ => []

/-- An operation with its answer, as a record of the request. -/
def recordRequest (o : Op) (_ : Except PyError o.Answer) : List ReadRequest := o.readRequest

/-- The most requests of a retry loop that has failed `attempts` times and asks for `size`
sectors. -/
def retryBudget (maxRetries size attempts : ℕ) : ℕ :=
    max (Nat.log 2 size) (maxRetries - attempts) + 1

/-- Requests at `lba` that begin with one for `size` sectors and keep to the budget. -/
structure Retried (maxRetries lba size attempts : ℕ) (reads : List ReadRequest) : Prop where
  first : reads.head? = some ⟨lba, size⟩
  budget : reads.length ≤ retryBudget maxRetries size attempts
  inside : ∀ r ∈ reads, r.lba = lba ∧ 1 ≤ r.count ∧ r.count ≤ size

namespace Retried

variable {maxRetries lba size attempts : ℕ} {reads : List ReadRequest}

theorem single (h : 1 ≤ size) : Retried maxRetries lba size attempts [⟨lba, size⟩] := by
  refine ⟨rfl, Nat.le_add_left 1 _, ?_⟩
  intro r hr
  obtain rfl := List.mem_singleton.1 hr
  exact ⟨rfl, h, le_rfl⟩

/-- A halved request costs one from either half of the budget. -/
theorem halved (h : 1 < size) (hr : Retried maxRetries lba (max 1 (size / 2))
    (attempts + 1) reads) :
    Retried maxRetries lba size attempts (⟨lba, size⟩ :: reads) := by
  have hmax : max 1 (size / 2) = size / 2 := by omega
  have hlog : Nat.log 2 size = Nat.log 2 (size / 2) + 1 := Nat.log_of_one_lt_of_le (by omega) h
  have hbudget := hr.budget
  rw [hmax, retryBudget] at hbudget
  refine ⟨rfl, ?_, ?_⟩
  · rw [List.length_cons, retryBudget, hlog]
    omega
  · intro r hmem
    rcases List.mem_cons.1 hmem with rfl | hmem
    · exact ⟨rfl, h.le, le_rfl⟩
    · obtain ⟨h1, h2, h3⟩ := hr.inside r hmem
      exact ⟨h1, h2, by omega⟩

/-- A single sector is tried again as long as there are attempts left. -/
theorem again (h : attempts + 1 ≤ maxRetries)
    (hr : Retried maxRetries lba 1 (attempts + 1) reads) :
    Retried maxRetries lba 1 attempts (⟨lba, 1⟩ :: reads) := by
  have hbudget := hr.budget
  rw [retryBudget, Nat.log_one_right] at hbudget
  refine ⟨rfl, ?_, ?_⟩
  · rw [List.length_cons, retryBudget, Nat.log_one_right]
    omega
  · intro r hmem
    rcases List.mem_cons.1 hmem with rfl | hmem
    · exact ⟨rfl, le_rfl, le_rfl⟩
    · exact hr.inside r hmem

end Retried

/-- The requests at a position before `stop`: the first one is as large as possible, there are no
more than the budget allows, and none of them reaches past `stop`. -/
structure AtPosition (chunk maxRetries stop lba : ℕ) (reads : List ReadRequest) : Prop where
  before : lba < stop
  first : reads.head? = some ⟨lba, min chunk (stop - lba)⟩
  budget : reads.length ≤ max (Nat.log 2 (min chunk (stop - lba))) maxRetries + 1
  inside : ∀ r ∈ reads, r.lba = lba ∧ 1 ≤ r.count ∧ r.count ≤ stop - lba

theorem Retried.atPosition {chunk maxRetries stop lba : ℕ} {reads : List ReadRequest}
    (hlba : lba < stop) (h : Retried maxRetries lba (min chunk (stop - lba)) 0 reads) :
    AtPosition chunk maxRetries stop lba reads := by
  refine ⟨hlba, h.first, h.budget, fun r hr => ?_⟩
  obtain ⟨h1, h2, h3⟩ := h.inside r hr
  exact ⟨h1, h2, h3.trans (min_le_right _ _)⟩

/-- The requests on the way from one position to another: each position that is completed is
followed by a later one that does not pass `stop`. -/
inductive Positions (chunk maxRetries stop : ℕ) : ℕ → ℕ → List ReadRequest → Prop
  | here (lba : ℕ) : Positions chunk maxRetries stop lba lba []
  | next {lba next last : ℕ} {reads rest : List ReadRequest}
      (position : AtPosition chunk maxRetries stop lba reads) (forward : lba < next)
      (inside : next ≤ stop) (later : Positions chunk maxRetries stop next last rest) :
      Positions chunk maxRetries stop lba last (reads ++ rest)

/-- The requests of a loop that may have ended at a position that it did not complete. -/
def Budgeted (chunk maxRetries stop lba : ℕ) (log : List ReadRequest) : Prop :=
  ∃ last completed reads, log = completed ++ reads ∧
    Positions chunk maxRetries stop lba last completed ∧
    (reads = [] ∨ AtPosition chunk maxRetries stop last reads)

section Positions

variable {chunk maxRetries stop lba next last : ℕ} {reads rest log : List ReadRequest}

theorem Budgeted.nil : Budgeted chunk maxRetries stop lba [] :=
  ⟨lba, [], [], rfl, .here lba, Or.inl rfl⟩

theorem AtPosition.budgeted (h : AtPosition chunk maxRetries stop lba reads) :
    Budgeted chunk maxRetries stop lba reads :=
  ⟨lba, [], reads, rfl, .here lba, Or.inr h⟩

theorem Budgeted.after (h : AtPosition chunk maxRetries stop lba reads) (hforward : lba < next)
    (hinside : next ≤ stop) (hrest : Budgeted chunk maxRetries stop next rest) :
    Budgeted chunk maxRetries stop lba (reads ++ rest) := by
  obtain ⟨last, completed, final, rfl, hcompleted, hfinal⟩ := hrest
  exact ⟨last, reads ++ completed, final, (List.append_assoc ..).symm,
    .next h hforward hinside hcompleted, hfinal⟩

theorem Positions.budgeted (h : Positions chunk maxRetries stop lba last log) :
    Budgeted chunk maxRetries stop lba log :=
  ⟨last, log, [], (List.append_nil log).symm, h, Or.inl rfl⟩

theorem AtPosition.length_le (h : AtPosition chunk maxRetries stop lba reads) :
    reads.length ≤ max (Nat.log 2 chunk) maxRetries + 1 := by
  have hlog : Nat.log 2 (min chunk (stop - lba)) ≤ Nat.log 2 chunk :=
    Nat.log_mono_right (min_le_left _ _)
  have hbudget := h.budget
  omega

theorem Positions.le (h : Positions chunk maxRetries stop lba last log) : lba ≤ last := by
  induction h with
  | here lba => exact le_rfl
  | next position forward inside later ih => omega

/-- Each sector that is passed pays for the requests of one position. -/
theorem Positions.length_le (h : Positions chunk maxRetries stop lba last log) :
    log.length ≤ (last - lba) * (max (Nat.log 2 chunk) maxRetries + 1) := by
  induction h with
  | here lba => simp
  | @next lba next last reads rest position forward inside later ih =>
    have hreads := position.length_le
    have hle := later.le
    have hsteps : last - next + 1 ≤ last - lba := by omega
    rw [List.length_append]
    calc reads.length + rest.length
        ≤ (last - next + 1) * (max (Nat.log 2 chunk) maxRetries + 1) := by
          rw [Nat.succ_mul]
          omega
      _ ≤ (last - lba) * (max (Nat.log 2 chunk) maxRetries + 1) := Nat.mul_le_mul_right _ hsteps

theorem Positions.le_stop (h : Positions chunk maxRetries stop lba last log) (hlba : lba ≤ stop) :
    last ≤ stop := by
  induction h with
  | here lba => exact hlba
  | next position forward inside later ih => exact ih inside

theorem Budgeted.length_le (h : Budgeted chunk maxRetries stop lba log) :
    log.length ≤ (stop - lba) * (max (Nat.log 2 chunk) maxRetries + 1) := by
  obtain ⟨last, completed, reads, rfl, hcompleted, hreads⟩ := h
  have hlength := hcompleted.length_le
  have hle := hcompleted.le
  rw [List.length_append]
  rcases hreads with rfl | hreads
  · have hlast : last - lba ≤ stop - lba := by
      cases hcompleted with
      | here => omega
      | next position forward inside later =>
        have := later.le_stop inside
        omega
    exact hlength.trans (Nat.mul_le_mul_right _ hlast)
  · have hbefore := hreads.before
    have hbound := hreads.length_le
    have hsteps : last - lba + 1 ≤ stop - lba := by omega
    calc completed.length + reads.length
        ≤ (last - lba + 1) * (max (Nat.log 2 chunk) maxRetries + 1) := by
          rw [Nat.succ_mul]
          omega
      _ ≤ (stop - lba) * (max (Nat.log 2 chunk) maxRetries + 1) := Nat.mul_le_mul_right _ hsteps

end Positions

/-! ### The loops -/

/-- Every environment, with the requests that were made to it. -/
abbrev requesting (W : Type) : Contract interface PyError (W × List ReadRequest) :=
  Contract.anything.recording recordRequest

/-- The requests of a run. -/
def readRequests {W α : Type} (h : ℕ → Handler interface PyError W) (p : Program α)
    (n : ℕ) (w : W) :
    List ReadRequest :=
  records recordRequest h p n w

variable {W : Type} {s : W × List ReadRequest}

/-- The requests `log` were added. -/
def Requested (s : W × List ReadRequest) (log : List ReadRequest) (s' : W × List ReadRequest) :
    Prop :=
  s'.2 = s.2 ++ log

theorem Requested.trans {s' s'' : W × List ReadRequest} {log log' : List ReadRequest}
    (h : Requested s log s') (h' : Requested s' log' s'') : Requested s (log ++ log') s'' := by
  rw [Requested, h', h, List.append_assoc]

theorem Requested.of_eq {s' s'' : W × List ReadRequest} {log : List ReadRequest}
    (h : Requested s' log s'') (hs : s'.2 = s.2) : Requested s log s'' := by
  rw [Requested, h, hs]

/-- An operation that asks the reader for nothing. -/
def Op.asksNothing (o : Op) : Prop := o.readRequest = []

theorem wp_asksNothing {α : Type} {p : Program α} (h : p.Uses Op.asksNothing) :
    wp (requesting W) p (fun _ s' => s'.2 = s.2) (fun _ s' => s'.2 = s.2) s := by
  have hrecord : ∀ o : Op, o.asksNothing → ∀ r, recordRequest o r = [] := fun _ ho _ => ho
  exact wp_unrecorded hrecord h anything_permissive

theorem call_asksNothing {o : Op} (h : o.readRequest = []) : (call o).Uses Op.asksNothing :=
  uses_perform.2 h

theorem checkpoint_asksNothing : checkpoint.Uses Op.asksNothing :=
  .bind (call_asksNothing rfl) fun _ => .ite (fun _ => trivial) fun _ => trivial

theorem emitProgress_asksNothing {progress : Bool} {snapshot : ProgressSnapshot} :
    (emitProgress progress snapshot).Uses Op.asksNothing :=
  .ite (fun _ => call_asksNothing rfl) fun _ => trivial

theorem ensureTemporarySpace_asksNothing {d : Dir} {n : ℕ} :
    (ensureTemporarySpace d n).Uses Op.asksNothing :=
  .bind (call_asksNothing rfl) fun _ => .bind (call_asksNothing rfl) fun _ =>
    .ite (fun _ => trivial) fun _ => trivial

theorem removeAndRaise_asksNothing {α : Type} {outputs : List Path} {e : PyError} :
    (removeAndRaise outputs e : Program α).Uses Op.asksNothing := by
  induction outputs with
  | nil => trivial
  | cons p rest ih => exact .bind (call_asksNothing rfl) fun _ => ih

theorem eitherExists_asksNothing {a b : Path} : (eitherExists a b).Uses Op.asksNothing :=
  .bind (call_asksNothing rfl) fun _ => .ite (fun _ => trivial) fun _ => call_asksNothing rfl

theorem raiseExisting_asksNothing {α : Type} {a b : Path} :
    (raiseExisting a b : Program α).Uses Op.asksNothing :=
  .bind (call_asksNothing rfl) fun _ => trivial

/-- The retry loop of `rip_dvd_iso`, whatever the reader does. -/
theorem wp_readDvd_budget {maxRetries lba attempts retries : ℕ} {continueDamaged : Bool}
    {size : ChunkSize} :
    wp (requesting W) (readDvd maxRetries continueDamaged lba size attempts retries)
      (fun r s' => r.size ≤ size.1 ∧
        ∃ log, Requested s log s' ∧ Retried maxRetries lba size.1 attempts log)
      (fun _ s' => ∃ log, Requested s log s' ∧ Retried maxRetries lba size.1 attempts log) s := by
  induction size, attempts, retries using readDvd.induct maxRetries generalizing s with
  | case1 size attempts retries halved again =>
    have hpos := size.2
    rw [readDvd]
    refine ⟨trivial, ?_⟩
    rintro r s₁ ⟨-, h₁⟩
    have hread : Requested s [⟨lba, size.1⟩] s₁ := h₁
    clear h₁
    have hsingle : Retried maxRetries lba size.1 attempts [⟨lba, size.1⟩] := .single hpos
    cases r with
    | ok data => exact ⟨le_rfl, _, hread, hsingle⟩
    | error exc =>
      dsimp only
      split
      · split
        · rename_i hlarge
          refine wp_mono (halved hlarge) ?_ ?_
          · rintro r s₂ ⟨hsize, log, h₂, hlog⟩
            exact ⟨by simp only at hsize; omega, _, hread.trans h₂, hlog.halved hlarge⟩
          · rintro e s₂ ⟨log, h₂, hlog⟩
            exact ⟨_, hread.trans h₂, hlog.halved hlarge⟩
        -- A single sector is left, which is read again until the attempts are used up.
        have hone : size.1 = 1 := by omega
        rw [hone] at hread hsingle again
        split
        · rename_i hagain
          refine wp_mono (again hagain) ?_ ?_
          · rintro r s₂ ⟨hsize, log, h₂, hlog⟩
            rw [hone]
            exact ⟨hsize, _, hread.trans h₂, hlog.again hagain⟩
          · rintro e s₂ ⟨log, h₂, hlog⟩
            rw [hone]
            exact ⟨_, hread.trans h₂, hlog.again hagain⟩
        · rw [← hone] at hread hsingle
          split
          · exact ⟨le_rfl, _, hread, hsingle⟩
          · exact ⟨_, hread, hsingle⟩
      · exact ⟨_, hread, hsingle⟩

/-- The retry loop of `rip_cd_bin_cue`, whatever the reader does. -/
theorem wp_readCd_budget {maxRetries lba attempt retries : ℕ} {kind : TrackKind}
    {count : ChunkSize} :
    wp (requesting W) (readCd maxRetries kind lba count attempt retries)
      (fun r s' => r.count ≤ count.1 ∧
        ∃ log, Requested s log s' ∧ Retried maxRetries lba count.1 attempt log)
      (fun _ s' => ∃ log, Requested s log s' ∧ Retried maxRetries lba count.1 attempt log) s := by
  induction count, attempt, retries using readCd.induct maxRetries generalizing s with
  | case1 count attempt retries halved again =>
    have hpos := count.2
    rw [readCd]
    refine ⟨trivial, ?_⟩
    rintro r s₁ ⟨-, h₁⟩
    have hread : Requested s [⟨lba, count.1⟩] s₁ := h₁
    clear h₁
    have hsingle : Retried maxRetries lba count.1 attempt [⟨lba, count.1⟩] := .single hpos
    cases r with
    | ok data => exact ⟨le_rfl, _, hread, hsingle⟩
    | error exc =>
      dsimp only
      split
      · split
        · rename_i hlarge
          refine wp_mono (halved hlarge) ?_ ?_
          · rintro r s₂ ⟨hsize, log, h₂, hlog⟩
            exact ⟨by simp only at hsize; omega, _, hread.trans h₂, hlog.halved hlarge⟩
          · rintro e s₂ ⟨log, h₂, hlog⟩
            exact ⟨_, hread.trans h₂, hlog.halved hlarge⟩
        have hone : count.1 = 1 := by omega
        split
        · exact ⟨_, hread, hsingle⟩
        · rename_i hagain
          rw [hone] at hread again
          refine wp_mono (again hagain) ?_ ?_
          · rintro r s₂ ⟨hsize, log, h₂, hlog⟩
            rw [hone]
            exact ⟨hsize, _, hread.trans h₂, hlog.again (not_lt.1 hagain)⟩
          · rintro e s₂ ⟨log, h₂, hlog⟩
            rw [hone]
            exact ⟨_, hread.trans h₂, hlog.again (not_lt.1 hagain)⟩
      · exact ⟨_, hread, hsingle⟩

section Loops

variable {chunk : ChunkSize} {maxRetries total lba : ℕ} {progress continueDamaged : Bool}
  {path : Path}

/-- The end of a turn: the bytes are written, the progress is reported, and the loop goes on at
`next`. The position counts as completed only if all of it goes through. -/
theorem wp_turn_budget {α : Type} {bound stop next : ℕ} {data : Bytes}
    {snapshot : ProgressSnapshot} {rest : Program α} {log : List ReadRequest}
    {s₀ : W × List ReadRequest} (hlog : Requested s₀ log s)
    (hposition : AtPosition bound maxRetries stop lba log) (hforward : lba < next)
    (hinside : next ≤ stop)
    (hrest : ∀ s', wp (requesting W) rest
      (fun _ s'' => ∃ log, Requested s' log s'' ∧ Positions bound maxRetries stop next stop log)
      (fun _ s'' => ∃ log, Requested s' log s'' ∧ Budgeted bound maxRetries stop next log) s') :
    wp (requesting W) (call (.write path data) >>= fun _ =>
        emitProgress progress snapshot >>= fun _ => rest)
      (fun _ s' => ∃ log, Requested s₀ log s' ∧ Positions bound maxRetries stop lba stop log)
      (fun _ s' => ∃ log, Requested s₀ log s' ∧ Budgeted bound maxRetries stop lba log) s := by
  refine wp_seq (wp_asksNothing (call_asksNothing rfl)) ?_ ?_
  · intro _ s₁ h₁
    refine wp_seq (wp_asksNothing emitProgress_asksNothing) ?_ ?_
    · intro _ s₂ h₂
      refine wp_mono (hrest s₂) ?_ ?_
      · rintro _ s₃ ⟨log', hlog', hrest⟩
        exact ⟨log ++ log', hlog.trans (hlog'.of_eq (h₂.trans h₁)),
          .next hposition hforward hinside hrest⟩
      · rintro _ s₃ ⟨log', hlog', hrest⟩
        exact ⟨log ++ log', hlog.trans (hlog'.of_eq (h₂.trans h₁)),
          .after hposition hforward hinside hrest⟩
    · intro _ s₂ h₂
      exact ⟨log, by rw [Requested, h₂, h₁, hlog], hposition.budgeted⟩
  · intro _ s₁ h₁
    exact ⟨log, by rw [Requested, h₁, hlog], hposition.budgeted⟩

/-- `while lba < total_sectors`, by its own recursion. -/
theorem wp_ripDvdLoop_budget {d : DvdState} (hlba : lba ≤ total) :
    wp (requesting W) (ripDvdLoop path total progress chunk maxRetries continueDamaged lba d)
      (fun _ s' => ∃ log, Requested s log s' ∧ Positions chunk.1 maxRetries total lba total log)
      (fun _ s' => ∃ log, Requested s log s' ∧ Budgeted chunk.1 maxRetries total lba log) s := by
  induction lba, d using ripDvdLoop.induct total chunk generalizing s with
  | case1 lba d hlt ih =>
    rw [ripDvdLoop, dif_pos hlt]
    refine wp_seq (wp_asksNothing checkpoint_asksNothing) ?_ ?_
    · intro _ s₁ h₁
      refine wp_seq wp_readDvd_budget ?_ ?_
      · rintro r s₂ ⟨hsize, log, hlog, hretried⟩
        have hsize : r.size ≤ total - lba := hsize.trans (min_le_right _ _)
        have hpos := r.size_pos
        exact wp_turn_budget (hlog.of_eq h₁) (hretried.atPosition hlt) (by omega) (by omega)
          fun s₃ => ih r (by omega)
      · rintro e s₂ ⟨log, hlog, hretried⟩
        exact ⟨log, hlog.of_eq h₁, (hretried.atPosition hlt).budgeted⟩
    · intro e s₁ h₁
      exact ⟨[], by rw [Requested, h₁, List.append_nil], .nil⟩
  | case2 lba d hge =>
    rw [ripDvdLoop, dif_neg hge]
    obtain rfl : lba = total := by omega
    exact ⟨[], (List.append_nil _).symm, .here lba⟩

/-- `while lba <= track.end_lba`, by its own recursion. -/
theorem wp_ripCdTrack_budget {track : CDTrack} {d : CdState} (hlba : lba ≤ track.endLba + 1) :
    wp (requesting W) (ripCdTrack path total progress chunk maxRetries track lba d)
      (fun _ s' => ∃ log, Requested s log s' ∧
        Positions chunk.1 maxRetries (track.endLba + 1) lba (track.endLba + 1) log)
      (fun _ s' => ∃ log, Requested s log s' ∧
        Budgeted chunk.1 maxRetries (track.endLba + 1) lba log) s := by
  induction lba, d using ripCdTrack.induct chunk track generalizing s with
  | case1 lba d hle ih =>
    rw [ripCdTrack, dif_pos hle]
    have hcount : track.endLba - lba + 1 = track.endLba + 1 - lba := by omega
    have hlt : lba < track.endLba + 1 := by omega
    refine wp_seq (wp_asksNothing checkpoint_asksNothing) ?_ ?_
    · intro _ s₁ h₁
      refine wp_seq wp_readCd_budget ?_ ?_
      · rintro r s₂ ⟨hsize, log, hlog, hretried⟩
        have hsize : r.count ≤ track.endLba - lba + 1 := hsize.trans (min_le_right _ _)
        have hpos := r.count_pos
        simp only [hcount] at hretried
        exact wp_turn_budget (hlog.of_eq h₁) (hretried.atPosition hlt) (by omega) (by omega)
          fun s₃ => ih r (by omega)
      · rintro e s₂ ⟨log, hlog, hretried⟩
        simp only [hcount] at hretried
        exact ⟨log, hlog.of_eq h₁, (hretried.atPosition hlt).budgeted⟩
    · intro e s₁ h₁
      exact ⟨[], by rw [Requested, h₁, List.append_nil], .nil⟩
  | case2 lba d hgt =>
    rw [ripCdTrack, dif_neg hgt]
    obtain rfl : lba = track.endLba + 1 := by omega
    exact ⟨[], (List.append_nil _).symm, .here _⟩

end Loops

/-- The requests for one track after the other; the last of them may not have been completed. -/
def TracksBudgeted (chunk maxRetries : ℕ) : List CDTrack → List ReadRequest → Prop
  | [], log => log = []
  | track :: tracks, log =>
    Budgeted chunk maxRetries (track.endLba + 1) track.startLba log ∨
      ∃ first rest, log = first ++ rest ∧
        Positions chunk maxRetries (track.endLba + 1) track.startLba (track.endLba + 1) first ∧
        TracksBudgeted chunk maxRetries tracks rest

/-- The requests for all of the tracks. -/
def TracksRead (chunk maxRetries : ℕ) : List CDTrack → List ReadRequest → Prop
  | [], log => log = []
  | track :: tracks, log =>
    ∃ first rest, log = first ++ rest ∧
      Positions chunk maxRetries (track.endLba + 1) track.startLba (track.endLba + 1) first ∧
      TracksRead chunk maxRetries tracks rest

theorem TracksBudgeted.nil {chunk maxRetries : ℕ} (tracks : List CDTrack) :
    TracksBudgeted chunk maxRetries tracks [] := by
  cases tracks with
  | nil => rfl
  | cons track tracks => exact Or.inl .nil

theorem TracksRead.budgeted {chunk maxRetries : ℕ} {tracks : List CDTrack}
    {log : List ReadRequest} (h : TracksRead chunk maxRetries tracks log) :
    TracksBudgeted chunk maxRetries tracks log := by
  induction tracks generalizing log with
  | nil => exact h
  | cons track tracks ih =>
    obtain ⟨first, rest, hlog, hfirst, hrest⟩ := h
    exact Or.inr ⟨first, rest, hlog, hfirst, ih hrest⟩

theorem TracksBudgeted.length_le {chunk maxRetries : ℕ} {tracks : List CDTrack}
    {log : List ReadRequest} (h : TracksBudgeted chunk maxRetries tracks log) :
    log.length ≤ (tracks.map fun t => t.endLba + 1 - t.startLba).sum *
      (max (Nat.log 2 chunk) maxRetries + 1) := by
  induction tracks generalizing log with
  | nil =>
    obtain rfl : log = [] := h
    simp
  | cons track tracks ih =>
    rw [List.map_cons, List.sum_cons, Nat.add_mul]
    rcases h with h | ⟨first, rest, rfl, hfirst, hrest⟩
    · exact h.length_le.trans (Nat.le_add_right _ _)
    · rw [List.length_append]
      exact Nat.add_le_add hfirst.length_le (ih hrest)

theorem wp_ripCdTracks_budget {chunk : ChunkSize} {maxRetries total : ℕ} {progress : Bool}
    {path : Path} {tracks : List CDTrack} {d : CdState} :
    wp (requesting W) (ripCdTracks path total progress chunk maxRetries tracks d)
      (fun _ s' => ∃ log, Requested s log s' ∧ TracksRead chunk.1 maxRetries tracks log)
      (fun _ s' => ∃ log, Requested s log s' ∧ TracksBudgeted chunk.1 maxRetries tracks log) s := by
  induction tracks generalizing s d with
  | nil => exact ⟨[], (List.append_nil _).symm, rfl⟩
  | cons track tracks ih =>
    have hstart : track.startLba ≤ track.endLba + 1 := track.start_le_end.trans (Nat.le_succ _)
    refine wp_seq (wp_ripCdTrack_budget hstart) ?_ ?_
    · rintro d' s₁ ⟨first, h₁, hfirst⟩
      refine wp_mono ih ?_ ?_
      · rintro d'' s₂ ⟨rest, h₂, hrest⟩
        exact ⟨first ++ rest, h₁.trans h₂, first, rest, rfl, hfirst, hrest⟩
      · rintro e s₂ ⟨rest, h₂, hrest⟩
        exact ⟨first ++ rest, h₁.trans h₂, Or.inr ⟨first, rest, rfl, hfirst, hrest⟩⟩
    · rintro e s₁ ⟨log, h₁, hlog⟩
      exact ⟨log, h₁, Or.inl hlog⟩

/-! ### The rips -/

/-- A handler that removes the outputs reads nothing. -/
theorem wp_removing {α : Type} {p : Program α} {outputs : List Path}
    {Q E : List ReadRequest → Prop}
    (hp : wp (requesting W) p (fun _ s' => ∃ log, Requested s log s' ∧ Q log)
      (fun _ s' => ∃ log, Requested s log s' ∧ E log) s) :
    wp (requesting W) (p.tryCatch (removeAndRaise outputs))
      (fun _ s' => ∃ log, Requested s log s' ∧ Q log)
      (fun _ s' => ∃ log, Requested s log s' ∧ E log) s := by
  refine wp_tryCatch.2 (wp_mono hp (fun _ _ h => h) ?_)
  rintro e s₁ ⟨log, hlog, hE⟩
  refine wp_mono (wp_of_yields (removeAndRaise_never outputs e)
    (wp_asksNothing removeAndRaise_asksNothing)) (fun _ _ h => h.1.elim) ?_
  intro e' s₂ h₂
  exact ⟨log, by rw [Requested, h₂, hlog], hE⟩

section Rips

variable {ext : Externals} {chunk : ChunkSize} {maxRetries total : ℕ}
  {progress continueDamaged : Bool} {path cuePath : Path} {tracks : List CDTrack}

/-- What is guaranteed of the requests of a program holds of the requests of its runs. -/
theorem readRequests_of_wp {α : Type} {p : Program α} {Q E : List ReadRequest → Prop}
    {h : ℕ → Handler interface PyError W} {n : ℕ} {w : W} (hE : ∀ log, Q log → E log)
    (hp : wp (requesting W) p (fun _ s' => ∃ log, Requested (w, []) log s' ∧ Q log)
      (fun _ s' => ∃ log, Requested (w, []) log s' ∧ E log) (w, [])) :
    E (readRequests h p n w) ∧
      ∀ a, (run h p n w).result = .ok a → Q (readRequests h p n w) := by
  obtain ⟨hok, herror⟩ := records_of_wp (anything_admits h) (n := n) hp
  have hQ : ∀ a, (run h p n w).result = .ok a → Q (readRequests h p n w) := by
    intro a ha
    obtain ⟨log, hlog, hQ⟩ := hok a ha
    have heq : readRequests h p n w = log := hlog
    rwa [heq]
  refine ⟨?_, hQ⟩
  cases hresult : (run h p n w).result with
  | ok a => exact hE _ (hQ a hresult)
  | error e =>
    obtain ⟨log, hlog, hE⟩ := herror e hresult
    have heq : readRequests h p n w = log := hlog
    rwa [heq]

theorem wp_ripDvdBody_budget :
    wp (requesting W) (ripDvdBody path total progress chunk maxRetries continueDamaged)
      (fun _ s' => ∃ log, Requested s log s' ∧ Positions chunk.1 maxRetries total 0 total log)
      (fun _ s' => ∃ log, Requested s log s' ∧ Budgeted chunk.1 maxRetries total 0 log) s := by
  rw [ripDvdBody]
  refine wp_seq (wp_asksNothing (call_asksNothing rfl)) ?_ ?_
  · intro _ s₁ h₁
    refine wp_seq (wp_ripDvdLoop_budget (Nat.zero_le _)) ?_ ?_
    · rintro d s₂ ⟨log, hlog, hpositions⟩
      refine wp_seq (wp_asksNothing (call_asksNothing rfl)) ?_ ?_
      · intro _ s₃ h₃
        exact ⟨log, by rw [Requested, h₃, hlog, h₁], hpositions⟩
      · intro e s₃ h₃
        exact ⟨log, by rw [Requested, h₃, hlog, h₁], hpositions.budgeted⟩
    · rintro e s₂ ⟨log, hlog, hbudget⟩
      exact ⟨log, hlog.of_eq h₁, hbudget⟩
  · intro e s₁ h₁
    exact ⟨[], by rw [Requested, h₁, List.append_nil], .nil⟩

theorem wp_ripDvdIso_budget :
    wp (requesting W) (ripDvdIso ext path total progress chunk maxRetries continueDamaged)
      (fun _ s' => ∃ log, Requested s log s' ∧ Positions chunk.1 maxRetries total 0 total log)
      (fun _ s' => ∃ log, Requested s log s' ∧ Budgeted chunk.1 maxRetries total 0 log) s := by
  have nothing {s' : W × List ReadRequest} (h : s'.2 = s.2) :
      ∃ log, Requested s log s' ∧ Budgeted chunk.1 maxRetries total 0 log :=
    ⟨[], by rw [Requested, h, List.append_nil], .nil⟩
  rw [ripDvdIso]
  refine wp_seq (wp_asksNothing ensureTemporarySpace_asksNothing) ?_ fun _ _ => nothing
  intro _ s₁ h₁
  refine wp_seq (wp_asksNothing (call_asksNothing rfl)) ?_ fun _ _ h => nothing (h.trans h₁)
  intro present s₂ h₂
  have hs : s₂.2 = s.2 := h₂.trans h₁
  split
  · exact nothing hs
  · refine wp_seq (wp_removing wp_ripDvdBody_budget) ?_ ?_
    · rintro d s₃ ⟨log, hlog, hpositions⟩
      refine wp_seq (wp_asksNothing (call_asksNothing rfl)) ?_ ?_
      · intro size s₄ h₄
        exact ⟨log, by rw [Requested, h₄, hlog, hs], hpositions⟩
      · intro e s₄ h₄
        exact ⟨log, by rw [Requested, h₄, hlog, hs], hpositions.budgeted⟩
    · rintro e s₃ ⟨log, hlog, hbudget⟩
      exact ⟨log, hlog.of_eq hs, hbudget⟩

theorem wp_ripCdBody_budget {firstLba : ℕ} :
    wp (requesting W) (ripCdBody path cuePath tracks firstLba total progress chunk maxRetries)
      (fun _ s' => ∃ log, Requested s log s' ∧ TracksRead chunk.1 maxRetries tracks log)
      (fun _ s' => ∃ log, Requested s log s' ∧ TracksBudgeted chunk.1 maxRetries tracks log) s := by
  rw [ripCdBody]
  refine wp_seq (wp_asksNothing (call_asksNothing rfl)) ?_ ?_
  · intro _ s₁ h₁
    refine wp_seq wp_ripCdTracks_budget ?_ ?_
    · rintro d s₂ ⟨log, hlog, hread⟩
      -- The reads are over; the description is written without any.
      have hrest : ∀ s₃ : W × List ReadRequest, s₃.2 = s₂.2 → Requested s log s₃ := by
        intro s₃ h₃
        rw [Requested, h₃, hlog, h₁]
      refine wp_mono (wp_asksNothing (.bind (call_asksNothing rfl) fun _ =>
        .bind (uses_lift _) fun _ => .bind (call_asksNothing rfl) fun _ => trivial)) ?_ ?_
      · intro d' s₃ h₃
        exact ⟨log, hrest s₃ h₃, hread⟩
      · intro e s₃ h₃
        exact ⟨log, hrest s₃ h₃, hread.budgeted⟩
    · rintro e s₂ ⟨log, hlog, hbudget⟩
      exact ⟨log, hlog.of_eq h₁, hbudget⟩
  · intro e s₁ h₁
    exact ⟨[], by rw [Requested, h₁, List.append_nil], .nil tracks⟩

theorem wp_ripCdBinCue_budget :
    wp (requesting W) (ripCdBinCue ext path cuePath tracks progress chunk maxRetries)
      (fun _ s' => ∃ log, Requested s log s' ∧ TracksRead chunk.1 maxRetries tracks log)
      (fun _ s' => ∃ log, Requested s log s' ∧ TracksBudgeted chunk.1 maxRetries tracks log) s := by
  have nothing {s' : W × List ReadRequest} (h : s'.2 = s.2) :
      ∃ log, Requested s log s' ∧ TracksBudgeted chunk.1 maxRetries tracks log :=
    ⟨[], by rw [Requested, h, List.append_nil], .nil tracks⟩
  rw [ripCdBinCue]
  split
  · refine wp_seq (wp_asksNothing ensureTemporarySpace_asksNothing) ?_ fun _ _ => nothing
    intro _ s₁ h₁
    refine wp_seq (wp_asksNothing eitherExists_asksNothing) ?_ fun _ _ h => nothing (h.trans h₁)
    intro present s₂ h₂
    have hs : s₂.2 = s.2 := h₂.trans h₁
    split
    · refine wp_mono (wp_of_yields (raiseExisting_yields (P := fun _ => False))
        (wp_asksNothing raiseExisting_asksNothing))
        (fun _ _ h => h.1.elim) ?_
      exact fun _ _ h => nothing (h.trans hs)
    · refine wp_seq (wp_removing wp_ripCdBody_budget) ?_ ?_
      · rintro d s₃ ⟨log, hlog, hread⟩
        refine wp_seq (wp_asksNothing (call_asksNothing rfl)) ?_ ?_
        · intro size s₄ h₄
          exact ⟨log, by rw [Requested, h₄, hlog, hs], hread⟩
        · intro e s₄ h₄
          exact ⟨log, by rw [Requested, h₄, hlog, hs], hread.budgeted⟩
      · rintro e s₃ ⟨log, hlog, hbudget⟩
        exact ⟨log, hlog.of_eq hs, hbudget⟩
  · exact nothing rfl

end Rips

/-- **The retry loops end**, whatever every operation of the run is answered.  A rip makes its
requests position by position: at each of them no more than its budget, each for at least one sector
and for none past the end, and the next position is a later one that does not pass the end.  A rip
that returns has completed every position, and the requests of any rip are bounded. -/
theorem retryLoops_end (ext : Externals) (h : ℕ → Handler interface PyError W) (n : ℕ) (w : W)
    (path cuePath : Path) (total : ℕ) (tracks : List CDTrack) (progress continueDamaged : Bool)
    (chunk : ChunkSize) (maxRetries : ℕ) :
    let dvd := ripDvdIso ext path total progress chunk maxRetries continueDamaged
    let cd := ripCdBinCue ext path cuePath tracks progress chunk maxRetries
    let budget := max (Nat.log 2 chunk.1) maxRetries + 1
    (Budgeted chunk.1 maxRetries total 0 (readRequests h dvd n w) ∧
      (readRequests h dvd n w).length ≤ total * budget ∧
      ∀ image, (run h dvd n w).result = .ok image →
        Positions chunk.1 maxRetries total 0 total (readRequests h dvd n w)) ∧
    (TracksBudgeted chunk.1 maxRetries tracks (readRequests h cd n w) ∧
      (readRequests h cd n w).length ≤
        (tracks.map fun track => track.endLba + 1 - track.startLba).sum * budget ∧
      ∀ image, (run h cd n w).result = .ok image →
        TracksRead chunk.1 maxRetries tracks (readRequests h cd n w)) := by
  intro dvd cd budget
  constructor
  · obtain ⟨hbudget, hread⟩ := readRequests_of_wp (h := h) (n := n) (w := w) (p := dvd)
      (fun _ => Positions.budgeted) wp_ripDvdIso_budget
    exact ⟨hbudget, hbudget.length_le, hread⟩
  · obtain ⟨hbudget, hread⟩ := readRequests_of_wp (h := h) (n := n) (w := w) (p := cd)
      (fun _ => TracksRead.budgeted) wp_ripCdBinCue_budget
    exact ⟨hbudget, hbudget.length_le, hread⟩

end Ps2Ripper
