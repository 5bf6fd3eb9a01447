import Ps2Ripper.Core.Models

/-!
# Cancellation

`CancellationToken` of `core/cancellation.py`.  A worker runs code that passes checkpoints and
enters critical sections, nested in any way; another thread may call `request()` before any of its
steps.

* `CancellationToken`, `Schedule`: the token, and when requests arrive;
* `TokenCode`, `execute`: code under a token, and its run with the log of what happened to the
  token;
* `Event.Good`, `execute_spec`: what every checkpoint and every section does;
* `protects_iff`: sections are never broken and requests never lost; the exception of a protected
  body survives unless the checkpoint at the exit of its section finds a request.
-/

namespace Ps2Ripper

/-- `_requested` and `_critical_depth`, with the number of steps that the worker has taken. -/
structure CancellationToken where
  requested : Bool := false
  criticalDepth : ℤ := 0
  clock : ℕ := 0

/-- Whether `request()` is called just before a step of the worker, and what the worker learns from
everything else that it looks at. -/
structure Schedule where
  request : ℕ → Bool
  answer : ℕ → ℕ

/-- Code that runs under a token; it may catch what a checkpoint or a section raises. -/
inductive TokenCode
  | done
  | raise (e : PyError)
  | act (k : ℕ → TokenCode)
  | checkpoint (k : Except PyError Unit → TokenCode)
  | criticalSection (checkpointOnExit : Bool) (body : TokenCode)
      (k : Except PyError Unit → TokenCode)

namespace CancellationToken

def cancelled : PyError := .cancelledError "Operation cancelled."

variable (σ : Schedule) (t : CancellationToken)

/-- The token as the next step of the worker finds it. -/
def tick : CancellationToken :=
  { t with requested := t.requested || σ.request t.clock, clock := t.clock + 1 }

/-- `checkpoint()`: `is_requested` first, then `in_critical_section`. -/
def checkpoint : Except PyError Unit × CancellationToken :=
  let t := t.tick σ
  if t.requested then
    let t := t.tick σ
    if 0 < t.criticalDepth then (.ok (), t) else (.error cancelled, t)
  else (.ok (), t)

def enter : CancellationToken :=
  let t := t.tick σ
  { t with criticalDepth := t.criticalDepth + 1 }

def leave : CancellationToken :=
  let t := t.tick σ
  { t with criticalDepth := t.criticalDepth - 1 }

/-- What happens to the token: a new depth, a checkpoint, a section that is left.  `level` is the
number of sections around it. -/
inductive Event
  | depth (d : ℤ)
  | checkpoint (level : ℕ) (start : CancellationToken) (outcome : Except PyError Unit)
  | block (level : ℕ) (before : CancellationToken) (checkpointOnExit : Bool)
      (body : Except PyError Unit) (left : CancellationToken) (outcome : Except PyError Unit)
      (after : CancellationToken)

structure Run where
  outcome : Except PyError Unit
  token : CancellationToken
  log : List Event

/-- The end of the `finally` clause, after the depth was restored. -/
def finish (level : ℕ) (checkpointOnExit : Bool) (body : Except PyError Unit) : Run :=
  if checkpointOnExit then
    match t.checkpoint σ with
    | (.ok (), after) => ⟨body, after, [.checkpoint level t (.ok ())]⟩
    | (.error e, after) => ⟨.error e, after, [.checkpoint level t (.error e)]⟩
  else ⟨body, t, []⟩

def execute (level : ℕ) : TokenCode → CancellationToken → Run
  | .done, t => ⟨.ok (), t, []⟩
  | .raise e, t => ⟨.error e, t, []⟩
  | .act k, t => execute level (k (σ.answer t.clock)) (t.tick σ)
  | .checkpoint k, t =>
    let (outcome, after) := t.checkpoint σ
    let rest := execute level (k outcome) after
    { rest with log := .checkpoint level t outcome :: rest.log }
  | .criticalSection checkpointOnExit body k, t =>
    let inside := execute (level + 1) body (t.enter σ)
    let left := inside.token.leave σ
    let exit := left.finish σ level checkpointOnExit inside.outcome
    let rest := execute level (k exit.outcome) exit.token
    { rest with
      log := [.depth (t.enter σ).criticalDepth] ++ inside.log ++ [.depth left.criticalDepth] ++
        exit.log ++
        [.block level t checkpointOnExit inside.outcome left exit.outcome exit.token] ++ rest.log }

end CancellationToken

/-- A request was made before step `n + 1` of a worker that started with a fresh token. -/
def Schedule.requestedBy (σ : Schedule) (n : ℕ) : Prop := ∃ k ≤ n, σ.request k = true

namespace CancellationToken

/-- The token inside `level` sections: the depth counts them, and no request has been lost. -/
structure Reached (σ : Schedule) (level : ℕ) (t : CancellationToken) : Prop where
  depth : t.criticalDepth = level
  requested : t.requested = true ↔ ∃ k < t.clock, σ.request k = true

/-- What every checkpoint and every section does. -/
def Event.Good (σ : Schedule) : Event → Prop
  | .depth d => 0 ≤ d
  | .checkpoint level start outcome =>
    (0 < level → outcome = .ok ()) ∧
      (level = 0 → σ.requestedBy start.clock → outcome = .error cancelled)
  | .block level before checkpointOnExit body left outcome after =>
    after.criticalDepth = before.criticalDepth ∧
      (checkpointOnExit = true ∧ level = 0 ∧ σ.requestedBy left.clock →
        outcome = .error cancelled) ∧
      (¬(checkpointOnExit = true ∧ level = 0 ∧ σ.requestedBy left.clock) → outcome = body)

variable {σ : Schedule} {level : ℕ} {t : CancellationToken}

theorem reached_fresh (σ : Schedule) : Reached σ 0 {} := by
  constructor <;> simp

theorem Reached.tick (h : Reached σ level t) : Reached σ level (t.tick σ) := by
  refine ⟨h.depth, ?_⟩
  simp only [CancellationToken.tick, Bool.or_eq_true, h.requested, Nat.lt_succ_iff]
  constructor
  · rintro (⟨k, hk, hr⟩ | hr)
    · exact ⟨k, hk.le, hr⟩
    · exact ⟨t.clock, le_rfl, hr⟩
  · rintro ⟨k, hk, hr⟩
    rcases hk.lt_or_eq with hk | rfl
    · exact Or.inl ⟨k, hk, hr⟩
    · exact Or.inr hr

theorem Reached.requestedBy_iff (h : Reached σ level t) :
    (t.tick σ).requested = true ↔ σ.requestedBy t.clock := by
  rw [h.tick.requested]
  simp only [CancellationToken.tick, Schedule.requestedBy, Nat.lt_succ_iff]

theorem Reached.enter (h : Reached σ level t) : Reached σ (level + 1) (t.enter σ) := by
  refine ⟨?_, h.tick.requested⟩
  simp [CancellationToken.enter, CancellationToken.tick, h.depth]

theorem Reached.leave (h : Reached σ (level + 1) t) : Reached σ level (t.leave σ) := by
  refine ⟨?_, h.tick.requested⟩
  simp [CancellationToken.leave, CancellationToken.tick, h.depth]

/-- A checkpoint raises exactly outside of all sections, once a request was made. -/
theorem Reached.checkpoint (h : Reached σ level t) :
    Reached σ level (t.checkpoint σ).2 ∧
      (level = 0 ∧ σ.requestedBy t.clock → (t.checkpoint σ).1 = .error cancelled) ∧
      (¬(level = 0 ∧ σ.requestedBy t.clock) → (t.checkpoint σ).1 = .ok ()) := by
  have hrequested := h.requestedBy_iff
  have hdepth := h.tick.tick.depth
  unfold CancellationToken.checkpoint
  by_cases hr : (t.tick σ).requested = true
  · by_cases hlevel : level = 0
    · subst hlevel
      simp [hr, hdepth, ← hrequested, h.tick.tick]
    · have : 0 < level := by omega
      simp [hr, hdepth, this, hlevel, h.tick.tick]
  · simp [hr, ← hrequested, h.tick]

/-- The end of the `finally` clause replaces the outcome of the body only by its own checkpoint. -/
theorem Reached.finish (h : Reached σ level t) (checkpointOnExit : Bool)
    (body : Except PyError Unit) :
    Reached σ level (t.finish σ level checkpointOnExit body).token ∧
      (∀ e ∈ (t.finish σ level checkpointOnExit body).log, e.Good σ) ∧
      (checkpointOnExit = true ∧ level = 0 ∧ σ.requestedBy t.clock →
        (t.finish σ level checkpointOnExit body).outcome = .error cancelled) ∧
      (¬(checkpointOnExit = true ∧ level = 0 ∧ σ.requestedBy t.clock) →
        (t.finish σ level checkpointOnExit body).outcome = body) := by
  obtain ⟨hreached, hraises, hpasses⟩ := h.checkpoint
  unfold CancellationToken.finish
  by_cases hexit : checkpointOnExit = true
  · by_cases hr : level = 0 ∧ σ.requestedBy t.clock
    · have hout := hraises hr
      rcases hc : t.checkpoint σ with ⟨outcome, after⟩
      rw [hc] at hout hreached
      obtain rfl : outcome = .error cancelled := hout
      obtain ⟨rfl, hr⟩ := hr
      simp [hexit, hr, show Reached σ 0 after from hreached, Event.Good]
    · have hout := hpasses hr
      rcases hc : t.checkpoint σ with ⟨outcome, after⟩
      rw [hc] at hout hreached
      obtain rfl : outcome = .ok () := hout
      refine ⟨by simpa [hexit] using hreached, ?_, fun h' => absurd h'.2 hr, by simp [hexit]⟩
      intro e he
      obtain rfl : e = .checkpoint level t (.ok ()) := by simpa [hexit] using he
      exact ⟨fun _ => rfl, fun h0 hr' => absurd ⟨h0, hr'⟩ hr⟩
  · simp [hexit, h]

/-- The step from the bodies to the sections around them, over all code: the token comes back at the
depth where it was, and every event is good. -/
theorem execute_spec (code : TokenCode) :
    ∀ {level : ℕ} {t : CancellationToken}, Reached σ level t →
      Reached σ level (execute σ level code t).token ∧
        ∀ e ∈ (execute σ level code t).log, e.Good σ := by
  induction code with
  | done =>
    intro level t h
    exact ⟨h, by simp [execute]⟩
  | raise e =>
    intro level t h
    exact ⟨h, by simp [execute]⟩
  | act k ih =>
    intro level t h
    exact ih _ h.tick
  | checkpoint k ih =>
    intro level t h
    obtain ⟨hreached, hraises, hpasses⟩ := h.checkpoint
    obtain ⟨hend, hrest⟩ := ih (t.checkpoint σ).1 hreached
    refine ⟨hend, ?_⟩
    intro e he
    rcases List.mem_cons.1 he with rfl | he
    · exact ⟨fun hl => hpasses (by omega), fun h0 hr => hraises ⟨h0, hr⟩⟩
    · exact hrest e he
  | criticalSection checkpointOnExit body k ihbody ihk =>
    intro level t h
    -- The body runs one level deeper, the rest of the code at the level of the section.
    obtain ⟨hinside, hbody⟩ := ihbody h.enter
    have hleft := hinside.leave
    obtain ⟨hexit, hlog, hraises, hkept⟩ :=
      hleft.finish checkpointOnExit (execute σ (level + 1) body (t.enter σ)).outcome
    obtain ⟨hend, hrest⟩ := ihk _ hexit
    refine ⟨hend, ?_⟩
    intro e he
    simp only [execute, List.mem_append, List.mem_singleton] at he
    rcases he with ((((rfl | he) | rfl) | he) | rfl) | he
    · show (0 : ℤ) ≤ _
      rw [h.enter.depth]
      positivity
    · exact hbody e he
    · show (0 : ℤ) ≤ _
      rw [hleft.depth]
      positivity
    · exact hlog e he
    · exact ⟨hexit.depth.trans h.depth.symm, hraises, hkept⟩
    · exact hrest e he

/-- Sections are never broken, requests never lost, and the exception of a protected body never
replaced. -/
structure Run.Protects (σ : Schedule) (run : Run) : Prop where
  unbroken : ∀ level start outcome, .checkpoint level start outcome ∈ run.log → 0 < level →
    outcome = .ok ()
  depth_restored : ∀ level before checkpointOnExit body left outcome after,
    .block level before checkpointOnExit body left outcome after ∈ run.log →
      after.criticalDepth = before.criticalDepth
  depth_nonneg : ∀ d, .depth d ∈ run.log → 0 ≤ d
  not_lost : ∀ start outcome, .checkpoint 0 start outcome ∈ run.log →
    σ.requestedBy start.clock → outcome = .error cancelled
  kept : ∀ level before checkpointOnExit e left outcome after,
    .block level before checkpointOnExit (.error e) left outcome after ∈ run.log →
      outcome = .error e

/-- Whenever an outermost section with a checkpoint at its exit is left by another exception than
the one of a checkpoint, there is no request by then. -/
def Run.NoneMasked (σ : Schedule) (run : Run) : Prop :=
  ∀ before e left outcome after,
    .block 0 before true (.error e) left outcome after ∈ run.log → σ.requestedBy left.clock →
      e = cancelled

/-- **A critical section is never broken and a request never lost, for any nesting, exceptions and
requests; an exception of the protected body is hidden exactly if a request is pending when the
outermost section with a checkpoint at its exit is left.** -/
theorem protects_iff (σ : Schedule) (code : TokenCode) :
    (execute σ 0 code {}).Protects σ ↔ (execute σ 0 code {}).NoneMasked σ := by
  have hgood := (execute_spec code (reached_fresh σ)).2
  constructor
  · intro h before e left outcome after hmem hr
    have hkept := h.kept _ _ _ _ _ _ _ hmem
    have hraised := (hgood _ hmem).2.1 ⟨rfl, rfl, hr⟩
    rw [hkept] at hraised
    exact Except.error.inj hraised
  · intro h
    constructor
    · intro level start outcome hmem
      exact (hgood _ hmem).1
    · intro level before checkpointOnExit body left outcome after hmem
      exact (hgood _ hmem).1
    · intro d hmem
      exact hgood _ hmem
    · intro start outcome hmem
      exact (hgood _ hmem).2 rfl
    · intro level before checkpointOnExit e left outcome after hmem
      by_cases hr : checkpointOnExit = true ∧ level = 0 ∧ σ.requestedBy left.clock
      · obtain ⟨rfl, rfl, hr'⟩ := hr
        -- the checkpoint at the exit raised what the body had raised
        rw [(hgood _ hmem).2.1 ⟨rfl, rfl, hr'⟩, h _ _ _ _ _ hmem hr']
      · exact (hgood _ hmem).2.2 hr

/-- A protected body that fails while the user cancels. -/
def failingBody : TokenCode :=
  .criticalSection true (.raise (.osError "The write failed.")) fun
    | .ok () => .done
    | .error e => .raise e

/-- **The `finally` clause hides the failure of the body behind `CancelledError`.** -/
theorem not_protects :
    ¬(execute ⟨fun _ => true, id⟩ 0 failingBody {}).Protects ⟨fun _ => true, id⟩ := by
  intro h
  have hmem : Event.block 0 {} true (.error (.osError "The write failed.")) ⟨true, 0, 2⟩
      (.error cancelled) ⟨true, 0, 4⟩ ∈ (execute ⟨fun _ => true, id⟩ 0 failingBody {}).log := by
    simp [execute, failingBody, finish, checkpoint, enter, leave, tick]
  simpa [cancelled] using h.kept _ _ _ _ _ _ _ hmem

end CancellationToken

end Ps2Ripper
