import Ps2Ripper.Interactive.Program

/-!
# Contracts and weakest preconditions

A `Contract` over worlds `W` says which operations may be issued and how each of them can be
answered.  `wp c p Q E w` says that `p`, started in `w`, issues only operations that `c` allows and
ends with `Q` when it returns and with `E` when it raises, whatever answers the environment picks.

* the rules of the calculus: `wp_bind`, `wp_tryCatch`, `wp_tryFinally`, `wp_mono`, `wp_and`;
* `run`: execution against one concrete sequence of handlers, how it passes through the parts of a
  program (`run_bind_of_ok`, …), and `run_of_wp`, its soundness.
-/

namespace Interactive

variable {S : Signature} {ε α β W : Type}

/-- What a program may ask for, and what can come back. -/
structure Contract (S : Signature) (ε W : Type) where
  may : W → S.Op → Prop
  answers : W → (o : S.Op) → Except ε (S.Answer o) → W → Prop

/-- The outcomes `Q` and `E` are guaranteed for `p` started in `w`. -/
def wp (c : Contract S ε W) : Prog S ε α → (α → W → Prop) → (ε → W → Prop) → W → Prop
  | .pure a, Q, _, w => Q a w
  | .raise e, _, E, w => E e w
  | .call o k, Q, E, w => c.may w o ∧ ∀ r w', c.answers w o r w' → wp c (k r) Q E w'

section Rules

variable {c d : Contract S ε W} {Q Q' : α → W → Prop} {E E' : ε → W → Prop} {w : W}

@[simp] theorem wp_pure (a : α) : wp c (.pure a) Q E w ↔ Q a w := Iff.rfl

@[simp] theorem wp_return (a : α) : wp c (Pure.pure a : Prog S ε α) Q E w ↔ Q a w := Iff.rfl

@[simp] theorem wp_raise (e : ε) : wp c (.raise e) Q E w ↔ E e w := Iff.rfl

theorem wp_call (o : S.Op) (k : Except ε (S.Answer o) → Prog S ε α) :
    wp c (.call o k) Q E w ↔ c.may w o ∧ ∀ r w', c.answers w o r w' → wp c (k r) Q E w' := Iff.rfl

theorem wp_lift (x : Except ε α) :
    wp c (Prog.lift x) Q E w ↔ (∀ a, x = .ok a → Q a w) ∧ (∀ e, x = .error e → E e w) := by
  cases x <;> simp

theorem wp_bind {p : Prog S ε α} {f : α → Prog S ε β} {Q : β → W → Prop} :
    wp c (p >>= f) Q E w ↔ wp c p (fun a w' => wp c (f a) Q E w') E w := by
  induction p generalizing w with
  | pure a => rfl
  | raise e => rfl
  | call o k ih =>
    rw [Prog.call_bind, wp_call, wp_call]
    exact and_congr_right fun _ => forall₃_congr fun r w' _ => ih r

theorem wp_tryCatch {p : Prog S ε α} {h : ε → Prog S ε α} :
    wp c (p.tryCatch h) Q E w ↔ wp c p Q (fun e w' => wp c (h e) Q E w') w := by
  induction p generalizing w with
  | pure a => rfl
  | raise e => rfl
  | call o k ih => exact and_congr_right fun _ => forall₃_congr fun r w' _ => ih r

theorem wp_tryFinally {p : Prog S ε α} {f : Prog S ε Unit} :
    wp c (p.tryFinally f) Q E w ↔
      wp c p (fun a w' => wp c f (fun _ => Q a) E w') (fun e w' => wp c f (fun _ => E e) E w')
      w := by
  induction p generalizing w with
  | pure a => exact wp_bind
  | raise e => exact wp_bind
  | call o k ih => exact and_congr_right fun _ => forall₃_congr fun r w' _ => ih r

theorem wp_perform {o : S.Op} {Q : S.Answer o → W → Prop} :
    wp c (Prog.perform o) Q E w ↔ c.may w o ∧
      (∀ a w', c.answers w o (.ok a) w' → Q a w') ∧
      (∀ e w', c.answers w o (.error e) w' → E e w') := by
  rw [Prog.perform, wp_call]
  refine and_congr_right fun _ =>
    ⟨fun h => ⟨fun a w' => h (.ok a) w', fun e w' => h (.error e) w'⟩, ?_⟩
  rintro ⟨hok, herr⟩ (e | a) w' hr
  · exact herr e w' hr
  · exact hok a w' hr

/-- The rule of consequence. -/
theorem wp_mono {p : Prog S ε α} (h : wp c p Q E w) (hQ : ∀ a w', Q a w' → Q' a w')
    (hE : ∀ e w', E e w' → E' e w') : wp c p Q' E' w := by
  induction p generalizing w with
  | pure a => exact hQ a w h
  | raise e => exact hE e w h
  | call o k ih => exact ⟨h.1, fun r w' hr => ih r (h.2 r w' hr)⟩

/-- Two guarantees of one program hold together. -/
theorem wp_and {p : Prog S ε α} (h : wp c p Q E w) (h' : wp c p Q' E' w) :
    wp c p (fun a w' => Q a w' ∧ Q' a w') (fun e w' => E e w' ∧ E' e w') w := by
  induction p generalizing w with
  | pure a => exact ⟨h, h'⟩
  | raise e => exact ⟨h, h'⟩
  | call o k ih => exact ⟨h.1, fun r w' hr => ih r (h.2 r w' hr) (h'.2 r w' hr)⟩

/-- The sequence rule: a specification of the first program carries over to the second. -/
theorem wp_seq {p : Prog S ε α} {f : α → Prog S ε β} {R : β → W → Prop} {E : ε → W → Prop}
    (hp : wp c p Q E' w) (hf : ∀ a w', Q a w' → wp c (f a) R E w')
    (hE : ∀ e w', E' e w' → E e w') : wp c (p >>= f) R E w :=
  wp_bind.2 (wp_mono hp hf hE)

end Rules

/-! ### Execution -/

/-- One way of answering every operation. -/
abbrev Handler (S : Signature) (ε W : Type) := W → (o : S.Op) → Except ε (S.Answer o) × W

/-- How a run ends: its result, the world it leaves and the number of operations it called. -/
structure Outcome (ε α W : Type) where
  result : Except ε α
  world : W
  clock : ℕ

/-- Run a program; the `n`-th operation of the run is answered by the `n`-th handler. -/
def run (h : ℕ → Handler S ε W) : Prog S ε α → ℕ → W → Outcome ε α W
  | .pure a, n, w => ⟨.ok a, w, n⟩
  | .raise e, n, w => ⟨.error e, w, n⟩
  | .call o k, n, w => run h (k (h n w o).1) (n + 1) (h n w o).2

section Stages

variable {h : ℕ → Handler S ε W} {p : Prog S ε α} {a : α} {n n' : ℕ} {w w' : W}

/-- A run of a composition goes on where the run of its first part has ended. -/
theorem run_bind {f : α → Prog S ε β} :
    run h (p >>= f) n w =
      match run h p n w with
      | ⟨.ok a, w', n'⟩ => run h (f a) n' w'
      | ⟨.error e, w', n'⟩ => ⟨.error e, w', n'⟩ := by
  induction p generalizing n w with
  | pure b => rfl
  | raise e => rfl
  | call o k ih => exact ih _

theorem run_bind_of_ok {f : α → Prog S ε β} (hp : run h p n w = ⟨.ok a, w', n'⟩) :
    run h (p >>= f) n w = run h (f a) n' w' := by
  rw [run_bind, hp]

/-- Programs that run alike run alike before the same rest. -/
theorem run_bind_congr {q : Prog S ε α} {f : α → Prog S ε β} (hpq : run h p n w = run h q n' w') :
    run h (p >>= f) n w = run h (q >>= f) n' w' := by
  rw [run_bind, run_bind, hpq]

theorem run_tryCatch_of_ok {g : ε → Prog S ε α} (hp : run h p n w = ⟨.ok a, w', n'⟩) :
    run h (p.tryCatch g) n w = ⟨.ok a, w', n'⟩ := by
  induction p generalizing n w with
  | pure b => exact hp
  | raise e => cases hp
  | call o k ih => exact ih _ hp

theorem run_bind_tryCatch_of_ok {f : α → Prog S ε β} {g : ε → Prog S ε β}
    (hp : run h p n w = ⟨.ok a, w', n'⟩) :
    run h ((p >>= f).tryCatch g) n w = run h ((f a).tryCatch g) n' w' := by
  induction p generalizing n w with
  | pure b =>
    cases hp
    rfl
  | raise e => cases hp
  | call o k ih => exact ih _ hp

theorem run_bind_tryFinally_of_ok {f : α → Prog S ε β} {g : Prog S ε Unit}
    (hp : run h p n w = ⟨.ok a, w', n'⟩) :
    run h ((p >>= f).tryFinally g) n w = run h ((f a).tryFinally g) n' w' := by
  induction p generalizing n w with
  | pure b =>
    cases hp
    rfl
  | raise e => cases hp
  | call o k ih => exact ih _ hp

end Stages

/-- The handlers only give answers that the contract foresees. -/
def Contract.Admits (c : Contract S ε W) (h : ℕ → Handler S ε W) : Prop :=
  ∀ n w o, c.answers w o (h n w o).1 (h n w o).2

/-- **Soundness.** What is guaranteed for a program holds at the end of each of its runs. -/
theorem run_of_wp {c : Contract S ε W} {h : ℕ → Handler S ε W} (hh : c.Admits h)
    {p : Prog S ε α} {Q : α → W → Prop} {E : ε → W → Prop} {n : ℕ} {w : W} (hp : wp c p Q E w) :
    (∀ a, (run h p n w).result = .ok a → Q a (run h p n w).world) ∧
      (∀ e, (run h p n w).result = .error e → E e (run h p n w).world) := by
  induction p generalizing n w with
  | pure a => exact ⟨by rintro _ ⟨⟩; exact hp, by rintro _ ⟨⟩⟩
  | raise e => exact ⟨by rintro _ ⟨⟩, by rintro _ ⟨⟩; exact hp⟩
  | call o k ih => exact ih _ (hp.2 _ _ (hh n w o))

/-- A program that is guaranteed not to raise returns. -/
theorem exists_ok_of_wp {c : Contract S ε W} {h : ℕ → Handler S ε W} (hh : c.Admits h)
    {p : Prog S ε α} {Q : α → W → Prop} {n : ℕ} {w : W} (hp : wp c p Q (fun _ _ => False) w) :
    ∃ a, (run h p n w).result = .ok a ∧ Q a (run h p n w).world := by
  have hs := run_of_wp hh (n := n) hp
  cases hr : (run h p n w).result with
  | ok a => exact ⟨a, rfl, hs.1 a hr⟩
  | error e => exact (hs.2 e hr).elim

/-- A program that is guaranteed not to return raises. -/
theorem exists_error_of_wp {c : Contract S ε W} {h : ℕ → Handler S ε W} (hh : c.Admits h)
    {p : Prog S ε α} {E : ε → W → Prop} {n : ℕ} {w : W} (hp : wp c p (fun _ _ => False) E w) :
    ∃ e, (run h p n w).result = .error e ∧ E e (run h p n w).world := by
  have hs := run_of_wp hh (n := n) hp
  cases hr : (run h p n w).result with
  | ok a => exact (hs.1 a hr).elim
  | error e => exact ⟨e, rfl, hs.2 e hr⟩

/-- **Simulation.** What is guaranteed in an abstract environment holds of the runs in a concrete
one, if the concrete handlers give answers that the abstract one foresees. -/
theorem run_of_simulation {G : Type} {c : Contract S ε G} {h : ℕ → Handler S ε W}
    {R : G → W → Prop}
    (step : ∀ n g w o, R g w → c.may g o → ∃ g', c.answers g o (h n w o).1 g' ∧ R g' (h n w o).2)
    {p : Prog S ε α} {Q : α → G → Prop} {E : ε → G → Prop} {n : ℕ} {g : G} {w : W}
    (hp : wp c p Q E g) (hR : R g w) :
    (∀ a, (run h p n w).result = .ok a → ∃ g', Q a g' ∧ R g' (run h p n w).world) ∧
      (∀ e, (run h p n w).result = .error e → ∃ g', E e g' ∧ R g' (run h p n w).world) := by
  induction p generalizing n g w with
  | pure a => exact ⟨by rintro _ ⟨⟩; exact ⟨g, hp, hR⟩, by rintro _ ⟨⟩⟩
  | raise e => exact ⟨by rintro _ ⟨⟩, by rintro _ ⟨⟩; exact ⟨g, hp, hR⟩⟩
  | call o k ih =>
    obtain ⟨g', hanswer, hR'⟩ := step n g w o hR hp.1
    exact ih _ (hp.2 _ _ hanswer) hR'

end Interactive
