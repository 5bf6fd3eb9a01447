import Ps2Ripper.Interactive.Endings

/-!
# The steps of a run

An environment in which a choice is made for every operation: `act o c w` is the answer that the
choice `c` gives to the operation `o` in the world `w`, and the world that is left.

* `Step`, `steps`: the operations that a run issues, with their choices and the worlds they found;
* `traced`: a guarantee that also speaks of the steps, with the rules of `wp`;
* `traced_of_wp`, `traced_of_strict`, `traced_of_uses`, `traced_of_history`: what follows from
  guarantees and properties of programs that do not speak of steps;
* `Logged`: what the steps of a run have added to a log;
* `run_of_traced`, `run_of_wp_steps`: soundness; a guarantee needs the choices to be allowed at the
  steps of the run only.
-/

namespace Interactive

variable {S : Signature} {ε α β W C : Type}

/-- What one choice makes of an operation. -/
abbrev Act (S : Signature) (ε W C : Type) := (o : S.Op) → C → W → Except ε (S.Answer o) × W

/-- The environment in which exactly the choices `A` can be made. -/
def Act.allowing (act : Act S ε W C) (A : S.Op → C → Prop) : Contract S ε W where
  may _ _ := True
  answers w o r w' := ∃ c, A o c ∧ act o c w = (r, w')

/-- The handlers that a sequence of choices stands for. -/
def Act.handlers (act : Act S ε W C) (σ : ℕ → S.Op → C) : ℕ → Handler S ε W :=
  fun n w o => act o (σ n o) w

/-- An operation of a run, the choice that was made for it, and the world that it found. -/
structure Step (S : Signature) (C W : Type) where
  op : S.Op
  choice : C
  before : W

/-- The steps of the run with the choices `σ`. -/
def steps (act : Act S ε W C) (σ : ℕ → S.Op → C) : Prog S ε α → ℕ → W → List (Step S C W)
  | .pure _, _, _ => []
  | .raise _, _, _ => []
  | .call o k, n, w =>
    ⟨o, σ n o, w⟩ :: steps act σ (k (act o (σ n o) w).1) (n + 1) (act o (σ n o) w).2

/-- `p`, started in `w`, ends with `Q` or with `E`, which also see the steps that it took. -/
def traced (act : Act S ε W C) : Prog S ε α → (α → W → List (Step S C W) → Prop) →
    (ε → W → List (Step S C W) → Prop) → W → Prop
  | .pure a, Q, _, w => Q a w []
  | .raise e, _, E, w => E e w []
  | .call o k, Q, E, w => ∀ c, traced act (k (act o c w).1)
      (fun a w' t => Q a w' (⟨o, c, w⟩ :: t)) (fun e w' t => E e w' (⟨o, c, w⟩ :: t)) (act o c w).2

variable {act : Act S ε W C} {Q Q' : α → W → List (Step S C W) → Prop}
  {E E' : ε → W → List (Step S C W) → Prop} {w : W} {p : Prog S ε α}

/-! ### Rules -/

theorem traced_mono (h : traced act p Q E w) (hQ : ∀ a w' t, Q a w' t → Q' a w' t)
    (hE : ∀ e w' t, E e w' t → E' e w' t) : traced act p Q' E' w := by
  induction p generalizing Q Q' E E' w with
  | pure a => exact hQ a w [] h
  | raise e => exact hE e w [] h
  | call o k ih => exact fun c => ih _ (h c) (fun a w' t => hQ a w' _) fun e w' t => hE e w' _

theorem traced_and (h : traced act p Q E w) (h' : traced act p Q' E' w) :
    traced act p (fun a w' t => Q a w' t ∧ Q' a w' t) (fun e w' t => E e w' t ∧ E' e w' t) w := by
  induction p generalizing Q Q' E E' w with
  | pure a => exact ⟨h, h'⟩
  | raise e => exact ⟨h, h'⟩
  | call o k ih => exact fun c => ih _ (h c) (h' c)

theorem traced_of_forall (hQ : ∀ a w t, Q a w t) (hE : ∀ e w t, E e w t) : traced act p Q E w := by
  induction p generalizing Q E w with
  | pure a => exact hQ a w []
  | raise e => exact hE e w []
  | call o k ih => exact fun c => ih _ (fun a w' t => hQ a w' _) fun e w' t => hE e w' _

theorem traced_perform {o : S.Op} {Q : S.Answer o → W → List (Step S C W) → Prop} :
    traced act (Prog.perform o) Q E w ↔
      ∀ c, (∀ a w', act o c w = (.ok a, w') → Q a w' [⟨o, c, w⟩]) ∧
        ∀ e w', act o c w = (.error e, w') → E e w' [⟨o, c, w⟩] := by
  refine forall_congr' fun c => ?_
  rcases hact : act o c w with ⟨e | a, w'⟩
  · refine ⟨fun h => ⟨fun _ _ hok => ?_, fun _ _ herror => ?_⟩, fun h => h.2 e w' rfl⟩
    · cases hok
    · cases herror
      exact h
  · refine ⟨fun h => ⟨fun _ _ hok => ?_, fun _ _ herror => ?_⟩, fun h => h.1 a w' rfl⟩
    · cases hok
      exact h
    · cases herror

theorem traced_bind {f : α → Prog S ε β} {Q : β → W → List (Step S C W) → Prop} :
    traced act (p >>= f) Q E w ↔
      traced act p (fun a w' t => traced act (f a) (fun b w'' t' => Q b w'' (t ++ t'))
        (fun e w'' t' => E e w'' (t ++ t')) w') E w := by
  induction p generalizing Q E w with
  | pure a => rfl
  | raise e => rfl
  | call o k ih => exact forall_congr' fun c => ih _

theorem traced_tryFinally {f : Prog S ε Unit} :
    traced act (p.tryFinally f) Q E w ↔
      traced act p
        (fun a w' t => traced act f (fun _ w'' t' => Q a w'' (t ++ t'))
          (fun e w'' t' => E e w'' (t ++ t')) w')
        (fun e w' t => traced act f (fun _ w'' t' => E e w'' (t ++ t'))
          (fun e' w'' t' => E e' w'' (t ++ t')) w') w := by
  induction p generalizing Q E w with
  | pure a =>
    rw [Prog.tryFinally, traced_bind]
    simp only [traced, List.append_nil, List.nil_append]
  | raise e =>
    rw [Prog.tryFinally, traced_bind]
    simp only [traced, List.append_nil, List.nil_append]
  | call o k ih => exact forall_congr' fun c => ih _

/-! ### What follows without steps -/

/-- A guarantee under allowed choices holds if the choices of the steps were allowed. -/
theorem traced_of_wp {A : S.Op → C → Prop} {Q : α → W → Prop} {E : ε → W → Prop}
    (h : wp (act.allowing A) p Q E w) :
    traced act p (fun a w' t => (∀ s ∈ t, A s.op s.choice) → Q a w')
      (fun e w' t => (∀ s ∈ t, A s.op s.choice) → E e w') w := by
  induction p generalizing w with
  | pure a => exact fun _ => h
  | raise e => exact fun _ => h
  | call o k ih =>
    intro c
    by_cases hc : A o c
    · refine traced_mono (ih _ (h.2 _ _ ⟨c, hc, rfl⟩)) (fun a w' t hQ ht => hQ ?_)
        fun e w' t hE ht => hE ?_
      all_goals exact fun s hs => ht s (List.mem_cons_of_mem _ hs)
    · exact traced_of_forall (fun _ _ _ ht => absurd (ht _ List.mem_cons_self) hc)
        fun _ _ _ ht => absurd (ht _ List.mem_cons_self) hc

/-- The operations of a program are those of its steps. -/
theorem traced_of_uses {P : S.Op → Prop} (h : p.Uses P) :
    traced act p (fun _ _ t => ∀ s ∈ t, P s.op) (fun _ _ t => ∀ s ∈ t, P s.op) w := by
  induction p generalizing w with
  | pure a => simp [traced]
  | raise e => simp [traced]
  | call o k ih =>
    intro c
    refine traced_mono (ih _ (h.2 _)) (fun _ _ t ht s hs => ?_) fun _ _ t ht s hs => ?_
    all_goals
      obtain rfl | hs := List.mem_cons.1 hs
      · exact h.1
      · exact ht s hs

theorem traced_of_yields {P : α → Prop} (h : p.Yields P) :
    traced act p (fun a _ _ => P a) (fun _ _ _ => True) w := by
  induction p generalizing w with
  | pure a => exact h
  | raise e => trivial
  | call o k ih => exact fun c => ih _ (h _)

/-- If a strict program returns, then the answers of all its steps were fine. -/
theorem traced_of_strict {fine : (o : S.Op) → Except ε (S.Answer o) → Prop} (h : p.Strict fine) :
    traced act p (fun _ _ t => ∀ s ∈ t, fine s.op (act s.op s.choice s.before).1)
      (fun _ _ _ => True) w := by
  induction p generalizing w with
  | pure a => simp [traced]
  | raise e => trivial
  | call o k ih =>
    intro c
    obtain ⟨hbad, hk⟩ := h (act o c w).1
    by_cases hfine : fine o (act o c w).1
    · refine traced_mono (ih _ hk) (fun _ _ t ht s hs => ?_) fun _ _ _ => id
      obtain rfl | hs := List.mem_cons.1 hs
      · exact hfine
      · exact ht s hs
    · exact traced_mono (traced_of_yields (hbad hfine)) (fun _ _ _ => False.elim) fun _ _ _ => id

/-- A relation between the steps of a run and its worlds, by its steps. -/
theorem traced_of_history {R : W → List (Step S C W) → W → Prop} (nil : ∀ w, R w [] w)
    (cons : ∀ o c w t w', R (act o c w).2 t w' → R w (⟨o, c, w⟩ :: t) w') :
    traced act p (fun _ w' t => R w t w') (fun _ w' t => R w t w') w := by
  induction p generalizing w with
  | pure a => exact nil w
  | raise e => exact nil w
  | call o k ih =>
    exact fun c => traced_mono (ih _) (fun _ w' t => cons o c w t w') fun _ w' t => cons o c w t w'

/-- What the steps of a run have added to a log. -/
def Logged {B : Type} (log : W → List B) (adds : Step S C W → B → Prop) (w : W)
    (t : List (Step S C W)) (w' : W) : Prop :=
  ∃ new, log w' = log w ++ new ∧ ∀ b, b ∈ new ↔ ∃ s ∈ t, adds s b

section Logged

variable {B : Type} {log : W → List B} {adds : Step S C W → B → Prop} {s : Step S C W} {w' : W}

theorem logged_silent (hlog : log w' = log w) (h : ∀ b, ¬ adds s b) : Logged log adds w [s] w' :=
  ⟨[], by rw [hlog, List.append_nil], fun b => by simp [h b]⟩

theorem logged_single {b : B} (hlog : log w' = log w ++ [b]) (h : ∀ b', adds s b' ↔ b' = b) :
    Logged log adds w [s] w' :=
  ⟨[b], hlog, fun b' => by simp [h b']⟩

/-- If each step adds to the log what it is said to add, then so does a run. -/
theorem traced_logged
    (step : ∀ o c w, Logged log adds w [(⟨o, c, w⟩ : Step S C W)] (act o c w).2) :
    traced act p (fun _ w' t => Logged log adds w t w')
      (fun _ w' t => Logged log adds w t w') w := by
  refine traced_of_history (fun w => ⟨[], by simp, by simp⟩) ?_
  rintro o c w t w' ⟨new, hnew, hmem⟩
  obtain ⟨here, hhere, hmem'⟩ := step o c w
  refine ⟨here ++ new, by rw [hnew, hhere, List.append_assoc], fun b => ?_⟩
  simp [List.mem_append, hmem, hmem']

end Logged

/-! ### Soundness -/

variable {σ : ℕ → S.Op → C} {n : ℕ}

/-- What holds of all choices holds of those for the steps of a run. -/
theorem forall_steps {A : S.Op → C → Prop} (hσ : ∀ n o, A o (σ n o)) :
    ∀ s ∈ steps act σ p n w, A s.op s.choice := by
  induction p generalizing n w with
  | pure a => simp [steps]
  | raise e => simp [steps]
  | call o k ih =>
    intro s hs
    obtain rfl | hs := List.mem_cons.1 hs
    · exact hσ n o
    · exact ih _ s hs

/-- The clock counts the steps. -/
theorem clock_run : (run (act.handlers σ) p n w).clock = n + (steps act σ p n w).length := by
  induction p generalizing n w with
  | pure a => rfl
  | raise e => rfl
  | call o k ih =>
    show (run (act.handlers σ) (k _) (n + 1) _).clock = n +
      ((steps act σ (k _) (n + 1) _).length + 1)
    rw [ih, Nat.add_assoc, Nat.add_comm 1]
    rfl

/-- The steps of a composition. -/
theorem steps_bind {f : α → Prog S ε β} :
    steps act σ (p >>= f) n w = steps act σ p n w ++
      match run (act.handlers σ) p n w with
      | ⟨.ok a, w', n'⟩ => steps act σ (f a) n' w'
      | ⟨.error _, _, _⟩ => [] := by
  induction p generalizing n w with
  | pure a => rfl
  | raise e => rfl
  | call o k ih => exact congrArg (List.cons _) (ih _)

theorem steps_tryFinally {f : Prog S ε Unit} :
    steps act σ (p.tryFinally f) n w = steps act σ p n w ++
      steps act σ f (run (act.handlers σ) p n w).clock (run (act.handlers σ) p n w).world := by
  induction p generalizing n w with
  | pure a =>
    rw [Prog.tryFinally, steps_bind]
    show steps act σ f n w ++ _ = steps act σ f n w
    rcases run (act.handlers σ) f n w with ⟨_ | _, _, _⟩ <;> exact List.append_nil _
  | raise e =>
    rw [Prog.tryFinally, steps_bind]
    show steps act σ f n w ++ _ = steps act σ f n w
    rcases run (act.handlers σ) f n w with ⟨_ | _, _, _⟩ <;> exact List.append_nil _
  | call o k ih => exact congrArg (List.cons _) (ih _)

/-- A handler that runs `f` and passes the exception on, in front of more steps. -/
theorem steps_cleanup_bind {f : Prog S ε Unit} {g : α → Prog S ε β} :
    steps act σ ((p.tryCatch fun e => f >>= fun _ => .raise e) >>= g) n w = steps act σ p n w ++
      match run (act.handlers σ) p n w with
      | ⟨.ok a, w', n'⟩ => steps act σ (g a) n' w'
      | ⟨.error _, w', n'⟩ => steps act σ f n' w' := by
  induction p generalizing n w with
  | pure a => rfl
  | raise e =>
    rw [Prog.tryCatch, steps_bind, steps_bind, run_bind]
    show (steps act σ f n w ++ _) ++ _ = steps act σ f n w
    rcases run (act.handlers σ) f n w with ⟨_ | _, _, _⟩ <;> simp [run, steps]
  | call o k ih => exact congrArg (List.cons _) (ih _)

theorem run_of_traced (h : traced act p Q E w) :
    (∀ a, (run (act.handlers σ) p n w).result = .ok a →
        Q a (run (act.handlers σ) p n w).world (steps act σ p n w)) ∧
      ∀ e, (run (act.handlers σ) p n w).result = .error e →
        E e (run (act.handlers σ) p n w).world (steps act σ p n w) := by
  induction p generalizing Q E n w with
  | pure a => exact ⟨by rintro _ ⟨⟩; exact h, by rintro _ ⟨⟩⟩
  | raise e => exact ⟨by rintro _ ⟨⟩, by rintro _ ⟨⟩; exact h⟩
  | call o k ih => exact ih _ (h (σ n o))

/-- **Soundness for the steps of one run.** The choices need to be allowed only where they are
made. -/
theorem run_of_wp_steps {A : S.Op → C → Prop} {Q : α → W → Prop} {E : ε → W → Prop}
    (hA : ∀ s ∈ steps act σ p n w, A s.op s.choice) (h : wp (act.allowing A) p Q E w) :
    (∀ a, (run (act.handlers σ) p n w).result = .ok a → Q a (run (act.handlers σ) p n w).world) ∧
      ∀ e, (run (act.handlers σ) p n w).result = .error e →
        E e (run (act.handlers σ) p n w).world := by
  obtain ⟨hok, herror⟩ := run_of_traced (σ := σ) (n := n) (traced_of_wp h)
  exact ⟨fun a ha => hok a ha hA, fun e he => herror e he hA⟩

end Interactive
