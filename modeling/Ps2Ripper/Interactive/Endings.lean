import Ps2Ripper.Interactive.Footprint

/-!
# How runs end

A program is strict about some answers if it cannot return any more once it has got another one: a
caller that sees it return knows that every answer of the run was of that kind.

* `Prog.Strict`, with a rule for each way of composing programs;
* `answers`: the answers of a run, and `fine_of_run`, what is known of them;
* `finish`: what a `finally` clause makes of the outcome of its statement, and `run_tryFinally`;
* `run_of_wp_from`: soundness for handlers that keep to a contract from some time on;
* `visits`: the operations of a run with the worlds that they found, and `run_congr_of_visits`:
  nothing else matters for it.
-/

namespace Interactive

variable {S : Signature} {ε α β W : Type}

namespace Prog

/-- After an answer that is not fine the program never returns. -/
def Strict (fine : (o : S.Op) → Except ε (S.Answer o) → Prop) : Prog S ε α → Prop
  | .pure _ => True
  | .raise _ => True
  | .call o k => ∀ r, (¬ fine o r → (k r).Yields fun _ => False) ∧ (k r).Strict fine

variable {fine : (o : S.Op) → Except ε (S.Answer o) → Prop}

@[simp] theorem strict_return (a : α) : (Pure.pure a : Prog S ε α).Strict fine := trivial

@[simp] theorem strict_raise (e : ε) : (Prog.raise e : Prog S ε α).Strict fine := trivial

theorem strict_perform {o : S.Op} (h : ∀ a, fine o (.ok a)) :
    (perform o : Prog S ε _).Strict fine := by
  rintro (e | a)
  · exact ⟨fun _ => trivial, trivial⟩
  · exact ⟨fun hbad => absurd (h a) hbad, trivial⟩

theorem strict_lift (x : Except ε α) : (lift x : Prog S ε α).Strict fine := by
  cases x <;> trivial

/-- A program that never returns is strict about everything. -/
theorem Strict.of_never {p : Prog S ε α} (h : p.Yields fun _ => False) : p.Strict fine := by
  induction p with
  | pure a => trivial
  | raise e => trivial
  | call o k ih => exact fun r => ⟨fun _ => h r, ih r (h r)⟩

theorem Strict.bind {p : Prog S ε α} {f : α → Prog S ε β} (hp : p.Strict fine)
    (hf : ∀ a, (f a).Strict fine) : (p >>= f).Strict fine := by
  induction p with
  | pure a => exact hf a
  | raise e => trivial
  | call o k ih =>
    exact fun r => ⟨fun hbad => ((hp r).1 hbad).bind fun _ => False.elim, ih r (hp r).2⟩

/-- A handler that never returns does not hide anything. -/
theorem Strict.tryCatch {p : Prog S ε α} {h : ε → Prog S ε α} (hp : p.Strict fine)
    (hh : ∀ e, (h e).Yields fun _ => False) : (p.tryCatch h).Strict fine := by
  induction p with
  | pure a => trivial
  | raise e => exact .of_never (hh e)
  | call o k ih => exact fun r => ⟨fun hbad => ((hp r).1 hbad).tryCatch hh, ih r (hp r).2⟩

theorem Strict.ite {c : Prop} [Decidable c] {p q : Prog S ε α} (hp : p.Strict fine)
    (hq : q.Strict fine) : (if c then p else q).Strict fine := by
  split
  · exact hp
  · exact hq

end Prog

/-- The operations of a run, each with its answer. -/
def answers (h : ℕ → Handler S ε W) :
    Prog S ε α → ℕ → W → List ((o : S.Op) × Except ε (S.Answer o))
  | .pure _, _, _ => []
  | .raise _, _, _ => []
  | .call o k, n, w => ⟨o, (h n w o).1⟩ :: answers h (k (h n w o).1) (n + 1) (h n w o).2

variable {h : ℕ → Handler S ε W} {p : Prog S ε α} {n : ℕ} {w : W} {a : α}

theorem yields_of_run {P : α → Prop} (hp : p.Yields P) (ha : (run h p n w).result = .ok a) :
    P a := by
  induction p generalizing n w with
  | pure b =>
    cases ha
    exact hp
  | raise e => cases ha
  | call o k ih => exact ih _ (hp _) ha

/-- If a strict program returns, then all its answers were fine. -/
theorem fine_of_run {fine : (o : S.Op) → Except ε (S.Answer o) → Prop} (hp : p.Strict fine)
    (ha : (run h p n w).result = .ok a) : ∀ x ∈ answers h p n w, fine x.1 x.2 := by
  induction p generalizing n w with
  | pure b => exact fun x hx => absurd hx List.not_mem_nil
  | raise e => exact fun x hx => absurd hx List.not_mem_nil
  | call o k ih =>
    obtain ⟨hbad, hk⟩ := hp (h n w o).1
    intro x hx
    obtain rfl | hx := List.mem_cons.1 hx
    · by_contra hnot
      exact yields_of_run (hbad hnot) ha
    · exact ih _ hk ha x hx

/-! ### `finally` clauses -/

/-- The outcome of a statement after its `finally` clause: the same, unless the clause raises. -/
def finish (h : ℕ → Handler S ε W) (f : Prog S ε Unit) (o : Outcome ε α W) : Outcome ε α W :=
  match run h f o.clock o.world with
  | ⟨.ok _, w', n'⟩ => ⟨o.result, w', n'⟩
  | ⟨.error e, w', n'⟩ => ⟨.error e, w', n'⟩

variable {f : Prog S ε Unit}

/-- A clause that does not raise keeps the result, and ends in its own world. -/
theorem finish_of_ok {o : Outcome ε α W} (hf : (run h f o.clock o.world).result = .ok ()) :
    (finish h f o).result = o.result ∧ (finish h f o).world = (run h f o.clock o.world).world := by
  unfold finish
  rcases hrun : run h f o.clock o.world with ⟨e | u, w', n'⟩
  · rw [hrun] at hf
    cases hf
  · exact ⟨rfl, rfl⟩

theorem finish_of_error {o : Outcome ε α W} {e : ε}
    (hf : (run h f o.clock o.world).result = .error e) : (finish h f o).result = .error e := by
  unfold finish
  rcases hrun : run h f o.clock o.world with ⟨e' | u, w', n'⟩
  · rw [hrun] at hf
    cases hf
    rfl
  · rw [hrun] at hf
    cases hf

/-- Only a clause that does not raise lets a result through. -/
theorem result_of_finish {o : Outcome ε α W} (hf : (finish h f o).result = .ok a) :
    o.result = .ok a := by
  cases hr : (run h f o.clock o.world).result with
  | error e =>
    rw [finish_of_error hr] at hf
    cases hf
  | ok u => exact (finish_of_ok hr).1.symm.trans hf

theorem run_tryFinally : run h (p.tryFinally f) n w = finish h f (run h p n w) := by
  induction p generalizing n w with
  | pure b =>
    rw [Prog.tryFinally, run_bind]
    show _ = finish h f ⟨.ok b, w, n⟩
    unfold finish
    rcases run h f n w with ⟨_ | _, _, _⟩ <;> rfl
  | raise e =>
    rw [Prog.tryFinally, run_bind]
    show _ = finish h f ⟨.error e, w, n⟩
    unfold finish
    rcases run h f n w with ⟨_ | _, _, _⟩ <;> rfl
  | call o k ih => exact ih _

/-- A handler that runs `f` and passes the exception on, in front of more steps. -/
theorem run_cleanup_bind {g : α → Prog S ε β} :
    run h ((p.tryCatch fun e => f >>= fun _ => .raise e) >>= g) n w =
      match run h p n w with
      | ⟨.ok a, w', n'⟩ => run h (g a) n' w'
      | ⟨.error e, w', n'⟩ => finish h f ⟨.error e, w', n'⟩ := by
  induction p generalizing n w with
  | pure b => rfl
  | raise e =>
    rw [Prog.tryCatch, run_bind, run_bind]
    show _ = finish h f ⟨.error e, w, n⟩
    unfold finish
    rcases run h f n w with ⟨_ | _, _, _⟩ <;> rfl
  | call o k ih => exact ih _

/-- Soundness for handlers that keep to the contract from the start of the run on. -/
theorem run_of_wp_from {c : Contract S ε W} {Q : α → W → Prop} {E : ε → W → Prop}
    (hh : ∀ k ≥ n, ∀ w o, c.answers w o (h k w o).1 (h k w o).2) (hp : wp c p Q E w) :
    (∀ a, (run h p n w).result = .ok a → Q a (run h p n w).world) ∧
      (∀ e, (run h p n w).result = .error e → E e (run h p n w).world) := by
  induction p generalizing n w with
  | pure a => exact ⟨by rintro _ ⟨⟩; exact hp, nofun⟩
  | raise e => exact ⟨nofun, by rintro _ ⟨⟩; exact hp⟩
  | call o k ih => exact ih _ (fun k hk => hh k (by omega)) (hp.2 _ _ (hh n le_rfl w o))

/-- The operations of a run, each with its number and the world that it found. -/
def visits (h : ℕ → Handler S ε W) : Prog S ε α → ℕ → W → List (ℕ × W × S.Op)
  | .pure _, _, _ => []
  | .raise _, _, _ => []
  | .call o k, n, w => (n, w, o) :: visits h (k (h n w o).1) (n + 1) (h n w o).2

/-- Handlers that agree on the operations of a run give the same run. -/
theorem run_congr_of_visits {h' : ℕ → Handler S ε W}
    (hh : ∀ x ∈ visits h p n w, h' x.1 x.2.1 x.2.2 = h x.1 x.2.1 x.2.2) :
    run h' p n w = run h p n w := by
  induction p generalizing n w with
  | pure a => rfl
  | raise e => rfl
  | call o k ih =>
    have hfirst : h' n w o = h n w o := hh (n, w, o) List.mem_cons_self
    rw [run, run, hfirst]
    exact ih _ fun x hx => hh x (List.mem_cons_of_mem _ hx)

theorem visits_of_uses {P : S.Op → Prop} (hp : p.Uses P) : ∀ x ∈ visits h p n w, P x.2.2 := by
  induction p generalizing n w with
  | pure a => exact fun x hx => absurd hx List.not_mem_nil
  | raise e => exact fun x hx => absurd hx List.not_mem_nil
  | call o k ih =>
    intro x hx
    obtain rfl | hx := List.mem_cons.1 hx
    · exact hp.1
    · exact ih _ (hp.2 _) x hx

/-- Handlers that treat the operations of a program alike give the same run. -/
theorem run_congr_of_uses {h' : ℕ → Handler S ε W} {P : S.Op → Prop} (hp : p.Uses P)
    (hh : ∀ k w o, P o → h k w o = h' k w o) : run h p n w = run h' p n w :=
  run_congr_of_visits fun x hx => hh x.1 x.2.1 x.2.2 (visits_of_uses hp x hx)

end Interactive
