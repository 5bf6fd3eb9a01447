import Ps2Ripper.Interactive.Contract

/-!
# Footprints and partial guarantees

* `Prog.Uses`: every operation that a program can call satisfies a predicate, whatever the answers
  are; `wp_of_uses` turns what single operations preserve into what the program preserves;
* `Prog.Yields`: what holds of every value a program can return;
* `ensures`: a guarantee for the runs that return, with the rules that go through handlers that
  never return.
-/

namespace Interactive

variable {S : Signature} {ε α β W : Type}

namespace Prog

variable {P P' : S.Op → Prop}

/-- Every operation of the program satisfies `P`. -/
def Uses (P : S.Op → Prop) : Prog S ε α → Prop
  | .pure _ => True
  | .raise _ => True
  | .call o k => P o ∧ ∀ r, (k r).Uses P

@[simp] theorem uses_pure (a : α) : (Prog.pure a : Prog S ε α).Uses P := trivial

@[simp] theorem uses_return (a : α) : (Pure.pure a : Prog S ε α).Uses P := trivial

@[simp] theorem uses_raise (e : ε) : (Prog.raise e : Prog S ε α).Uses P := trivial

@[simp] theorem uses_call {o : S.Op} {k : Except ε (S.Answer o) → Prog S ε α} :
    (Prog.call o k).Uses P ↔ P o ∧ ∀ r, (k r).Uses P := Iff.rfl

@[simp] theorem uses_perform {o : S.Op} : (perform o : Prog S ε _).Uses P ↔ P o := by
  refine ⟨And.left, fun h => ⟨h, ?_⟩⟩
  rintro (e | a) <;> trivial

@[simp] theorem uses_lift (x : Except ε α) : (lift x : Prog S ε α).Uses P := by
  cases x <;> trivial

theorem Uses.bind {p : Prog S ε α} {f : α → Prog S ε β} (hp : p.Uses P)
    (hf : ∀ a, (f a).Uses P) : (p >>= f).Uses P := by
  induction p with
  | pure a => exact hf a
  | raise e => trivial
  | call o k ih => exact ⟨hp.1, fun r => ih r (hp.2 r)⟩

theorem Uses.tryCatch {p : Prog S ε α} {h : ε → Prog S ε α} (hp : p.Uses P)
    (hh : ∀ e, (h e).Uses P) : (p.tryCatch h).Uses P := by
  induction p with
  | pure a => trivial
  | raise e => exact hh e
  | call o k ih => exact ⟨hp.1, fun r => ih r (hp.2 r)⟩

theorem Uses.tryFinally {p : Prog S ε α} {f : Prog S ε Unit} (hp : p.Uses P) (hf : f.Uses P) :
    (p.tryFinally f).Uses P := by
  induction p with
  | pure a => exact hf.bind fun _ => trivial
  | raise e => exact hf.bind fun _ => trivial
  | call o k ih => exact ⟨hp.1, fun r => ih r (hp.2 r)⟩

theorem Uses.mono {p : Prog S ε α} (hp : p.Uses P) (h : ∀ o, P o → P' o) : p.Uses P' := by
  induction p with
  | pure a => trivial
  | raise e => trivial
  | call o k ih => exact ⟨h o hp.1, fun r => ih r (hp.2 r)⟩

theorem uses_true (p : Prog S ε α) : p.Uses fun _ => True := by
  induction p with
  | pure a => trivial
  | raise e => trivial
  | call o k ih => exact ⟨trivial, ih⟩

theorem Uses.ite {c : Prop} [Decidable c] {p q : Prog S ε α} (hp : c → p.Uses P)
    (hq : ¬c → q.Uses P) : (if c then p else q).Uses P := by
  split
  · exact hp ‹_›
  · exact hq ‹_›

end Prog

/-- Every value that the program can return satisfies `P`, whatever the answers are. -/
def Prog.Yields (P : α → Prop) : Prog S ε α → Prop
  | .pure a => P a
  | .raise _ => True
  | .call _ k => ∀ r, (k r).Yields P

@[simp] theorem Prog.yields_return {P : α → Prop} (a : α) :
    (Pure.pure a : Prog S ε α).Yields P ↔ P a := Iff.rfl

theorem Prog.Yields.bind {P : α → Prop} {P' : β → Prop} {p : Prog S ε α} {f : α → Prog S ε β}
    (hp : p.Yields P) (hf : ∀ a, P a → (f a).Yields P') : (p >>= f).Yields P' := by
  induction p with
  | pure a => exact hf a hp
  | raise e => trivial
  | call o k ih => exact fun r => ih r (hp r)

theorem Prog.Yields.tryCatch {P : α → Prop} {p : Prog S ε α} {h : ε → Prog S ε α}
    (hp : p.Yields P) (hh : ∀ e, (h e).Yields P) : (p.tryCatch h).Yields P := by
  induction p with
  | pure a => exact hp
  | raise e => exact hh e
  | call o k ih => exact fun r => ih r (hp r)

theorem Prog.Yields.ite {P : α → Prop} {c : Prop} [Decidable c] {p q : Prog S ε α}
    (hp : p.Yields P) (hq : q.Yields P) : (if c then p else q).Yields P := by
  split
  · exact hp
  · exact hq

theorem Prog.yields_true (p : Prog S ε α) : p.Yields fun _ => True := by
  induction p with
  | pure a => trivial
  | raise e => trivial
  | call o k ih => exact ih

variable {c d : Contract S ε W} {w : W}

/-- What a program yields can be added to what is guaranteed for it. -/
theorem wp_of_yields {P : α → Prop} {p : Prog S ε α} {Q : α → W → Prop} {E : ε → W → Prop}
    (hp : p.Yields P) (h : wp c p Q E w) : wp c p (fun a w' => P a ∧ Q a w') E w := by
  induction p generalizing w with
  | pure a => exact ⟨hp, h⟩
  | raise e => exact h
  | call o k ih => exact ⟨h.1, fun r w' hr => ih r (hp r) (h.2 r w' hr)⟩

/-- The frame rule: what every operation of a program preserves is preserved by its runs. -/
theorem wp_of_uses {P : S.Op → Prop} {R : W → W → Prop} (refl : ∀ w, R w w)
    (trans : ∀ {w w' w''}, R w w' → R w' w'' → R w w'') (may : ∀ w' o, R w w' → P o → c.may w' o)
    (step : ∀ w o r w', P o → c.answers w o r w' → R w w') {p : Prog S ε α} (hp : p.Uses P) :
    wp c p (fun _ w' => R w w') (fun _ w' => R w w') w := by
  suffices ∀ w', R w w' → wp c p (fun _ => R w) (fun _ => R w) w' from this w (refl w)
  intro w' hw'
  induction p generalizing w' with
  | pure a => exact hw'
  | raise e => exact hw'
  | call o k ih =>
    exact ⟨may w' o hw' hp.1, fun r w'' hr =>
      ih r (hp.2 r) w'' (trans hw' (step w' o r w'' hp.1 hr))⟩

/-- Two environments that treat the operations of a program alike give the same guarantees. -/
theorem wp_of_uses_le {P : S.Op → Prop} (may : ∀ w o, P o → c.may w o → d.may w o)
    (answers : ∀ w o r w', P o → d.answers w o r w' → c.answers w o r w') {p : Prog S ε α}
    {Q : α → W → Prop} {E : ε → W → Prop} (hp : p.Uses P) (h : wp c p Q E w) : wp d p Q E w := by
  induction p generalizing w with
  | pure a => exact h
  | raise e => exact h
  | call o k ih =>
    exact ⟨may w o hp.1 h.1, fun r w' hr => ih r (hp.2 r) (h.2 r w' (answers w o r w' hp.1 hr))⟩

/-! ### Guarantees for the runs that return -/

/-- The environment that lets every operation be called. -/
def Contract.Permissive (c : Contract S ε W) : Prop := ∀ w o, c.may w o

/-- Whenever `p` returns, it does so with `Q`. -/
def ensures (c : Contract S ε W) (p : Prog S ε α) (Q : α → W → Prop) (w : W) : Prop :=
  wp c p Q (fun _ _ => True) w

section Ensures

variable {Q Q' : α → W → Prop}

theorem ensures_return {a : α} (h : Q a w) : ensures c (Pure.pure a : Prog S ε α) Q w := h

theorem ensures_lift {x : Except ε α} (h : ∀ a, x = .ok a → Q a w) :
    ensures c (Prog.lift x) Q w :=
  (wp_lift x).2 ⟨h, fun _ _ => trivial⟩

theorem ensures_mono {p : Prog S ε α} (h : ensures c p Q w) (hQ : ∀ a w', Q a w' → Q' a w') :
    ensures c p Q' w :=
  wp_mono h hQ fun _ _ => id

theorem ensures_and {p : Prog S ε α} (h : ensures c p Q w) (h' : ensures c p Q' w) :
    ensures c p (fun a w' => Q a w' ∧ Q' a w') w :=
  wp_mono (wp_and h h') (fun _ _ => id) fun _ _ _ => trivial

theorem ensures_of_wp {p : Prog S ε α} {E : ε → W → Prop} (h : wp c p Q E w) : ensures c p Q w :=
  wp_mono h (fun _ _ => id) fun _ _ _ => trivial

theorem ensures_bind {p : Prog S ε α} {f : α → Prog S ε β} {R : β → W → Prop}
    (hp : ensures c p Q w) (hf : ∀ a w', Q a w' → ensures c (f a) R w') :
    ensures c (p >>= f) R w :=
  wp_bind.2 (wp_mono hp hf fun _ _ => id)

/-- Programs run to an end in a permissive environment. -/
theorem ensures_true (hc : c.Permissive) (p : Prog S ε α) : ensures c p (fun _ _ => True) w := by
  induction p generalizing w with
  | pure a => trivial
  | raise e => trivial
  | call o k ih => exact ⟨hc w o, fun r w' _ => ih r⟩

theorem ensures_tryCatch {p : Prog S ε α} {h : ε → Prog S ε α} (hp : ensures c p Q w)
    (hh : ∀ e w', ensures c (h e) Q w') : ensures c (p.tryCatch h) Q w :=
  wp_tryCatch.2 (wp_mono hp (fun _ _ => id) fun e w' _ => hh e w')

theorem ensures_tryFinally (hc : c.Permissive) {p : Prog S ε α} {f : Prog S ε Unit}
    (hp : ensures c p Q w) (hf : ∀ a w', Q a w' → ensures c f (fun _ => Q' a) w') :
    ensures c (p.tryFinally f) Q' w :=
  wp_tryFinally.2 (wp_mono hp hf fun _ _ _ => ensures_true hc f)

end Ensures

end Interactive
