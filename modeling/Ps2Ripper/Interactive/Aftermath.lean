import Ps2Ripper.Interactive.Steps

/-!
# What comes after a step

Some steps of a run commit it to something.  A program that raises after such a step ought to have a
reason: a choice at a later step that was not allowed.

* `Decided`: a program returns exactly when the choices at its steps are allowed;
* `AllowedAfter`, `DisallowedAfter`: the steps of a run that come after a committing one;
* `DecidedAfter`: a program returns with the first of them and raises with the second, with a rule
  for each way to put programs around the one that commits.
-/

namespace Interactive

open Prog

variable {S : Signature} {ε α β W C : Type} {act : Act S ε W C} {commits : Step S C W → Prop}
  {A : S.Op → C → Prop} {w : W} {p : Prog S ε α}

/-! ### Programs that the choices decide -/

/-- The program returns if all choices are allowed, and raises if one of them is not. -/
def Decided (act : Act S ε W C) (A : S.Op → C → Prop) (p : Prog S ε α) (w : W) : Prop :=
  traced act p (fun _ _ t => ∀ s ∈ t, A s.op s.choice) (fun _ _ t => ∃ s ∈ t, ¬ A s.op s.choice) w

/-- A strict program that returns under allowed choices is decided by them. -/
theorem decided_of_strict {fine : (o : S.Op) → Except ε (S.Answer o) → Prop}
    (hfine : ∀ o c w, fine o (act o c w).1 → A o c) (hstrict : p.Strict fine)
    (hp : wp (act.allowing A) p (fun _ _ => True) (fun _ _ => False) w) : Decided act A p w := by
  refine traced_mono (traced_and (traced_of_strict hstrict) (traced_of_wp hp))
    (fun _ _ t h s hs => hfine _ _ _ (h.1 s hs)) fun _ _ t h => ?_
  by_contra hall
  exact h.2 fun s hs => by_contra fun hs' => hall ⟨s, hs, hs'⟩

/-- What is made of the result does not matter. -/
theorem Decided.map {f : α → β} (h : Decided act A p w) :
    Decided act A (p >>= fun a => Pure.pure (f a)) w := by
  refine traced_bind.2 (traced_mono h (fun a w' t ht => ?_) fun _ _ _ => id)
  show ∀ s ∈ t ++ [], A s.op s.choice
  rwa [List.append_nil]

/-! ### The steps after a committing one -/

def AllowedAfter (commits : Step S C W → Prop) (A : S.Op → C → Prop) (t : List (Step S C W)) :
    Prop :=
  ∀ before s after, t = before ++ s :: after → commits s → ∀ x ∈ after, A x.op x.choice

def DisallowedAfter (commits : Step S C W → Prop) (A : S.Op → C → Prop) (t : List (Step S C W)) :
    Prop :=
  ∀ before s after, t = before ++ s :: after → commits s → ∃ x ∈ after, ¬ A x.op x.choice

/-- A list of steps that does not commit. -/
def Quiet (commits : Step S C W → Prop) (t : List (Step S C W)) : Prop := ∀ s ∈ t, ¬ commits s

variable {t t' before after : List (Step S C W)} {s : Step S C W}

theorem append_eq_append_cons (h : t ++ t' = before ++ s :: after) :
    (∃ middle, t = before ++ s :: middle ∧ after = middle ++ t') ∨
      ∃ middle, before = t ++ middle ∧ t' = middle ++ s :: after := by
  obtain ⟨middle, rfl, rfl⟩ | ⟨middle, rfl, hafter⟩ := List.append_eq_append_iff.1 h
  · exact .inr ⟨middle, rfl, rfl⟩
  · rcases middle with _ | ⟨x, middle⟩
    · exact .inr ⟨[], by simp, hafter.symm⟩
    · obtain ⟨rfl, rfl⟩ := List.cons.inj hafter
      exact .inl ⟨middle, rfl, rfl⟩

theorem Quiet.allowedAfter (h : Quiet commits t) : AllowedAfter commits A t :=
  fun _ s _ ht hs => absurd hs (h s (by simp [ht]))

theorem Quiet.disallowedAfter (h : Quiet commits t) : DisallowedAfter commits A t :=
  fun _ s _ ht hs => absurd hs (h s (by simp [ht]))

/-- Nothing comes after a single step. -/
theorem allowedAfter_singleton (s : Step S C W) : AllowedAfter commits A [s] := by
  intro before s' after ht _ x hx
  rcases before with _ | ⟨y, before⟩
  · obtain ⟨-, rfl⟩ := List.cons.inj ht
    exact absurd hx List.not_mem_nil
  · exact absurd (List.cons.inj ht).2 (by simp)

/-- In front of the step there may be anything that does not commit. -/
theorem AllowedAfter.prepend (h : AllowedAfter commits A t') (hquiet : Quiet commits t) :
    AllowedAfter commits A (t ++ t') := by
  intro before s after ht hs
  obtain ⟨middle, rfl, -⟩ | ⟨middle, -, ht'⟩ := append_eq_append_cons ht
  · exact absurd hs (hquiet s (by simp))
  · exact h middle s after ht' hs

theorem DisallowedAfter.prepend (h : DisallowedAfter commits A t') (hquiet : Quiet commits t) :
    DisallowedAfter commits A (t ++ t') := by
  intro before s after ht hs
  obtain ⟨middle, rfl, -⟩ | ⟨middle, -, ht'⟩ := append_eq_append_cons ht
  · exact absurd hs (hquiet s (by simp))
  · exact h middle s after ht' hs

/-- More steps with allowed choices. -/
theorem AllowedAfter.append (h : AllowedAfter commits A t) (hquiet : Quiet commits t')
    (hall : ∀ x ∈ t', A x.op x.choice) : AllowedAfter commits A (t ++ t') := by
  intro before s after ht hs
  obtain ⟨middle, htm, rfl⟩ | ⟨middle, -, rfl⟩ := append_eq_append_cons ht
  · intro x hx
    exact (List.mem_append.1 hx).elim (h before s middle htm hs x) (hall x)
  · exact absurd hs (hquiet s (by simp))

/-- More steps, with a reason to raise before them or among them. -/
theorem DisallowedAfter.append (hquiet : Quiet commits t')
    (h : DisallowedAfter commits A t ∨ ∃ x ∈ t', ¬ A x.op x.choice) :
    DisallowedAfter commits A (t ++ t') := by
  intro before s after ht hs
  obtain ⟨middle, htm, rfl⟩ | ⟨middle, -, rfl⟩ := append_eq_append_cons ht
  · obtain h | ⟨x, hx, hbad⟩ := h
    · obtain ⟨x, hx, hbad⟩ := h before s middle htm hs
      exact ⟨x, List.mem_append_left _ hx, hbad⟩
    · exact ⟨x, List.mem_append_right _ hx, hbad⟩
  · exact absurd hs (hquiet s (by simp))

/-! ### Programs that commit -/

/-- The program returns with allowed choices after a committing step, and raises for another one. -/
def DecidedAfter (act : Act S ε W C) (commits : Step S C W → Prop) (A : S.Op → C → Prop)
    (p : Prog S ε α) (w : W) : Prop :=
  traced act p (fun _ _ t => AllowedAfter commits A t) (fun _ _ t => DisallowedAfter commits A t) w

/-- An operation that no step commits with. -/
def Noncommittal (commits : Step S C W → Prop) (o : S.Op) : Prop := ∀ c w, ¬ commits ⟨o, c, w⟩

theorem traced_quiet (hp : p.Uses (Noncommittal commits)) :
    traced act p (fun _ _ t => Quiet commits t) (fun _ _ t => Quiet commits t) w :=
  traced_mono (traced_of_uses hp) (fun _ _ _ h s hs => h s hs s.choice s.before)
    fun _ _ _ h s hs => h s hs s.choice s.before

theorem decidedAfter_of_quiet (hp : p.Uses (Noncommittal commits)) :
    DecidedAfter act commits A p w :=
  traced_mono (traced_quiet hp) (fun _ _ _ h => h.allowedAfter) fun _ _ _ h => h.disallowedAfter

/-- What is ensured whatever is chosen. -/
theorem traced_of_ensures {Q : α → W → Prop} (h : ensures (act.allowing fun _ _ => True) p Q w) :
    traced act p (fun a w' _ => Q a w') (fun _ _ _ => True) w :=
  traced_mono (traced_of_wp h) (fun _ _ _ h => h fun _ _ => trivial) fun _ _ _ _ => trivial

/-- One operation: it may commit if it goes through, but not if it raises. -/
theorem decidedAfter_perform {o : S.Op}
    (h : ∀ c e w', act o c w = (.error e, w') → ¬ commits ⟨o, c, w⟩) :
    DecidedAfter act commits A (Prog.perform o) w := by
  refine traced_perform.2 fun c => ⟨fun _ _ _ => allowedAfter_singleton _, fun e w' he => ?_⟩
  have hquiet : Quiet commits [⟨o, c, w⟩] := fun s hs => by
    obtain rfl := List.mem_singleton.1 hs
    exact h c e w' he
  exact hquiet.disallowedAfter

/-- After a program that does not commit. -/
theorem DecidedAfter.bind {f : α → Prog S ε β} {Q : α → W → Prop}
    (hquiet : p.Uses (Noncommittal commits)) (hp : ensures (act.allowing fun _ _ => True) p Q w)
    (hf : ∀ a w', Q a w' → DecidedAfter act commits A (f a) w') :
    DecidedAfter act commits A (p >>= f) w := by
  refine traced_bind.2 (traced_mono (traced_and (traced_quiet hquiet) (traced_of_ensures hp))
    (fun a w' t h => ?_) fun _ _ _ h => h.1.disallowedAfter)
  exact traced_mono (hf a w' h.2) (fun _ _ _ ht => ht.prepend h.1) fun _ _ _ ht => ht.prepend h.1

theorem DecidedAfter.map {f : α → β} (h : DecidedAfter act commits A p w) :
    DecidedAfter act commits A (p >>= fun a => Pure.pure (f a)) w := by
  refine traced_bind.2 (traced_mono h (fun a w' t ht => ?_) fun _ _ _ => id)
  show AllowedAfter commits A (t ++ [])
  rwa [List.append_nil]

/-- Before a program that does not commit, and is decided where the first one returns. -/
theorem DecidedAfter.then {f : α → Prog S ε β} {Q : α → W → Prop}
    (hp : DecidedAfter act commits A p w) (hq : ensures (act.allowing fun _ _ => True) p Q w)
    (hquiet : ∀ a, (f a).Uses (Noncommittal commits))
    (hf : ∀ a w', Q a w' → Decided act A (f a) w') : DecidedAfter act commits A (p >>= f) w := by
  refine traced_bind.2 (traced_mono (traced_and hp (traced_of_ensures hq)) (fun a w' t h => ?_)
    fun _ _ _ h => h.1)
  exact traced_mono (traced_and (traced_quiet (hquiet a)) (hf a w' h.2))
    (fun _ _ _ ht => h.1.append ht.1 ht.2) fun _ _ _ ht => .append ht.1 (.inr ht.2)

/-- With a `finally` clause that does not commit, and is decided. -/
theorem DecidedAfter.tryFinally {f : Prog S ε Unit} (hp : DecidedAfter act commits A p w)
    (hquiet : f.Uses (Noncommittal commits)) (hf : ∀ w', Decided act A f w') :
    DecidedAfter act commits A (p.tryFinally f) w := by
  refine traced_tryFinally.2 (traced_mono hp (fun a w' t h => ?_) fun e w' t h => ?_)
  · exact traced_mono (traced_and (traced_quiet hquiet) (hf w'))
      (fun _ _ _ ht => h.append ht.1 ht.2) fun _ _ _ ht => .append ht.1 (.inr ht.2)
  · exact traced_mono (traced_quiet hquiet) (fun _ _ _ ht => .append ht (.inl h))
      fun _ _ _ ht => .append ht (.inl h)

end Interactive
