import Ps2Ripper.Interactive.Contract

/-!
# Programs that share a world

Several programs run at the same time: in each step one of them calls its next operation, and the
answer may change the world for all of them.

* `Weaves`: the runs, with the list of their events;
* `Weaves.invariant`: each program keeps what was guaranteed for it in an environment of its own, as
  long as the environments can be kept in agreement with the shared world;
* `Leads`: the steps of one program while the others wait, and how they pass through the parts of a
  program.
-/

namespace Interactive

variable {S : Signature} {ε α β W G ι : Type}

/-- One operation of one of the programs, and the world that it left behind. -/
structure Event (S : Signature) (ι W : Type) where
  party : ι
  op : S.Op
  after : W

/-- What is left of each of the programs, and the world that they share. -/
structure Pool (S : Signature) (ε α ι W : Type) where
  programs : ι → Prog S ε α
  world : W

/-- What can be answered to each of the programs. -/
abbrev Surroundings (S : Signature) (ε ι W : Type) : Type :=
  ι → W → (o : S.Op) → Except ε (S.Answer o) → W → Prop

variable [DecidableEq ι]

/-- The runs that start in a pool. -/
inductive Weaves (env : Surroundings S ε ι W) (s₀ : Pool S ε α ι W) :
    List (Event S ι W) → Pool S ε α ι W → Prop
  | start : Weaves env s₀ [] s₀
  | step {t : List (Event S ι W)} {s : Pool S ε α ι W} {i : ι} {o : S.Op}
      {k : Except ε (S.Answer o) → Prog S ε α} {r : Except ε (S.Answer o)} {w : W} :
      Weaves env s₀ t s → s.programs i = .call o k → env i s.world o r w →
      Weaves env s₀ (t ++ [⟨i, o, w⟩]) ⟨Function.update s.programs i (k r), w⟩

/-- Every event meets a condition on what has happened before it. -/
def Meets (ok : List (Event S ι W) → Event S ι W → Prop) (t : List (Event S ι W)) : Prop :=
  ∀ before e after, t = before ++ e :: after → ok before e

omit [DecidableEq ι] in
/-- An event of a longer run is the last one, or an event of the shorter run. -/
theorem eq_or_of_append_singleton {t before after : List (Event S ι W)} {e e' : Event S ι W}
    (h : t ++ [e] = before ++ e' :: after) :
    (before = t ∧ e' = e) ∨ ∃ after', after = after' ++ [e] ∧ t = before ++ e' :: after' := by
  obtain rfl | ⟨after', x, rfl⟩ := List.eq_nil_or_concat after
  · obtain ⟨rfl, hx⟩ := List.append_inj' h rfl
    cases hx
    exact .inl ⟨rfl, rfl⟩
  · rw [List.concat_eq_append, ← List.cons_append, ← List.append_assoc] at h
    obtain ⟨rfl, hx⟩ := List.append_inj' h rfl
    cases hx
    exact .inr ⟨after', List.concat_eq_append, rfl⟩

omit [DecidableEq ι] in
theorem meets_append_singleton {ok : List (Event S ι W) → Event S ι W → Prop}
    {t : List (Event S ι W)} {e : Event S ι W} : Meets ok (t ++ [e]) ↔ Meets ok t ∧ ok t e := by
  refine ⟨fun h => ⟨fun before e' after ht => h before e' (after ++ [e]) (by simp [ht]),
    h t e [] rfl⟩, fun ⟨h, he⟩ before e' after ht => ?_⟩
  obtain ⟨rfl, rfl⟩ | ⟨after', -, rfl⟩ := eq_or_of_append_singleton ht
  · exact he
  · exact h before e' after' rfl

/-- **Invariants of all runs.** Each program has a ghost state and a contract over it.  If every
event that the contracts allow can be answered in them such that `R` is kept, then `R` holds in
every run, and so does what the contracts guarantee for the programs. -/
theorem Weaves.invariant {env : Surroundings S ε ι W} {s₀ s : Pool S ε α ι W}
    {t : List (Event S ι W)} {K : List (Event S ι W) → Event S ι W → Prop}
    {c : ι → Contract S ε G} {R : List (Event S ι W) → (ι → G) → W → Prop} {Q : ι → α → G → Prop}
    {E : ι → ε → G → Prop} {g : ι → G}
    (step : ∀ t g w i o r w', R t g w → (c i).may (g i) o → env i w o r w' → K t ⟨i, o, w'⟩ →
      ∃ g', (c i).answers (g i) o r g' ∧ R (t ++ [⟨i, o, w'⟩]) (Function.update g i g') w')
    (hwp : ∀ i, wp (c i) (s₀.programs i) (Q i) (E i) (g i)) (hR : R [] g s₀.world)
    (hrun : Weaves env s₀ t s) (hok : Meets K t) :
    ∃ g', R t g' s.world ∧ ∀ i, wp (c i) (s.programs i) (Q i) (E i) (g' i) := by
  induction hrun with
  | start => exact ⟨g, hR, hwp⟩
  | @step t s i o k r w _ hi hanswer ih =>
    obtain ⟨hok, hlast⟩ := meets_append_singleton.1 hok
    obtain ⟨g', hR', hwp'⟩ := ih hok
    have hcall := hwp' i
    rw [hi] at hcall
    obtain ⟨gi, hgi, hR''⟩ := step t g' s.world i o r w hR' hcall.1 hanswer hlast
    refine ⟨_, hR'', fun j => ?_⟩
    by_cases hj : j = i
    · subst hj
      simp only [Function.update_self]
      exact hcall.2 r gi hgi
    · simp only [Function.update_of_ne hj]
      exact hwp' j

/-! ### One program while the others wait -/

/-- The steps of one program whose operations are answered by `answer`. -/
inductive Leads (answer : W → (o : S.Op) → Except ε (S.Answer o) → W → Prop) :
    Prog S ε α → W → Prog S ε α → W → Prop
  | refl {p : Prog S ε α} {w : W} : Leads answer p w p w
  | call {o : S.Op} {k : Except ε (S.Answer o) → Prog S ε α} {r : Except ε (S.Answer o)}
      {q : Prog S ε α} {w w' w'' : W} :
      answer w o r w' → Leads answer (k r) w' q w'' → Leads answer (.call o k) w q w''

section Leads

variable {answer : W → (o : S.Op) → Except ε (S.Answer o) → W → Prop} {p q : Prog S ε α}
  {w w' w'' : W}

theorem Leads.trans {r : Prog S ε α} (h : Leads answer p w q w') (h' : Leads answer q w' r w'') :
    Leads answer p w r w'' := by
  induction h with
  | refl => exact h'
  | call ha _ ih => exact .call ha (ih h')

theorem Leads.bind {f : α → Prog S ε β} (h : Leads answer p w q w') :
    Leads answer (p >>= f) w (q >>= f) w' := by
  induction h with
  | refl => exact .refl
  | call ha _ ih => exact .call ha ih

/-- A program that leads to a result leads on to what follows it. -/
theorem Leads.bind_of_pure {a : α} {f : α → Prog S ε β} {q : Prog S ε β}
    (h : Leads answer p w (.pure a) w') (h' : Leads answer (f a) w' q w'') :
    Leads answer (p >>= f) w q w'' :=
  h.bind.trans h'

theorem Leads.tryCatch {f : ε → Prog S ε α} (h : Leads answer p w q w') :
    Leads answer (p.tryCatch f) w (q.tryCatch f) w' := by
  induction h with
  | refl => exact .refl
  | call ha _ ih => exact .call ha ih

theorem Leads.tryFinally {f : Prog S ε Unit} (h : Leads answer p w q w') :
    Leads answer (p.tryFinally f) w (q.tryFinally f) w' := by
  induction h with
  | refl => exact .refl
  | call ha _ ih => exact .call ha ih

/-- A program that is guaranteed not to raise leads to its result. -/
theorem exists_leads_of_wp {c : Contract S ε W} {Q : α → W → Prop}
    (hanswer : ∀ w o, ∃ r w', answer w o r w' ∧ c.answers w o r w')
    (h : wp c p Q (fun _ _ => False) w) : ∃ a w', Leads answer p w (.pure a) w' ∧ Q a w' := by
  induction p generalizing w with
  | pure a => exact ⟨a, w, .refl, h⟩
  | raise e => exact h.elim
  | call o k ih =>
    obtain ⟨r, w', ha, hc⟩ := hanswer w o
    obtain ⟨a, w'', hleads, hQ⟩ := ih r (h.2 r w' hc)
    exact ⟨a, w'', .call ha hleads, hQ⟩

/-- The steps of one program are a run of the pool. -/
theorem Weaves.leads {env : Surroundings S ε ι W} {s₀ s : Pool S ε α ι W} {i : ι}
    {t : List (Event S ι W)} (hs : Weaves env s₀ t s) (hi : s.programs i = p)
    (h : Leads (env i) p s.world q w') :
    ∃ t', Weaves env s₀ (t ++ t') ⟨Function.update s.programs i q, w'⟩ ∧
      ∀ e ∈ t', e.party = i := by
  generalize hw : s.world = w at h
  induction h generalizing s t with
  | @refl p w =>
    refine ⟨[], ?_, by simp⟩
    rw [← hi, Function.update_eq_self, ← hw, List.append_nil]
    exact hs
  | @call o k r q w w' w'' ha _ ih =>
    obtain ⟨t', h', hparty⟩ := ih (s := ⟨Function.update s.programs i (k r), w'⟩)
      (hs.step hi (by rw [hw]; exact ha)) (Function.update_self ..) rfl
    exact ⟨⟨i, o, w'⟩ :: t', by simpa using h', by simpa using hparty⟩

end Leads

end Interactive
