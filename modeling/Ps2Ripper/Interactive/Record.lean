import Ps2Ripper.Interactive.Endings

/-!
# Records of a run

A contract can be made to record what it is asked and what it answers.  What is guaranteed of the
records under such a contract holds of the records of every run.

* `Contract.recording`: a contract whose worlds carry the records that were made;
* `records`: the records of one run;
* `records_of_wp`: soundness;
* `Contract.anything`: the contract without any promise, which every sequence of handlers keeps to.
-/

namespace Interactive

variable {S : Signature} {ε α W R : Type}

/-- `c`, where each operation with its answer leaves the records that `f` makes of it. -/
def Contract.recording (c : Contract S ε W) (f : (o : S.Op) → Except ε (S.Answer o) → List R) :
    Contract S ε (W × List R) where
  may s o := c.may s.1 o
  answers s o r s' := c.answers s.1 o r s'.1 ∧ s'.2 = s.2 ++ f o r

/-- The records that `f` makes of a run. -/
def records (f : (o : S.Op) → Except ε (S.Answer o) → List R) (h : ℕ → Handler S ε W)
    (p : Prog S ε α) (n : ℕ) (w : W) : List R :=
  (answers h p n w).flatMap fun a => f a.1 a.2

/-- Nothing is promised about any answer. -/
def Contract.anything : Contract S ε W := ⟨fun _ _ => True, fun _ _ _ _ => True⟩

theorem anything_admits (h : ℕ → Handler S ε W) : Contract.anything.Admits h := fun _ _ _ => trivial

variable {c : Contract S ε W} {f : (o : S.Op) → Except ε (S.Answer o) → List R}
  {h : ℕ → Handler S ε W}

/-- **Soundness.** What is guaranteed of the records holds of those of every run. -/
theorem records_of_wp (hh : c.Admits h) {p : Prog S ε α} {Q : α → W × List R → Prop}
    {E : ε → W × List R → Prop} {n : ℕ} {w : W} {log : List R}
    (hp : wp (c.recording f) p Q E (w, log)) :
    (∀ a, (run h p n w).result = .ok a → Q a ((run h p n w).world, log ++ records f h p n w)) ∧
      (∀ e, (run h p n w).result = .error e →
        E e ((run h p n w).world, log ++ records f h p n w)) := by
  induction p generalizing n w log with
  | pure a =>
    have hp : Q a (w, log ++ []) := by rwa [List.append_nil]
    exact ⟨by rintro _ ⟨⟩; exact hp, by rintro _ ⟨⟩⟩
  | raise e =>
    have hp : E e (w, log ++ []) := by rwa [List.append_nil]
    exact ⟨by rintro _ ⟨⟩, by rintro _ ⟨⟩; exact hp⟩
  | call o k ih =>
    have hk : wp (c.recording f) (k (h n w o).1) Q E ((h n w o).2, log ++ f o (h n w o).1) :=
      hp.2 _ (_, _) ⟨hh n w o, rfl⟩
    have hnext := ih (h n w o).1 (n := n + 1) hk
    rw [List.append_assoc] at hnext
    exact hnext

/-- A guarantee that does not speak of records. -/
theorem wp_recording {p : Prog S ε α} {Q : α → W → Prop} {E : ε → W → Prop} {w : W} {log : List R}
    (hp : wp c p Q E w) :
    wp (c.recording f) p (fun a s => Q a s.1) (fun e s => E e s.1) (w, log) := by
  induction p generalizing w log with
  | pure a => exact hp
  | raise e => exact hp
  | call o k ih =>
    refine ⟨hp.1, ?_⟩
    rintro r ⟨w', log'⟩ ⟨hr, -⟩
    exact ih r (hp.2 r w' hr)

/-- A guarantee that was found with the help of records. -/
theorem wp_of_recording {p : Prog S ε α} {Q : α → W → Prop} {E : ε → W → Prop} {w : W}
    (log : List R) (hp : wp (c.recording f) p (fun a s => Q a s.1) (fun e s => E e s.1) (w, log)) :
    wp c p Q E w := by
  induction p generalizing w log with
  | pure a => exact hp
  | raise e => exact hp
  | call o k ih => exact ⟨hp.1, fun r w' hr => ih r _ (hp.2 r (w', log ++ f o r) ⟨hr, rfl⟩)⟩

/-- A program whose operations leave no record. -/
theorem wp_unrecorded {p : Prog S ε α} {P : S.Op → Prop} (hf : ∀ o, P o → ∀ r, f o r = [])
    (hp : p.Uses P) (hc : c.Permissive) {s : W × List R} :
    wp (c.recording f) p (fun _ s' => s'.2 = s.2) (fun _ s' => s'.2 = s.2) s := by
  refine wp_of_uses (R := fun s s' : W × List R => s'.2 = s.2) (fun _ => rfl)
    (fun h h' => h'.trans h) (fun s' o _ _ => hc s'.1 o) ?_ hp
  rintro s' o r s'' ho ⟨-, hlog⟩
  rw [hlog, hf o ho r, List.append_nil]

theorem anything_permissive : (Contract.anything : Contract S ε W).Permissive := fun _ _ => trivial

end Interactive
