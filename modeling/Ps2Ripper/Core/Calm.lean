import Ps2Ripper.Core.Effects

/-!
# Runs without failures

`calm` is the environment in which every step goes through and nobody asks for cancellation.  In it
a program either returns or raises according to the disc, the free space and the files that are
there.

* `Succeeds`: a program does not raise;
* `consult`: the result of a program that only talks to the drive;
* the rules for the operations of the file system.
-/

namespace Ps2Ripper

open Interactive Prog

variable {m : Machine} {w : World} {α : Type}

/-- Every step goes through. -/
def calm (m : Machine) : Contract interface PyError World := allowing m fun _ c => c = {}

theorem wp_call_calm {o : Op} {Q : o.Answer → World → Prop} {E : PyError → World → Prop} :
    wp (calm m) (call o) Q E w ↔
      (∀ a w', succeed m {} w o = (.ok a, w') → Q a w') ∧
        (∀ e w', succeed m {} w o = (.error e, w') → E e w') := by
  rw [calm, wp_call_iff]
  exact ⟨fun h => h {} rfl, fun h c hc => hc ▸ h⟩

/-- A program does not raise. -/
def Succeeds (m : Machine) (p : Program α) (w : World) : Prop :=
  wp (calm m) p (fun _ _ => True) (fun _ _ => False) w

theorem Succeeds.and {p : Program α} {Q : α → World → Prop} (h : Succeeds m p w)
    (hq : ensures (calm m) p Q w) : wp (calm m) p Q (fun _ _ => False) w :=
  wp_mono (wp_and h hq) (fun _ _ => And.right) fun _ _ => And.left

theorem Succeeds.bind {β : Type} {p : Program α} {f : α → Program β} {Q : α → World → Prop}
    (hp : wp (calm m) p Q (fun _ _ => False) w) (hf : ∀ a w', Q a w' → Succeeds m (f a) w') :
    Succeeds m (p >>= f) w :=
  wp_seq hp hf fun _ _ => id

theorem Succeeds.of_wp {p : Program α} {Q : α → World → Prop}
    (h : wp (calm m) p Q (fun _ _ => False) w) : Succeeds m p w :=
  wp_mono h (fun _ _ _ => trivial) fun _ _ => id

/-- What does not depend on the world holds after every run if it holds before. -/
theorem wp_const {P : Prop} (hP : P) (p : Program α) :
    wp (calm m) p (fun _ _ => P) (fun _ _ => P) w := by
  induction p generalizing w with
  | pure a => exact hP
  | raise e => exact hP
  | call o k ih => exact ⟨trivial, fun r w' _ => ih r⟩

/-! ### Programs that only talk to the drive -/

/-- The world of an empty file system. -/
def World.blank : World := { files := fun _ => none }

/-- The result of a program that looks at no file. -/
def consult (m : Machine) : Program α → Except PyError α
  | .pure a => .ok a
  | .raise e => .error e
  | .call o k => consult m (k (succeed m {} World.blank o).1)

theorem succeed_congr {o : Op} (h : o.Within ∅ ∅) (c : Choice) (w w' : World) :
    (succeed m c w o).1 = (succeed m c w' o).1 := by
  cases o with
  | isoRecord source isoPath => cases source <;> simp_all [succeed, World.source]
  | isoFile source isoPath => cases source <;> simp_all [succeed, World.source]
  | testUnitReady | dvdReadStructure =>
    simp only [succeed]
    split <;> rfl
  | _ => first
    | rfl
    | simp at h

/-- Without failures such a program has the result that the drive determines. -/
theorem calm_consult {p : Program α} (hp : p.Uses (Op.Within ∅ ∅)) :
    wp (calm m) p (fun a w' => consult m p = .ok a ∧ Frame ∅ w w')
      (fun _ _ => ∀ a, consult m p ≠ .ok a) w := by
  have hresult : wp (calm m) p (fun a _ => consult m p = .ok a)
      (fun _ _ => ∀ a, consult m p ≠ .ok a) w := by
    induction p generalizing w with
    | pure a => rfl
    | raise e => exact fun a h => by cases h
    | call o k ih =>
      refine ⟨trivial, ?_⟩
      rintro r w' ⟨c, rfl, hc⟩
      have hr : r = (succeed m {} World.blank o).1 := by
        rw [succeed_congr hp.1 {} World.blank w]
        exact (congrArg Prod.fst hc).symm
      simp only [consult, ← hr]
      exact ih r (hp.2 r)
  exact wp_mono (wp_and hresult (wp_frame hp)) (fun _ _ => id) fun _ _ => And.left

/-- A program that uses only operations which the oracle lets through runs as without failures. -/
theorem wp_of_calm {σ : Oracle} {P : Op → Prop} {p : Program α} {Q : α → World → Prop}
    {E : PyError → World → Prop} (hσ : ∀ o, P o → σ 0 o = {}) (hp : p.Uses P)
    (h : wp (calm m) p Q E w) : wp (allowing m fun o c => c = σ 0 o) p Q E w := by
  refine wp_of_uses_le (c := calm m) (fun _ _ _ _ => trivial) ?_ hp h
  rintro w o r w' ho ⟨c, rfl, hc⟩
  exact ⟨σ 0 o, hσ o ho, hc⟩

/-! ### Rules for single operations -/

/-- An operation that goes through. -/
theorem calm_call {o : Op} {a : o.Answer} {v : World} {Q : o.Answer → World → Prop}
    {E : PyError → World → Prop} (h : succeed m {} w o = (.ok a, v)) (hQ : Q a v) :
    wp (calm m) (call o) Q E w := by
  refine wp_call_calm.2 ⟨fun b w'' hb => ?_, fun e w'' he => ?_⟩
  · rw [h] at hb
    cases hb
    exact hQ
  · rw [h] at he
    cases he

theorem calm_write {p : Path} {data : Bytes} :
    wp (calm m) (call (.write p data))
      (fun _ w' => w'.files = Function.update w.files p ((w.files p).map (· ++ data)))
      (fun _ _ => False) w :=
  calm_call rfl rfl

theorem calm_pathExists {p : Path} :
    wp (calm m) (call (.pathExists p)) (fun b w' => b = (w.files p).isSome ∧ w' = w)
      (fun _ _ => False) w :=
  calm_call rfl ⟨rfl, rfl⟩

theorem calm_openExclusive {p : Path} (h : w.files p = none) :
    wp (calm m) (call (.openExclusive p)) (fun _ w' => w' = w.setFile p (some []))
      (fun _ _ => False) w :=
  calm_call (a := ()) (v := w.setFile p (some [])) (by simp [succeed, h]) rfl

theorem calm_openRead {p : Path} {data : Bytes} (h : w.files p = some data) :
    wp (calm m) (call (.openRead p)) (fun a w' => a = data ∧ w' = w) (fun _ _ => False) w :=
  calm_call (a := data) (v := w) (by simp [succeed, h]) ⟨rfl, rfl⟩

theorem calm_stat {p : Path} {data : Bytes} (h : w.files p = some data) :
    wp (calm m) (call (.stat p)) (fun n w' => n = data.length ∧ w' = w) (fun _ _ => False) w :=
  calm_call (a := data.length) (v := w) (by simp [succeed, h]) ⟨rfl, rfl⟩

theorem calm_move {src dst : Path} {data : Bytes} (h : w.files src = some data) :
    wp (calm m) (call (.move src dst))
      (fun _ w' => w'.files = ((w.setFile src none).setFile dst (some data)).files ∧
        w'.fresh = w.fresh) (fun _ _ => False) w :=
  calm_call (a := ()) (v := { (w.setFile src none).setFile dst (some data) with
    moved := w.moved ++ [(dst, data)] }) (by simp only [succeed, h]) ⟨rfl, rfl⟩

/-- A body that does not raise makes the handler irrelevant. -/
theorem calm_tryCatch {p : Program α} {h : PyError → Program α} {Q : α → World → Prop}
    {E : PyError → World → Prop} (hp : wp (calm m) p Q (fun _ _ => False) w) :
    wp (calm m) (p.tryCatch h) Q E w :=
  wp_tryCatch.2 (wp_mono hp (fun _ _ => id) fun _ _ => False.elim)

end Ps2Ripper
