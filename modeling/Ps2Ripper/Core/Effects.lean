import Ps2Ripper.Core.World

/-!
# What operations and programs leave alone

`Op.alters` says which files an operation can change.  A program whose operations stay within a set
of files (`Op.Within`) keeps every other file (`Frame`), publishes nothing, moves nothing and draws
no new name; `wp_frame` derives this from the text of the program alone.  The second half has one
rule for each operation whose effect a later proof depends on.
-/

namespace Ps2Ripper

open Interactive

/-- The files that an operation can change. -/
@[simp] def Op.alters : Op → Path → Prop
  | .openExclusive p, q | .write p _, q | .writeText p _, q | .unlink p, q => q = p
  | .replace src dst, q | .move src dst, q => q = src ∨ q = dst
  | .rmtree d, q => q.dir = d
  | _, _ => False

/-- The files that an operation looks at without changing them. -/
@[simp] def Op.inspects : Op → Path → Prop
  | .pathExists p, q | .openRead p, q | .read p _ _, q | .stat p, q | .fsync p, q
  | .isoRecord (.file p) _, q | .isoFile (.file p) _, q => q = p
  | _, _ => False

/-- The operations that publish a file, move a file or draw a new name. -/
@[simp] def Op.isNotable : Op → Bool
  | .replace .. | .move .. | .mkdtemp _ | .uuid4 => true
  | _ => false

/-- An ordinary operation that looks only at files of `R` and changes only files of `T`. -/
@[simp] def Op.Within (R T : Set Path) (o : Op) : Prop :=
  (∀ q, o.inspects q → q ∈ R) ∧ (∀ q, o.alters q → q ∈ T) ∧ o.isNotable = false

theorem Op.Within.mono {R R' T T' : Set Path} {o : Op} (h : o.Within R T) (hR : R ⊆ R')
    (hT : T ⊆ T') : o.Within R' T' :=
  ⟨fun q hq => hR (h.1 q hq), fun q hq => hT (h.2.1 q hq), h.2.2⟩

/-- Nothing outside `T` has changed, and nothing was published, moved or named. -/
structure Frame (T : Set Path) (w w' : World) : Prop where
  files : ∀ q ∉ T, w'.files q = w.files q
  published : w'.published = w.published
  moved : w'.moved = w.moved
  fresh : w'.fresh = w.fresh

namespace Frame

variable {T T' : Set Path} {w w' w'' : World}

theorem refl : Frame T w w := ⟨fun _ _ => rfl, rfl, rfl, rfl⟩

theorem trans (h : Frame T w w') (h' : Frame T w' w'') : Frame T w w'' :=
  ⟨fun q hq => (h'.files q hq).trans (h.files q hq), h'.published.trans h.published,
    h'.moved.trans h.moved, h'.fresh.trans h.fresh⟩

theorem mono (h : Frame T w w') (hT : T ⊆ T') : Frame T' w w' :=
  ⟨fun q hq => h.files q fun hq' => hq (hT hq'), h.published, h.moved, h.fresh⟩

theorem files_eq (h : Frame ∅ w w') : w'.files = w.files :=
  funext fun q => h.files q (Set.notMem_empty q)

end Frame

variable {m : Machine} {A : Op → Choice → Prop} {o : Op} {w w' : World} {α : Type}

/-- An operation returns only by going through. -/
theorem succeed_of_perform_ok {c : Choice} {a : o.Answer} (h : perform m o c w = (.ok a, w')) :
    succeed m c w o = (.ok a, w') := by
  unfold perform at h
  split at h
  · exact h
  · split at h
    · exact h
    · cases h

/-- An operation that can fail returns only without a fault. -/
theorem fault_of_perform_ok {c : Choice} {a : o.Answer} (ho : o.infallible = false)
    (h : perform m o c w = (.ok a, w')) : c.fault = none := by
  unfold perform at h
  split at h
  · assumption
  · rw [ho] at h
    cases h

/-- An operation that raises either went through with an error or failed. -/
theorem cases_of_perform_error {c : Choice} {e : PyError} (h : perform m o c w = (.error e, w')) :
    succeed m c w o = (.error e, w') ∨
      (c.fault = some e ∧ o.infallible = false ∧ w' = fail o c w) := by
  unfold perform at h
  split at h
  · exact .inl h
  · split at h
    · exact .inl h
    · cases h
      exact .inr ⟨‹_›, eq_false_of_ne_true ‹_›, rfl⟩

/-- What holds whether an operation goes through or fails holds after it. -/
theorem of_succeed_of_fail {c : Choice} {P : World → Prop} (hs : P (succeed m c w o).2)
    (hf : P (fail o c w)) : P (perform m o c w).2 := by
  unfold perform
  split
  · exact hs
  · split
    · exact hs
    · exact hf

/-- An operation leaves alone what it does not alter. -/
theorem files_of_perform {c : Choice} {q : Path} (h : ¬ o.alters q) :
    (perform m o c w).2.files q = w.files q := by
  have hs : (succeed m c w o).2.files q = w.files q := by
    cases o <;> simp only [Op.alters, not_or] at h <;> simp only [succeed] <;>
      (try split) <;>
      simp_all [World.setFile, World.logRead, World.removeAll, Function.update_of_ne]
  have hf : (fail o c w).files q = w.files q := by
    unfold fail
    split <;> simp_all [Op.alters, World.setFile, World.logRead, Function.update_of_ne]
  exact of_succeed_of_fail (P := fun w' => w'.files q = w.files q) hs hf

/-- The operations that publish a file or draw a new name. -/
@[simp] def Op.isGlobal : Op → Bool
  | .replace .. | .mkdtemp _ | .uuid4 => true
  | _ => false

/-- Only the global operations publish a file or draw a name. -/
theorem published_and_fresh_of_perform {c : Choice} (h : o.isGlobal = false) :
    (perform m o c w).2.published = w.published ∧ (perform m o c w).2.fresh = w.fresh := by
  have hs : (succeed m c w o).2.published = w.published ∧ (succeed m c w o).2.fresh = w.fresh := by
    cases o <;> (try cases h) <;> simp only [succeed] <;> (try split) <;>
      simp [World.setFile, World.logRead, World.removeAll]
  have hf : (fail o c w).published = w.published ∧ (fail o c w).fresh = w.fresh := by
    unfold fail
    split <;> simp [World.setFile, World.logRead]
  exact of_succeed_of_fail
    (P := fun w' => w'.published = w.published ∧ w'.fresh = w.fresh) hs hf

/-- Only a move changes the history of moves. -/
theorem moved_of_not_move {c : Choice} (h : ∀ src dst, o ≠ .move src dst) :
    (perform m o c w).2.moved = w.moved := by
  have hs : (succeed m c w o).2.moved = w.moved := by
    cases o <;> simp only [succeed] <;> (try split) <;>
      simp_all [World.setFile, World.logRead, World.removeAll]
  have hf : (fail o c w).moved = w.moved := by
    unfold fail
    split <;> simp_all [World.setFile, World.logRead]
  exact of_succeed_of_fail (P := fun w' => w'.moved = w.moved) hs hf

/-- Only a rename publishes a file. -/
theorem published_of_not_replace {c : Choice} (h : ∀ src dst, o ≠ .replace src dst) :
    (perform m o c w).2.published = w.published := by
  have hs : (succeed m c w o).2.published = w.published := by
    cases o <;> simp only [succeed] <;> (try split) <;>
      simp_all [World.setFile, World.logRead, World.removeAll]
  have hf : (fail o c w).published = w.published := by
    unfold fail
    split <;> simp [World.setFile, World.logRead]
  exact of_succeed_of_fail (P := fun w' => w'.published = w.published) hs hf

/-- The histories and the new names only change by the notable operations. -/
theorem histories_of_perform {c : Choice} (h : o.isNotable = false) :
    (perform m o c w).2.published = w.published ∧ (perform m o c w).2.moved = w.moved ∧
      (perform m o c w).2.fresh = w.fresh := by
  have hglobal : o.isGlobal = false := by
    cases o <;> simp_all
  have hmove : ∀ src dst, o ≠ .move src dst := by
    rintro src dst rfl
    cases h
  obtain ⟨hp, hf⟩ := published_and_fresh_of_perform hglobal
  exact ⟨hp, moved_of_not_move hmove, hf⟩

theorem frame_of_perform {R T : Set Path} {c : Choice} (h : o.Within R T) :
    Frame T w (perform m o c w).2 :=
  have ⟨hp, hm, hf⟩ := histories_of_perform h.2.2
  ⟨fun q hq => files_of_perform fun hq' => hq (h.2.1 q hq'), hp, hm, hf⟩

/-- The frame of a program is read off from the operations that it uses. -/
theorem wp_frame {R T : Set Path} {p : Program α} (hp : p.Uses (Op.Within R T)) :
    wp (allowing m A) p (fun _ w' => Frame T w w') (fun _ w' => Frame T w w') w := by
  refine wp_of_uses (fun _ => Frame.refl) Frame.trans (fun _ _ _ _ => trivial) ?_ hp
  rintro w o r w' ho ⟨c, -, hc⟩
  have hf := frame_of_perform (m := m) (w := w) (c := c) ho
  rwa [hc] at hf

theorem ensures_frame {R T : Set Path} {p : Program α} {Q : α → World → Prop}
    (hp : p.Uses (Op.Within R T)) (h : ensures (allowing m A) p Q w) :
    ensures (allowing m A) p (fun a w' => Q a w' ∧ Frame T w w') w :=
  ensures_and h (ensures_of_wp (wp_frame hp))

theorem uses_of {P : Op → Prop} (h : P o) : (call o).Uses P := Prog.uses_perform.2 h

/-- An operation that changes only files of `T`, possibly by moving one, and publishes nothing. -/
@[simp] def Op.AltersOnly (T : Set Path) (o : Op) : Prop :=
  (∀ q, o.alters q → q ∈ T) ∧ o.isGlobal = false

theorem altersOnly_of_within {R T T' : Set Path} {p : Program α} (hp : p.Uses (Op.Within R T))
    (hT : T ⊆ T') : p.Uses (Op.AltersOnly T') :=
  hp.mono fun o h => ⟨fun q hq => hT (h.2.1 q hq), by cases o <;> simp_all⟩

/-- Nothing outside `T` has changed, and nothing was published or named. -/
structure Kept (T : Set Path) (w w' : World) : Prop where
  files : ∀ q ∉ T, w'.files q = w.files q
  published : w'.published = w.published
  fresh : w'.fresh = w.fresh

theorem Kept.refl {T : Set Path} : Kept T w w := ⟨fun _ _ => rfl, rfl, rfl⟩

theorem Kept.trans {T : Set Path} {w'' : World} (h : Kept T w w') (h' : Kept T w' w'') :
    Kept T w w'' :=
  ⟨fun q hq => (h'.files q hq).trans (h.files q hq), h'.published.trans h.published,
    h'.fresh.trans h.fresh⟩

theorem kept_of_perform {T : Set Path} {c : Choice} (h : o.AltersOnly T) :
    Kept T w (perform m o c w).2 :=
  have ⟨hp, hf⟩ := published_and_fresh_of_perform h.2
  ⟨fun q hq => files_of_perform fun hq' => hq (h.1 q hq'), hp, hf⟩

/-- A program leaves alone what none of its operations alters, also when it moves files. -/
theorem wp_kept {T : Set Path} {p : Program α} (hp : p.Uses (Op.AltersOnly T)) :
    wp (allowing m A) p (fun _ w' => Kept T w w') (fun _ w' => Kept T w w') w := by
  refine wp_of_uses (fun _ => Kept.refl) Kept.trans (fun _ _ _ _ => trivial) ?_ hp
  rintro w o r w' ho ⟨c, -, hc⟩
  have hk := kept_of_perform (m := m) (w := w) (c := c) ho
  rwa [hc] at hk

/-- A file that no operation of a program alters stays as it is. -/
theorem wp_files_of_uses {q : Path} {p : Program α} (hp : p.Uses fun (o : Op) => ¬ o.alters q) :
    wp (allowing m A) p (fun _ w' => w'.files q = w.files q) (fun _ w' => w'.files q = w.files q)
      w := by
  refine wp_of_uses (R := fun w w' : World => w'.files q = w.files q) (fun _ => rfl)
    (fun h h' => h'.trans h) (fun _ _ _ _ => trivial) ?_ hp
  rintro w o r w' ho ⟨c, -, hc⟩
  have hf := files_of_perform (m := m) (w := w) (c := c) ho
  rwa [hc] at hf

/-! ### Choices and answers that let a run go on -/

/-- An answer after which a run may go on: no failure, and no cancellation. -/
def Op.Fine : (o : Op) → Except PyError o.Answer → Prop
  | .isRequested, .ok requested => requested = false
  | _, .ok _ => True
  | _, .error _ => False

theorem strict_call {o : Op} (h : o ≠ .isRequested) : (call o).Strict Op.Fine := by
  refine Prog.strict_perform fun a => ?_
  cases o with
  | isRequested => exact absurd rfl h
  | _ => trivial

/-- A choice that lets an operation go through, and asks for no cancellation. -/
def Clean (o : Op) (c : Choice) : Prop :=
  (o.infallible = false → c.fault = none) ∧ (o = .isRequested → c.request = false)

theorem perform_of_clean {c : Choice} (h : Clean o c) : perform m o c w = succeed m c w o := by
  unfold perform
  split
  · rfl
  · rename_i e he
    cases ho : o.infallible with
    | true => rfl
    | false => exact absurd (h.1 ho) (by rw [he]; exact Option.some_ne_none e)

/-- Only clean choices have fine answers. -/
theorem clean_of_fine {c : Choice} (h : o.Fine (perform m o c w).1) : Clean o c := by
  refine ⟨fun ho => ?_, fun ho => ?_⟩
  · rcases hp : perform m o c w with ⟨e | a, w'⟩
    · rw [hp] at h
      cases o <;> exact h.elim
    · exact fault_of_perform_ok ho hp
  · subst ho
    rcases hp : perform m .isRequested c w with ⟨e | requested, w'⟩
    · rw [hp] at h
      exact h.elim
    · rw [hp] at h
      cases succeed_of_perform_ok hp
      exact h

/-! ### Rules for single operations -/

theorem wp_call_iff {Q : o.Answer → World → Prop} {E : PyError → World → Prop} :
    wp (allowing m A) (call o) Q E w ↔
      ∀ c, A o c → (∀ a w', perform m o c w = (.ok a, w') → Q a w') ∧
        (∀ e w', perform m o c w = (.error e, w') → E e w') := by
  rw [call, wp_perform]
  constructor
  · rintro ⟨-, hok, herr⟩ c hc
    exact ⟨fun a w' h => hok a w' ⟨c, hc, h⟩, fun e w' h => herr e w' ⟨c, hc, h⟩⟩
  · intro h
    exact ⟨trivial, fun a w' ⟨c, hc, hp⟩ => (h c hc).1 a w' hp,
      fun e w' ⟨c, hc, hp⟩ => (h c hc).2 e w' hp⟩

/-- To guarantee something when an operation returns, look at how it goes through. -/
theorem ensures_call {Q : o.Answer → World → Prop}
    (h : ∀ c, A o c → ∀ a w', succeed m c w o = (.ok a, w') → Q a w') :
    ensures (allowing m A) (call o) Q w :=
  wp_call_iff.2 fun c hc => ⟨fun a w' hp => h c hc a w' (succeed_of_perform_ok hp),
    fun _ _ _ => trivial⟩

theorem ensures_pathExists {p : Path} :
    ensures (allowing m A) (call (.pathExists p))
      (fun b w' => b = (w.files p).isSome ∧ w' = w) w := by
  refine ensures_call fun c _ a w' h => ?_
  cases h
  exact ⟨rfl, rfl⟩

theorem ensures_openExclusive {p : Path} :
    ensures (allowing m A) (call (.openExclusive p))
      (fun _ w' => w.files p = none ∧ w' = w.setFile p (some [])) w := by
  refine ensures_call fun c _ a w' h => ?_
  simp only [succeed] at h
  split at h
  · cases h
  · cases h
    exact ⟨Option.not_isSome_iff_eq_none.1 ‹_›, rfl⟩

theorem ensures_fsync {p : Path} :
    ensures (allowing m A) (call (.fsync p)) (fun _ w' => w' = w) w := by
  refine ensures_call fun c _ a w' h => ?_
  cases h
  rfl

theorem ensures_stat {p : Path} :
    ensures (allowing m A) (call (.stat p))
      (fun n w' => (∃ data, w.files p = some data ∧ n = data.length) ∧ w' = w) w := by
  refine ensures_call fun c _ a w' h => ?_
  simp only [succeed] at h
  split at h
  · cases h
    exact ⟨⟨_, ‹_›, rfl⟩, rfl⟩
  · cases h

theorem ensures_openRead {p : Path} :
    ensures (allowing m A) (call (.openRead p))
      (fun data w' => w.files p = some data ∧ w' = w) w := by
  refine ensures_call fun c _ a w' h => ?_
  simp only [succeed] at h
  split at h
  · cases h
    exact ⟨‹_›, rfl⟩
  · cases h

theorem perform_readBlocks_ok {c : Choice} {lba n : ℕ} {data : Bytes} {w' : World}
    (h : perform m (.readBlocks lba n) c w = (.ok data, w')) :
    data = m.disc.blocks lba n ∧ w' = w.logRead lba n none true := by
  cases succeed_of_perform_ok h
  exact ⟨rfl, rfl⟩

theorem perform_readBlocks_error {c : Choice} {lba n : ℕ} {e : PyError} {w' : World}
    (h : perform m (.readBlocks lba n) c w = (.error e, w')) : w' = w.logRead lba n none false := by
  obtain h | ⟨-, -, rfl⟩ := cases_of_perform_error h
  · cases h
  · unfold fail
    split <;> simp_all

theorem perform_readCdRaw_ok {c : Choice} {lba n : ℕ} {kind : TrackKind} {data : Bytes} {w' : World}
    (h : perform m (.readCdRaw lba n kind) c w = (.ok data, w')) :
    data = m.disc.raws lba n ∧ w' = w.logRead lba n (some kind) true := by
  cases succeed_of_perform_ok h
  exact ⟨rfl, rfl⟩

theorem perform_readCdRaw_error {c : Choice} {lba n : ℕ} {kind : TrackKind} {e : PyError}
    {w' : World} (h : perform m (.readCdRaw lba n kind) c w = (.error e, w')) :
    w' = w.logRead lba n (some kind) false := by
  obtain h | ⟨-, -, rfl⟩ := cases_of_perform_error h
  · cases h
  · unfold fail
    split <;> simp_all

end Ps2Ripper
