import Ps2Ripper.Imaging.DvdCoverage
import Ps2Ripper.Imaging.VerificationSpec

/-!
# Cleanup among other processes

The functions that write an output look whether it exists, create it exclusively, fill it, and
remove it when anything raises.  Here other processes create files before every operation of a run.

* `Shared`: the world together with a ledger of what the others have put into it;
* `Reserved T`: the call has the paths of `T` to itself and has touched nothing else;
* `cleanup_removesOwn`: the four functions remove exactly their own files, if nobody takes an output
  between the look and the creation;
* `not_cleanup_removesOwn`: otherwise the handler removes a file that the call did not create.
-/

namespace Ps2Ripper

open Interactive Prog

/-- The world, the files that other processes have put into it, and the number of operations so
far. -/
structure Shared where
  world : World
  foreign : Path → Option Bytes
  time : ℕ := 0

namespace Shared

/-- Another process creates a file, if there is none of that name. -/
def create (s : Shared) (f : Path × Bytes) : Shared :=
  if (s.world.files f.1).isSome then s
  else
    { s with
      world := s.world.setFile f.1 (some f.2)
      foreign := Function.update s.foreign f.1 (some f.2) }

/-- What the other processes do before the next operation. -/
def interfere (others : ℕ → List (Path × Bytes)) (s : Shared) : Shared :=
  (others s.time).foldl create s

/-- The other processes go first. -/
def perform (m : Machine) (σ : Oracle) (others : ℕ → List (Path × Bytes)) (o : Op) (s : Shared) :
    Except PyError o.Answer × Shared :=
  let r := Ps2Ripper.perform m o (σ s.time o) (s.interfere others).world
  (r.1, { world := r.2, foreign := (s.interfere others).foreign, time := s.time + 1 })

end Shared

/-- Execute a program among other processes. -/
def executeShared (m : Machine) (σ : Oracle) (others : ℕ → List (Path × Bytes)) {α : Type}
    (p : Program α) (w : World) : Outcome PyError α Shared :=
  run (fun _ s o => s.perform m σ others o) p 0 { world := w, foreign := w.files }

/-- The environment of `executeShared`. -/
def amid (m : Machine) (σ : Oracle) (others : ℕ → List (Path × Bytes)) :
    Contract interface PyError Shared where
  may _ _ := True
  answers s o r s' := s.perform m σ others o = (r, s')

/-- The call has the paths of `T` to itself, and everything else is as the others have left it. -/
structure Reserved (T : Set Path) (s : Shared) : Prop where
  files : ∀ q ∉ T, s.world.files q = s.foreign q
  foreign : ∀ q ∈ T, s.foreign q = none

/-- Nobody creates a file at `p` before the operation `k`. -/
def LeftAlone (others : ℕ → List (Path × Bytes)) (p : Path) (k : ℕ) : Prop :=
  ∀ f ∈ others k, f.1 ≠ p

variable {m : Machine} {σ : Oracle} {others : ℕ → List (Path × Bytes)} {T : Set Path}
  {s s' : Shared}
  {o : Op} {α : Type}

/-! ### One operation -/

theorem Reserved.create {f : Path × Bytes} (h : Reserved T s)
    (hsafe : ∀ q ∈ T, (s.world.files q).isSome ∨ f.1 ≠ q) :
    Reserved T (s.create f) ∧ ∀ q ∈ T, (s.create f).world.files q = s.world.files q := by
  unfold Shared.create
  split
  · exact ⟨h, fun _ _ => rfl⟩
  have hne : ∀ q ∈ T, q ≠ f.1 := by
    rintro q hq rfl
    exact (hsafe _ hq).elim ‹_› fun hne => hne rfl
  refine ⟨⟨fun q hq => ?_, fun q hq => ?_⟩, fun q hq => World.setFile_files_of_ne _ _ (hne q hq)⟩
  · by_cases hqf : q = f.1
    · subst hqf
      simp [World.setFile]
    · rw [World.setFile_files_of_ne _ _ hqf, h.files q hq]
      exact (Function.update_of_ne hqf ..).symm
  · exact (Function.update_of_ne (hne q hq) ..).trans (h.foreign q hq)

theorem Reserved.foldl_create {fs : List (Path × Bytes)} (h : Reserved T s)
    (hsafe : ∀ q ∈ T, (s.world.files q).isSome ∨ ∀ f ∈ fs, f.1 ≠ q) :
    Reserved T (fs.foldl Shared.create s) ∧
      ∀ q ∈ T, (fs.foldl Shared.create s).world.files q = s.world.files q := by
  induction fs generalizing s with
  | nil => exact ⟨h, fun _ _ => rfl⟩
  | cons f fs ih =>
    obtain ⟨hown, hsame⟩ := h.create (f := f) fun q hq => (hsafe q hq).imp_right fun hf =>
      hf f (by simp)
    obtain ⟨hown', hsame'⟩ := ih hown fun q hq => by
      rw [hsame q hq]
      exact (hsafe q hq).imp_right fun hf g hg => hf g (by simp [hg])
    exact ⟨hown', fun q hq => (hsame' q hq).trans (hsame q hq)⟩

/-- Before the next operation, nobody can take a path of `T`. -/
def Safe (others : ℕ → List (Path × Bytes)) (T : Set Path) (s : Shared) : Prop :=
  ∀ q ∈ T, (s.world.files q).isSome ∨ LeftAlone others q s.time

theorem Reserved.interfere (h : Reserved T s) (hsafe : Safe others T s) :
    Reserved T (s.interfere others) ∧
      ∀ q ∈ T, (s.interfere others).world.files q = s.world.files q :=
  h.foldl_create hsafe

/-- What an operation that changes only files of `T` does among other processes. -/
structure Step (m : Machine) (σ : Oracle) (others : ℕ → List (Path × Bytes)) (T : Set Path) (o : Op)
    (s : Shared) (r : Except PyError o.Answer) (s' : Shared) : Prop where
  owns : Reserved T s'
  time : s'.time = s.time + 1
  /-- the operation itself, after the interference -/
  perform : Ps2Ripper.perform m o (σ s.time o) (s.interfere others).world = (r, s'.world)
  before : ∀ q ∈ T, (s.interfere others).world.files q = s.world.files q

theorem step_of_perform (hown : Reserved T s) (hsafe : Safe others T s)
    (halters : ∀ q, o.alters q → q ∈ T) {r : Except PyError o.Answer}
    (h : s.perform m σ others o = (r, s')) : Step m σ others T o s r s' := by
  obtain ⟨hown', hsame⟩ := hown.interfere hsafe
  cases h
  exact
    { owns :=
        { files := fun q hq =>
            (files_of_perform fun hq' => hq (halters q hq')).trans (hown'.files q hq)
          foreign := hown'.foreign }
      time := rfl
      perform := rfl
      before := hsame }

theorem Step.files {r : Except PyError o.Answer} (h : Step m σ others T o s r s') {q : Path}
    (hq : q ∈ T) (halters : ¬ o.alters q) : s'.world.files q = s.world.files q := by
  have hsame := files_of_perform (m := m) (w := (s.interfere others).world)
    (c := σ s.time o) halters
  rw [h.perform] at hsame
  exact hsame.trans (h.before q hq)

theorem wp_amid (hown : Reserved T s) (hsafe : Safe others T s) (halters : ∀ q, o.alters q → q ∈ T)
    {Q : o.Answer → Shared → Prop} {E : PyError → Shared → Prop}
    (hQ : ∀ a s', Step m σ others T o s (.ok a) s' → Q a s')
    (hE : ∀ e s', Step m σ others T o s (.error e) s' → E e s') :
    wp (amid m σ others) (call o) Q E s :=
  wp_perform.2 ⟨trivial, fun a s' h => hQ a s' (step_of_perform hown hsafe halters h),
    fun e s' h => hE e s' (step_of_perform hown hsafe halters h)⟩

theorem safe_empty : Safe others ∅ s := fun _ => False.elim

/-- The call takes a free path for its own. -/
theorem Reserved.take {p : Path} (h : Reserved T s) (hp : s.world.files p = none) :
    Reserved (insert p T) s where
  files q hq := h.files q fun hq' => hq (.inr hq')
  foreign q hq := by
    by_cases hT : q ∈ T
    · exact h.foreign q hT
    · obtain rfl := hq.resolve_right hT
      exact (h.files q hT).symm.trans hp

/-- A path without a file need not be owned. -/
theorem Reserved.release {p : Path} (h : Reserved (insert p T) s) (hp : s.world.files p = none) :
    Reserved T s where
  files q hq := by
    by_cases hqp : q = p
    · rw [hqp, hp, h.foreign p (.inl rfl)]
    · exact h.files q fun hq' => hq'.elim hqp hq
  foreign q hq := h.foreign q (.inr hq)

/-! ### Many operations -/

/-- The operations that take a file away. -/
@[simp] def Op.removes : Op → Bool
  | .unlink _ | .replace .. | .move .. | .rmtree _ => true
  | _ => false

/-- An operation that changes only files of `T` and takes none away. -/
@[simp] def Op.Fills (T : Set Path) (o : Op) : Prop :=
  (∀ q, o.alters q → q ∈ T) ∧ o.removes = false

theorem isSome_of_perform {c : Choice} {w : World} {q : Path} (ho : o.removes = false)
    (hq : (w.files q).isSome) : ((Ps2Ripper.perform m o c w).2.files q).isSome := by
  have hset : ∀ p x, (x.isSome) → ((w.setFile p x).files q).isSome := fun p x hx => by
    by_cases hqp : q = p
    · rwa [hqp, World.setFile_files_self]
    · rwa [World.setFile_files_of_ne _ _ hqp]
  have hmap : ∀ p f, ((w.setFile p ((w.files p).map f)).files q).isSome := fun p f => by
    by_cases hqp : q = p
    · rw [hqp, World.setFile_files_self, Option.isSome_map, ← hqp]
      exact hq
    · rwa [World.setFile_files_of_ne _ _ hqp]
  have hs : ((succeed m c w o).2.files q).isSome := by
    cases o with
    | unlink | replace | move | rmtree => cases ho
    | write p data => exact hmap p _
    | writeText p data => exact hset p _ rfl
    | openExclusive p =>
      simp only [succeed]
      split
      · exact hq
      · exact hset p _ rfl
    | _ =>
      simp only [succeed]
      first | exact hq | (split <;> exact hq)
  have hf : ((fail o c w).files q).isSome := by
    unfold fail
    split
    · exact hmap _ _
    · exact hset _ _ rfl
    · cases ho
    all_goals exact hq
  unfold Ps2Ripper.perform
  split
  · exact hs
  · split
    · exact hs
    · exact hf

/-- The call has the paths of `T` to itself for good. -/
structure Held (others : ℕ → List (Path × Bytes)) (T : Set Path) (s : Shared) : Prop where
  owns : Reserved T s
  safe : ∀ q ∈ T, (s.world.files q).isSome ∨ ∀ k ≥ s.time, LeftAlone others q k

theorem Held.safe_now (h : Held others T s) : Safe others T s :=
  fun q hq => (h.safe q hq).imp_right fun hk => hk _ le_rfl

/-- What a program that only fills files of `T` keeps. -/
structure Filling (others : ℕ → List (Path × Bytes)) (T : Set Path) (s s' : Shared) : Prop where
  held : Held others T s → Held others T s' ∧
    ∀ q ∈ T, (s.world.files q).isSome → (s'.world.files q).isSome
  time : s.time ≤ s'.time

theorem Filling.trans {s'' : Shared} (h : Filling others T s s') (h' : Filling others T s' s'') :
    Filling others T s s'' where
  held hs :=
    have ⟨hs', hkept⟩ := h.held hs
    have ⟨hs'', hkept'⟩ := h'.held hs'
    ⟨hs'', fun q hq hsome => hkept' q hq (hkept q hq hsome)⟩
  time := h.time.trans h'.time

theorem filling_of_perform (ho : o.Fills T) {r : Except PyError o.Answer}
    (h : s.perform m σ others o = (r, s')) : Filling others T s s' := by
  refine ⟨fun hs => ?_, by cases h; exact Nat.le_succ _⟩
  have hstep := step_of_perform hs.owns hs.safe_now ho.1 h
  have hkept : ∀ q ∈ T, (s.world.files q).isSome → (s'.world.files q).isSome := fun q hq hsome => by
    have hsame := isSome_of_perform (m := m) (c := σ s.time o) ho.2
      ((hstep.before q hq).symm ▸ hsome)
    rwa [hstep.perform] at hsame
  refine ⟨⟨hstep.owns, fun q hq => (hs.safe q hq).imp (hkept q hq) fun hk k hle => hk k ?_⟩, hkept⟩
  have := hstep.time
  omega

/-- A program that only fills files of `T` keeps them. -/
theorem wp_filling {p : Program α} (hp : p.Uses (Op.Fills T)) :
    wp (amid m σ others) p (fun _ s' => Filling others T s s') (fun _ s' => Filling others T s s')
      s :=
  wp_of_uses (R := Filling others T) (fun _ => ⟨fun h => ⟨h, fun _ _ => id⟩, le_rfl⟩) Filling.trans
    (fun _ _ _ _ => trivial)
    (fun _ _ _ _ ho h => filling_of_perform ho h) hp

/-- A program that changes no file leaves nothing behind. -/
theorem wp_clean {p : Program α} (hp : p.Uses (Op.Fills ∅)) (h : Reserved ∅ s) :
    wp (amid m σ others) p (fun _ s' => Reserved ∅ s') (fun _ s' => Reserved ∅ s') s :=
  have hs : Held others ∅ s := ⟨h, fun _ => False.elim⟩
  wp_mono (wp_filling hp) (fun _ _ h' => (h'.held hs).1.owns) fun _ _ h' => (h'.held hs).1.owns

theorem Op.Within.fills {R : Set Path} (h : o.Within R ∅) : o.Fills T := by
  obtain ⟨-, halters, hnotable⟩ := h
  refine ⟨fun q hq => (halters q hq).elim, ?_⟩
  cases o with
  | unlink p => exact (halters p rfl).elim
  | rmtree d => exact (halters { dir := d, name := "" } rfl).elim
  | replace | move => cases hnotable
  | _ => rfl

theorem fills_of_within {R : Set Path} {p : Program α} (h : p.Uses (Op.Within R ∅)) :
    p.Uses (Op.Fills T) :=
  h.mono fun _ => Op.Within.fills

/-! ### Looking, creating and removing -/

theorem wp_look {p : Path} (hown : Reserved T s) (hsafe : Safe others T s) :
    wp (amid m σ others) (call (.pathExists p))
      (fun b s' => Reserved T s' ∧ s'.time = s.time + 1 ∧ b = (s'.world.files p).isSome ∧
        ∀ q ∈ T, s'.world.files q = s.world.files q)
      (fun _ s' => Reserved T s' ∧ ∀ q ∈ T, s'.world.files q = s.world.files q) s := by
  refine wp_amid (o := .pathExists p) hown hsafe (by simp)
    (fun b s' h => ⟨h.owns, h.time, ?_, fun q hq => h.files hq id⟩)
    fun e s' h => ⟨h.owns, fun q hq => h.files hq id⟩
  have hok := succeed_of_perform_ok h.perform
  simp only [succeed, Prod.mk.injEq, Except.ok.injEq] at hok
  rw [← hok.1, hok.2]

theorem wp_create {p : Path} (hown : Reserved T s) (hsafe : Safe others T s) (hp : p ∈ T) :
    wp (amid m σ others) (call (.openExclusive p))
      (fun _ s' => Reserved T s' ∧ s'.time = s.time + 1 ∧ (s'.world.files p).isSome)
      (fun _ s' => Reserved T s' ∧ s'.time = s.time + 1) s := by
  refine wp_amid hown hsafe (by simpa using hp) (fun _ s' h => ⟨h.owns, h.time, ?_⟩)
    fun e s' h => ⟨h.owns, h.time⟩
  have hok := succeed_of_perform_ok h.perform
  simp only [succeed] at hok
  split at hok
  · cases hok
  · rw [← (Prod.mk.inj hok).2, World.setFile_files_self]
    rfl

/-- A path that the call has to itself is given back free. -/
theorem wp_unlinkReserved {p : Path} (hown : Reserved (insert p T) s)
    (hsafe : Safe others (insert p T) s)
    (hremove : ∀ n, (σ n (.unlink p)).fault = none) {E : PyError → Shared → Prop} :
    wp (amid m σ others) (call (.unlink p))
      (fun _ s' => Reserved T s' ∧ s'.time = s.time + 1) E s := by
  refine wp_amid (o := .unlink p) hown hsafe (by simp) (fun _ s' h => ⟨h.owns.release ?_, h.time⟩)
    fun e s' h => ?_
  · have hok := succeed_of_perform_ok h.perform
    rw [← (Prod.mk.inj hok).2, World.setFile_files_self]
  · have herror := h.perform
    rw [Ps2Ripper.perform, hremove] at herror
    cases herror

theorem wp_measureHeld {p : Path} (h : Held others T s) (hp : p ∈ T)
    (hsome : (s.world.files p).isSome)
    (hstat : ∀ n, (σ n (.stat p)).fault = none) {E : PyError → Shared → Prop} :
    wp (amid m σ others) (call (.stat p)) (fun _ _ => True) E s := by
  refine wp_amid (o := .stat p) h.owns h.safe_now (by simp) (fun _ _ _ => trivial)
    fun e s' hstep => ?_
  have herror := hstep.perform
  obtain ⟨data, hdata⟩ := Option.isSome_iff_exists.1 hsome
  rw [Ps2Ripper.perform, hstat] at herror
  simp only [succeed, hstep.before p hp, hdata] at herror
  cases herror

theorem wp_space {d : Dir} {n : ℕ} (h : Reserved ∅ s) :
    wp (amid m σ others) (ensureTemporarySpace d n)
      (fun _ s' => Reserved ∅ s' ∧ s'.time = s.time + 2) (fun _ s' => Reserved ∅ s') s := by
  refine wp_seq (wp_amid (o := .mkdir d) h safe_empty (by simp) (fun _ _ h => h) fun _ _ h => h) ?_
    fun _ _ h => h.owns
  refine fun _ s₁ h₁ => wp_seq (wp_amid (o := .diskUsage d) h₁.owns safe_empty (by simp)
    (fun _ _ h => h) fun _ _ h => h) ?_ fun _ _ h => h.owns
  intro free s₂ h₂
  split
  · exact h₂.owns
  · exact ⟨h₂.owns, by rw [h₂.time, h₁.time]⟩

/-- One output: the handler removes it. -/
theorem wp_removeOne {p : Path} {e : PyError} (hown : Reserved {p} s) (hsafe : Safe others {p} s)
    (hremove : ∀ n, (σ n (.unlink p)).fault = none) {Q : α → Shared → Prop} :
    wp (amid m σ others) (removeAndRaise [p] e) Q (fun _ s' => Reserved ∅ s') s :=
  wp_seq (wp_unlinkReserved (T := ∅) (by simpa using hown) (by simpa using hsafe) hremove
    (E := fun _ s' => Reserved ∅ s')) (fun _ _ h => h.1) fun _ _ => id

/-! ### The loops fill their outputs -/

theorem ripDvdLoop_fills {dest : Path} {total maxRetries lba : ℕ} {progress continueDamaged : Bool}
    {chunk : ChunkSize} {d : DvdState} (h : dest ∈ T) :
    (ripDvdLoop dest total progress chunk maxRetries continueDamaged lba d).Uses (Op.Fills T) := by
  induction lba, d using ripDvdLoop.induct total chunk with
  | case1 lba d hlba ih =>
    rw [ripDvdLoop, dif_pos hlba]
    exact .bind (fills_of_within (R := ∅) checkpoint_within) fun _ =>
      .bind (fills_of_within (R := ∅) readDvd_within) fun r => .bind (uses_of (by simpa using h))
        fun _ => .bind (fills_of_within (R := ∅) emitProgress_within) fun _ => ih r
  | case2 lba d hlba =>
    rw [ripDvdLoop, dif_neg hlba]
    trivial

theorem ripCdTrack_fills {bin : Path} {total maxRetries lba : ℕ} {progress : Bool}
    {chunk : ChunkSize} {track : CDTrack} {d : CdState} (h : bin ∈ T) :
    (ripCdTrack bin total progress chunk maxRetries track lba d).Uses (Op.Fills T) := by
  induction lba, d using ripCdTrack.induct chunk track with
  | case1 lba d hlba ih =>
    rw [ripCdTrack, dif_pos hlba]
    exact .bind (fills_of_within (R := ∅) checkpoint_within) fun _ =>
      .bind (fills_of_within (R := ∅) readCd_within) fun r => .bind (uses_of (by simpa using h))
        fun _ => .bind (fills_of_within (R := ∅) emitProgress_within) fun _ => ih r
  | case2 lba d hlba =>
    rw [ripCdTrack, dif_neg hlba]
    trivial

theorem ripCdTracks_fills {bin : Path} {total maxRetries : ℕ} {progress : Bool}
    {chunk : ChunkSize} {tracks : List CDTrack} {d : CdState} (h : bin ∈ T) :
    (ripCdTracks bin total progress chunk maxRetries tracks d).Uses (Op.Fills T) := by
  induction tracks generalizing d with
  | nil => trivial
  | cons track tracks ih => exact .bind (ripCdTrack_fills h) fun _ => ih

theorem convertLoop_fills {bin iso : Path} {track : CDTrack} {progress : Bool} {remaining : ℕ}
    {left digest : Bytes} (h : iso ∈ T) :
    (convertLoop bin iso track progress remaining left digest).Uses (Op.Fills T) := by
  induction remaining generalizing left digest with
  | zero => trivial
  | succ remaining ih =>
    exact .bind (fills_of_within (R := ∅) checkpoint_within) fun _ => .bind (uses_of (by simp))
      fun _ => .ite (fun _ => trivial) fun _ => .bind (uses_lift _) fun _ =>
        .bind (uses_of (by simpa using h)) fun _ =>
          .bind (fills_of_within (R := ∅) emitProgress_within) fun _ => ih

theorem copyLoop_fills {source dest : Path} {token progress : Bool} {total chunkSize completed : ℕ}
    {left : Bytes} (h : dest ∈ T) :
    (copyLoop source dest token progress total chunkSize left completed).Uses (Op.Fills T) := by
  induction left, completed using copyLoop.induct source chunkSize with
  | case1 left completed ih =>
    rw [copyLoop]
    refine .bind (uses_of (by simp)) fun size => ?_
    split
    · exact .bind (fills_of_within (R := ∅) checkpointIf_within) fun _ =>
        .bind (uses_of (by simpa using h)) fun _ =>
          .bind (fills_of_within (R := ∅) emitProgress_within) fun _ => ih size ‹_›
    · trivial

/-! ### The four functions -/

/-- Nobody creates a file at `p` before the operations from `first` to `last`. -/
def Undisturbed (others : ℕ → List (Path × Bytes)) (p : Path) (first last : ℕ) : Prop :=
  ∀ k, first ≤ k → k ≤ last → LeftAlone others p k

variable {ext : Externals} {β : Type}

/-- A body that creates its output and then fills it. -/
theorem wp_createAndFill {p : Path} {rest : Unit → Program β} (hown : Reserved {p} s)
    (hquiet : Undisturbed others p s.time (s.time + 1))
    (hrest : ∀ u, (rest u).Uses (Op.Fills {p})) :
    wp (amid m σ others) (call (.openExclusive p) >>= rest)
      (fun _ s' => Held others {p} s' ∧ (s'.world.files p).isSome)
      (fun _ s' => Reserved {p} s' ∧ Safe others {p} s' ∧ s.time < s'.time) s := by
  refine wp_seq (wp_create hown ?_ rfl) ?_ ?_
  · rintro q rfl
    exact .inr (hquiet _ le_rfl (by omega))
  · rintro _ s₁ ⟨hown₁, htime₁, hsome₁⟩
    have hheld : Held others {p} s₁ := ⟨hown₁, by rintro q rfl; exact .inl hsome₁⟩
    refine wp_mono (wp_filling (hrest _)) (fun _ s₂ h₂ => ?_) fun _ s₂ h₂ => ?_
    · obtain ⟨hheld₂, hkept⟩ := h₂.held hheld
      exact ⟨hheld₂, hkept p rfl hsome₁⟩
    · have := h₂.time
      exact ⟨(h₂.held hheld).1.owns, (h₂.held hheld).1.safe_now, by omega⟩
  · rintro _ s₁ ⟨hown₁, htime₁⟩
    refine ⟨hown₁, ?_, by omega⟩
    rintro q rfl
    exact .inr (hquiet _ (by omega) (by omega))

theorem wp_ripDvdIso_reserved {dest : Path} {total maxRetries : ℕ} {progress continueDamaged : Bool}
    {chunk : ChunkSize} (hown : Reserved ∅ s) (htime : s.time = 0)
    (hquiet : Undisturbed others dest 3 4)
    (hremove : ∀ n, (σ n (.unlink dest)).fault = none)
    (hstat : ∀ n, (σ n (.stat dest)).fault = none) :
    wp (amid m σ others) (ripDvdIso ext dest total progress chunk maxRetries continueDamaged)
      (fun _ _ => True) (fun _ s' => Reserved ∅ s') s := by
  refine wp_seq (wp_space hown) ?_ fun _ _ => id
  rintro _ s₁ ⟨hown₁, htime₁⟩
  refine wp_seq (wp_look hown₁ safe_empty) ?_ fun _ _ => And.left
  rintro b s₂ ⟨hown₂, htime₂, rfl, -⟩
  split
  · exact hown₂
  have hown₂' : Reserved {dest} s₂ := by
    simpa using hown₂.take (Option.not_isSome_iff_eq_none.1 ‹_›)
  have hbody : wp (amid m σ others)
      (ripDvdBody dest total progress chunk maxRetries continueDamaged) _ _ s₂ :=
    wp_createAndFill hown₂' (fun k hk hk' => hquiet k (by omega) (by omega)) fun _ =>
      .bind (ripDvdLoop_fills rfl) fun _ => .bind (uses_of (by simp)) fun _ => trivial
  refine wp_bind.2 (wp_tryCatch.2 (wp_mono hbody ?_ ?_))
  · rintro d s₃ ⟨hheld, hsome⟩
    exact wp_seq (wp_measureHeld hheld rfl hsome hstat) (fun _ _ _ => trivial) fun _ _ => id
  · rintro e s₃ ⟨hown₃, hsafe₃, -⟩
    exact wp_removeOne hown₃ hsafe₃ hremove

theorem wp_convert_reserved {bin iso : Path} {tracks : List CDTrack} {number : ℕ} {progress : Bool}
    (hown : Reserved ∅ s) (htime : s.time = 0) (hquiet : Undisturbed others iso 3 5)
    (hremove : ∀ n, (σ n (.unlink iso)).fault = none)
    (hstat : ∀ n, (σ n (.stat iso)).fault = none) :
    wp (amid m σ others) (convertCdDataTrackToIso ext bin iso tracks number progress)
      (fun _ _ => True) (fun _ s' => Reserved ∅ s') s := by
  unfold convertCdDataTrackToIso
  split
  swap
  · exact hown
  split
  · exact hown
  refine wp_seq (wp_space hown) ?_ fun _ _ => id
  rintro _ s₁ ⟨hown₁, htime₁⟩
  refine wp_seq (wp_look hown₁ safe_empty) ?_ fun _ _ => And.left
  rintro b s₂ ⟨hown₂, htime₂, rfl, -⟩
  split
  · exact hown₂
  have hown₂' : Reserved {iso} s₂ := by
    simpa using hown₂.take (Option.not_isSome_iff_eq_none.1 ‹_›)
  have hsafe : ∀ s' : Shared, 3 ≤ s'.time → s'.time ≤ 5 → Safe others {iso} s' := by
    rintro s' h h' q rfl
    exact .inr (hquiet _ h h')
  refine wp_bind.2 (wp_tryCatch.2 (wp_mono (Q := fun _ s' => Held others {iso} s' ∧
    (s'.world.files iso).isSome) (E := fun _ s' => Reserved {iso} s' ∧ Safe others {iso} s')
      ?_ ?_ ?_))
  · refine wp_seq (wp_amid (o := .openRead bin) hown₂' (hsafe _ (by omega) (by omega)) (by simp)
      (fun _ _ h => h) fun _ _ h => h) ?_ fun _ s' h => ⟨h.owns, hsafe _ ?_ ?_⟩
    rotate_left
    · have := h.time
      omega
    · have := h.time
      omega
    intro source s₃ h₃
    have htime₃ := h₃.time
    refine wp_mono (wp_createAndFill h₃.owns (fun k hk hk' => hquiet k (by omega) (by omega))
      fun _ => ?_) (fun _ _ => id) fun _ _ h => ⟨h.1, h.2.1⟩
    exact .ite (fun _ => trivial) fun _ => .bind (convertLoop_fills rfl) fun _ =>
      .bind (uses_of (by simp)) fun _ => trivial
  · rintro d s₃ ⟨hheld, hsome⟩
    exact wp_seq (wp_measureHeld hheld rfl hsome hstat) (fun _ _ _ => trivial) fun _ _ => id
  · rintro e s₃ ⟨hown₃, hsafe₃⟩
    exact wp_removeOne hown₃ hsafe₃ hremove

/-- Both outputs were looked for: they are taken, or nothing is. -/
theorem wp_eitherExists_reserved {bin cue : Path} (hown : Reserved ∅ s)
    (hquiet : LeftAlone others bin (s.time + 1)) :
    wp (amid m σ others) (eitherExists bin cue)
      (fun b s' => (b = true ∧ Reserved ∅ s') ∨
        (b = false ∧ Reserved {bin, cue} s' ∧ s'.time = s.time + 2))
      (fun _ s' => Reserved ∅ s') s := by
  refine wp_seq (wp_look hown safe_empty) ?_ fun _ _ => And.left
  rintro b s₁ ⟨hown₁, htime₁, hb, -⟩
  split
  · exact .inl ⟨rfl, hown₁⟩
  have hbin : s₁.world.files bin = none := Option.not_isSome_iff_eq_none.1 (hb ▸ ‹_›)
  have hown₁' : Reserved {bin} s₁ := by simpa using hown₁.take hbin
  have hsafe : Safe others {bin} s₁ := by
    rintro q rfl
    exact .inr (htime₁ ▸ hquiet)
  have hempty : ∀ s', Reserved {bin} s' → (∀ q ∈ ({bin} : Set Path), s'.world.files q =
      s₁.world.files q) → Reserved ∅ s' := fun s' hown' hsame =>
    Reserved.release (p := bin) (by simpa using hown') ((hsame bin rfl).trans hbin)
  refine wp_mono (wp_look hown₁' hsafe) ?_ fun _ s₂ h₂ => hempty s₂ h₂.1 h₂.2
  rintro c s₂ ⟨hown₂, htime₂, hc, hsame⟩
  cases c with
  | true => exact .inl ⟨rfl, hempty s₂ hown₂ hsame⟩
  | false =>
    refine .inr ⟨rfl, ?_, by omega⟩
    rw [Set.pair_comm]
    exact hown₂.take (Option.isSome_eq_false_iff.1 hc.symm |> Option.isNone_iff_eq_none.1)

theorem wp_ripCdBinCue_reserved {bin cue : Path} {tracks : List CDTrack} {maxRetries : ℕ}
    {progress : Bool} {chunk : ChunkSize} (hown : Reserved ∅ s) (htime : s.time = 0)
    (hbin : Undisturbed others bin 3 5) (hcue : ∀ k ≥ 4, LeftAlone others cue k)
    (hremove : ∀ n p, p = bin ∨ p = cue → (σ n (.unlink p)).fault = none)
    (hstat : ∀ n, (σ n (.stat bin)).fault = none) :
    wp (amid m σ others) (ripCdBinCue ext bin cue tracks progress chunk maxRetries)
      (fun _ _ => True) (fun _ s' => Reserved ∅ s') s := by
  unfold ripCdBinCue
  split
  swap
  · exact hown
  refine wp_seq (wp_space hown) ?_ fun _ _ => id
  rintro _ s₁ ⟨hown₁, htime₁⟩
  refine wp_seq (wp_eitherExists_reserved hown₁ (hbin _ (by omega) (by omega))) ?_ fun _ _ => id
  rintro b s₂ (⟨rfl, hown₂⟩ | ⟨rfl, hown₂, htime₂⟩)
  · exact wp_mono (wp_clean (.bind (uses_of (by simp)) fun _ => trivial) hown₂)
      (fun _ _ _ => trivial) fun _ _ => id
  have hsafe : ∀ s' : Shared, 4 ≤ s'.time → s'.time ≤ 5 → Safe others {bin, cue} s' := by
    rintro s' h h' q (rfl | rfl)
    · exact .inr (hbin _ (by omega) h')
    · exact .inr (hcue _ h)
  refine wp_bind.2 (wp_tryCatch.2 (wp_mono (Q := fun _ s' => Held others {bin, cue} s' ∧
    (s'.world.files bin).isSome)
    (E := fun _ s' => Reserved {bin, cue} s' ∧ Safe others {bin, cue} s' ∧ 4 ≤ s'.time) ?_ ?_ ?_))
  · refine wp_seq (wp_create hown₂ (hsafe _ (by omega) (by omega)) (by simp)) ?_
      fun _ s' h => ⟨h.1, hsafe _ (by omega) (by omega), by omega⟩
    rintro _ s₃ ⟨hown₃, htime₃, hsome⟩
    have hheld : Held others {bin, cue} s₃ := by
      refine ⟨hown₃, ?_⟩
      rintro q (rfl | rfl)
      · exact .inl hsome
      · exact .inr fun k hk => hcue k (by omega)
    refine wp_mono (wp_filling (T := {bin, cue}) ?_) (fun _ s₄ h₄ => ?_) fun _ s₄ h₄ => ?_
    · exact .bind (ripCdTracks_fills (by simp)) fun _ => .bind (uses_of (by simp)) fun _ =>
        .bind (uses_lift _) fun _ => .bind (uses_of (by simp)) fun _ => trivial
    · exact ⟨(h₄.held hheld).1, (h₄.held hheld).2 bin (by simp) hsome⟩
    · have := h₄.time
      exact ⟨(h₄.held hheld).1.owns, (h₄.held hheld).1.safe_now, by omega⟩
  · rintro d s₃ ⟨hheld, hsome⟩
    exact wp_seq (wp_measureHeld hheld (by simp) hsome hstat) (fun _ _ _ => trivial) fun _ _ => id
  · rintro e s₃ ⟨hown₃, hsafe₃, htime₃⟩
    refine wp_seq (wp_unlinkReserved hown₃ hsafe₃ (fun n => hremove n bin (.inl rfl))
      (E := fun _ s' => Reserved ∅ s')) ?_ fun _ _ => id
    rintro _ s₄ ⟨hown₄, htime₄⟩
    refine wp_removeOne hown₄ ?_ fun n => hremove n cue (.inr rfl)
    rintro q rfl
    exact .inr (hcue _ (by omega))

theorem wp_unlinkIfPresent_reserved {dest : Path} (hown : Reserved {dest} s)
    (hsafe : Safe others {dest} s)
    (htime : 4 ≤ s.time) (hlook : ∀ n ≥ 4, (σ n (.pathExists dest)).fault = none)
    (hremove : ∀ n, (σ n (.unlink dest)).fault = none) :
    wp (amid m σ others) (unlinkIfPresent dest) (fun _ s' => Reserved ∅ s') (fun _ s' =>
      Reserved ∅ s') s := by
  have hexists : wp (amid m σ others) (call (.pathExists dest))
      (fun b s' => Reserved {dest} s' ∧ b = (s'.world.files dest).isSome)
        (fun _ s' => Reserved ∅ s') s := by
    refine wp_amid (o := .pathExists dest) hown hsafe (by simp) (fun b s' h => ⟨h.owns, ?_⟩)
      fun e s' h => ?_
    · have hok := succeed_of_perform_ok h.perform
      simp only [succeed, Prod.mk.injEq, Except.ok.injEq] at hok
      rw [← hok.1, hok.2]
    · have herror := h.perform
      rw [Ps2Ripper.perform, hlook _ htime] at herror
      cases herror
  refine wp_seq hexists ?_ fun _ _ => id
  rintro b s₁ ⟨hown₁, rfl⟩
  split
  · rename_i hsome
    refine wp_mono (wp_unlinkReserved (T := ∅) (by simpa using hown₁) ?_ hremove)
      (fun _ _ => And.left)
      fun _ _ => id
    rintro q (rfl | hq)
    · exact .inl hsome
    · exact hq.elim
  · exact Reserved.release (p := dest) (by simpa using hown₁) (Option.not_isSome_iff_eq_none.1 ‹_›)

theorem wp_copyAndVerify_reserved {source dest : Path} {expected : String} {token progress : Bool}
    {chunkSize : ℕ} (hown : Reserved ∅ s) (htime : s.time = 0)
    (hquiet : Undisturbed others dest 1 5)
    (hlook : ∀ n ≥ 4, (σ n (.pathExists dest)).fault = none)
    (hremove : ∀ n, (σ n (.unlink dest)).fault = none) :
    wp (amid m σ others) (copyAndVerify ext source dest expected token progress chunkSize)
      (fun _ _ => True) (fun _ s' => Reserved ∅ s') s := by
  refine wp_seq (wp_look hown safe_empty) ?_ fun _ _ => And.left
  rintro b s₁ ⟨hown₁, htime₁, rfl, -⟩
  split
  · exact hown₁
  have hnone : s₁.world.files dest = none := Option.not_isSome_iff_eq_none.1 ‹_›
  have hown₁' : Reserved {dest} s₁ := by simpa using hown₁.take hnone
  have hsafe : ∀ s' : Shared, 1 ≤ s'.time → s'.time ≤ 5 → Safe others {dest} s' := by
    rintro s' h h' q rfl
    exact .inr (hquiet _ h h')
  have hempty : ∀ s', Reserved {dest} s' → s'.world.files dest = none → Reserved ∅ s' :=
    fun s' h h' =>
    Reserved.release (p := dest) (by simpa using h) h'
  refine wp_seq (wp_amid (o := .mkdir dest.dir) hown₁' (hsafe _ (by omega) (by omega)) (by simp)
    (fun _ _ h => h) fun _ _ h => h) ?_ fun _ s' h => hempty _ h.owns ((h.files rfl id).trans hnone)
  intro _ s₂ h₂
  have htime₂ := h₂.time
  have hnone₂ : s₂.world.files dest = none := (h₂.files rfl id).trans hnone
  refine wp_seq (wp_amid (o := .stat source) h₂.owns (hsafe _ (by omega) (by omega)) (by simp)
    (fun _ _ h => h) fun _ _ h => h) ?_ fun _ s' h => hempty _ h.owns
      ((h.files rfl id).trans hnone₂)
  intro total s₃ h₃
  have htime₃ := h₃.time
  refine wp_tryCatch.2 (wp_mono (Q := fun _ _ => True)
    (E := fun _ s' => Reserved {dest} s' ∧ Safe others {dest} s' ∧ 4 ≤ s'.time) ?_
      (fun _ _ => id) ?_)
  · refine wp_seq (wp_amid (o := .openRead source) h₃.owns (hsafe _ (by omega) (by omega)) (by simp)
      (fun _ _ h => h) fun _ _ h => h) ?_ fun _ s' h => ⟨h.owns, ?_⟩
    rotate_left
    · have htime₄ := h.time
      exact ⟨hsafe _ (by omega) (by omega), by omega⟩
    intro data s₄ h₄
    have htime₄ := h₄.time
    refine wp_mono (wp_createAndFill h₄.owns (fun k hk hk' => hquiet k (by omega) (by omega))
      fun _ => ?_) (fun _ _ _ => trivial) fun _ _ h => ⟨h.1, h.2.1, by omega⟩
    exact .bind (copyLoop_fills rfl) fun _ => .bind (uses_of (by simp)) fun _ =>
      .bind (fills_of_within sha256File_within) fun _ => .ite (fun _ => trivial) fun _ => trivial
  · rintro e s₄ ⟨hown₄, hsafe₄, htime₄⟩
    exact wp_seq (wp_unlinkIfPresent_reserved hown₄ hsafe₄ htime₄ hlook hremove) (fun _ _ => id)
      fun _ _ => id

/-! ### A verified copy -/

/-- An exclusive creation that goes through finds the path free. -/
theorem ensures_create {p : Path} (hown : Reserved ∅ s) :
    ensures (amid m σ others) (call (.openExclusive p))
      (fun _ s' => Reserved {p} s' ∧ (s'.world.files p).isSome) s := by
  refine wp_perform.2 ⟨trivial, fun a s' h => ?_, fun _ _ _ => trivial⟩
  have hown' : Reserved ∅ (s.interfere others) := (hown.interfere safe_empty).1
  obtain ⟨world, foreign, time⟩ := s'
  obtain ⟨hok, hs⟩ := Prod.mk.inj h
  obtain ⟨hworld, rfl, -⟩ := Shared.mk.inj hs
  have hgone := succeed_of_perform_ok (Prod.ext hok hworld)
  simp only [succeed] at hgone
  split at hgone
  · cases hgone
  rename_i hfree
  obtain rfl := (Prod.mk.inj hgone).2
  have htaken := hown'.take (Option.not_isSome_iff_eq_none.1 hfree)
  refine ⟨⟨fun q hq => ?_, fun q hq => htaken.foreign q (.inl hq)⟩, by simp⟩
  exact (World.setFile_files_of_ne _ _ hq).trans (hown'.files q id)

/-- What a program that changes nothing keeps of a file that the call owns. -/
theorem wp_reading {p : Path} {q : Program α} (hq : q.Uses (Op.Fills ∅)) (hown : Reserved {p} s)
    (hsome : (s.world.files p).isSome) :
    wp (amid m σ others) q (fun _ s' => Reserved {p} s' ∧ s'.world.files p = s.world.files p)
      (fun _ s' => Reserved {p} s' ∧ s'.world.files p = s.world.files p) s := by
  have hwp := wp_of_uses (c := amid m σ others) (w := s) (R := fun s s' : Shared =>
    Reserved {p} s → (s.world.files p).isSome → Reserved {p} s' ∧ s'.world.files p =
      s.world.files p)
    (fun _ h _ => ⟨h, rfl⟩) ?_ (fun _ _ _ _ => trivial) ?_ hq
  · exact wp_mono hwp (fun _ _ h => h hown hsome) fun _ _ h => h hown hsome
  · intro s₁ s₂ s₃ h h' hown₁ hsome₁
    obtain ⟨hown₂, hsame⟩ := h hown₁ hsome₁
    exact (h' hown₂ (hsame ▸ hsome₁)).imp_right fun hsame' => hsame'.trans hsame
  · intro s₁ o r s₂ ho hstep hown₁ hsome₁
    have hdone := step_of_perform hown₁ (by rintro q rfl; exact .inl hsome₁)
      (fun q hq => (ho.1 q hq).elim) hstep
    exact ⟨hdone.owns, hdone.files rfl fun halters => ho.1 p halters⟩

theorem ensures_sha256File_reserved {p : Path} {token : Bool} (hown : Reserved {p} s)
    (hsome : (s.world.files p).isSome) :
    ensures (amid m σ others) (sha256File ext p token)
      (fun hash s' => Reserved {p} s' ∧
        ∃ data, s'.world.files p = some data ∧ hash = ext.hexdigest data) s := by
  refine ensures_bind (ensures_of_wp (wp_reading (uses_of (by simp)) hown hsome)) ?_
  rintro n s₁ ⟨hown₁, hsame₁⟩
  rw [← hsame₁] at hsome
  have hopen : wp (amid m σ others) (call (.openRead p))
      (fun data s' => Reserved {p} s' ∧ s'.world.files p = some data) (fun _ _ => True) s₁ := by
    refine wp_amid (o := .openRead p) hown₁ (by rintro q rfl; exact .inl hsome) (by simp)
      (fun data s' h => ⟨h.owns, ?_⟩) fun _ _ _ => trivial
    have hok := succeed_of_perform_ok h.perform
    simp only [succeed] at hok
    split at hok
    · obtain ⟨hdata, hworld⟩ := Prod.mk.inj hok
      rwa [← hworld, ← Except.ok.inj hdata]
    · cases hok
  refine ensures_bind hopen ?_
  rintro data s₂ ⟨hown₂, hdata⟩
  refine ensures_bind (wp_of_yields (hashLoop_yields (by decide))
    (ensures_of_wp (wp_reading (fills_of_within (hashLoop_within rfl)) hown₂ (by simp [hdata])))) ?_
  rintro digest s₃ ⟨hdigest, hown₃, hsame₃⟩
  exact ensures_return ⟨hown₃, data, hsame₃.trans hdata, by rw [hdigest, List.nil_append]⟩

theorem ensures_copyAndVerify_reserved {source dest : Path} {expected : String}
    {token progress : Bool}
    {chunkSize : ℕ} (hown : Reserved ∅ s) :
    ensures (amid m σ others) (copyAndVerify ext source dest expected token progress chunkSize)
      (fun _ s' => Reserved {dest} s' ∧ ∃ data, s'.world.files dest = some data ∧
        (ext.hexdigest data).toLower = expected.toLower) s := by
  have hclean : ∀ {β : Type} {p : Program β} {s : Shared}, p.Uses (Op.Fills ∅) → Reserved ∅ s →
      ensures (amid m σ others) p (fun _ s' => Reserved ∅ s') s := fun hp h =>
    ensures_of_wp (wp_clean hp h)
  refine ensures_bind (hclean (uses_of (by simp)) hown) fun b s₁ hown₁ => ?_
  split
  · trivial
  refine ensures_bind (hclean (uses_of (by simp)) hown₁) fun _ s₂ hown₂ => ?_
  refine ensures_bind (hclean (uses_of (by simp)) hown₂) fun total s₃ hown₃ => ?_
  refine ensures_tryCatch ?_ fun e s' => ensures_bind (ensures_true (fun _ _ => trivial) _)
    fun _ _ _ => trivial
  refine ensures_bind (hclean (uses_of (by simp)) hown₃) fun data s₄ hown₄ => ?_
  refine ensures_bind (ensures_create hown₄) ?_
  rintro _ s₅ ⟨hown₅, hsome₅⟩
  have hheld : Held others {dest} s₅ := ⟨hown₅, by rintro q rfl; exact .inl hsome₅⟩
  refine ensures_bind (ensures_of_wp (wp_filling (T := {dest}) (copyLoop_fills rfl)))
    fun _ s₆ h₆ => ?_
  obtain ⟨hheld₆, hkept₆⟩ := h₆.held hheld
  refine ensures_bind (ensures_of_wp (wp_filling (T := {dest}) (uses_of (by simp))))
    fun _ s₇ h₇ => ?_
  obtain ⟨hheld₇, hkept₇⟩ := h₇.held hheld₆
  have hsome₇ := hkept₇ dest rfl (hkept₆ dest rfl hsome₅)
  refine ensures_bind (ensures_sha256File_reserved hheld₇.owns hsome₇) ?_
  rintro hash s₈ ⟨hown₈, stored, hstored, rfl⟩
  split
  · trivial
  · exact ensures_return ⟨hown₈, stored, hstored, of_not_not ‹_›⟩

/-! ### What the cleanup removes -/

/-- A run that raises leaves none of its own files, and those of the others as they were. -/
def RemovesOwn (m : Machine) (σ : Oracle) (others : ℕ → List (Path × Bytes)) (p : Program α)
    (w : World) : Prop :=
  let outcome := executeShared m σ others p w
  ∀ e, outcome.result = .error e → outcome.world.world.files = outcome.world.foreign

theorem reserved_start (w : World) : Reserved ∅ { world := w, foreign := w.files } where
  files _ _ := rfl
  foreign _ := False.elim

theorem removesOwn_of_wp {p : Program α} {w : World}
    (h : wp (amid m σ others) p (fun _ _ => True) (fun _ s' => Reserved ∅ s')
      { world := w, foreign := w.files }) : RemovesOwn m σ others p w := fun e he =>
  funext fun q => ((run_of_wp (fun _ _ _ => rfl) h).2 e he).files q id

/-- The call carries out the operation `o` as number `n`, counted from 0. -/
def Issues (m : Machine) (σ : Oracle) (others : ℕ → List (Path × Bytes)) (p : Program α) (w : World)
    (n : ℕ) (o : Op) : Prop :=
  ∃ x ∈ visits (fun _ (s : Shared) o => s.perform m σ others o) p 0
    { world := w, foreign := w.files }, x.2.1.time = n ∧ x.2.2 = o

/-- None of the steps of the call that `P` speaks of fails. -/
def GoesThrough (m : Machine) (σ : Oracle) (others : ℕ → List (Path × Bytes)) (p : Program α)
    (w : World) (P : ℕ → Op → Prop) : Prop :=
  ∀ n o, Issues m σ others p w n o → P n o → (σ n o).fault = none

/-- What an oracle would choose for steps that the call never takes does not matter. -/
theorem removesOwn_of_goesThrough {p : Program α} {w : World} {P : ℕ → Op → Prop}
    (h : GoesThrough m σ others p w P)
    (hall : ∀ σ' : Oracle, (∀ n o, P n o → (σ' n o).fault = none) → RemovesOwn m σ' others p w) :
    RemovesOwn m σ others p w := by
  classical
  let σ' : Oracle := fun n o => if Issues m σ others p w n o then σ n o else {}
  have hsame : executeShared m σ' others p w = executeShared m σ others p w := by
    refine run_congr_of_visits fun x hx => ?_
    have hissued : Issues m σ others p w x.2.1.time x.2.2 := ⟨x, hx, rfl, rfl⟩
    have hchoice : σ' x.2.1.time x.2.2 = σ x.2.1.time x.2.2 := if_pos hissued
    simp only [Shared.perform, hchoice]
  have hown := hall σ' fun n o ho => by
    by_cases hissued : Issues m σ others p w n o
    · rw [show σ' n o = σ n o from if_pos hissued]
      exact h n o hissued ho
    · rw [show σ' n o = {} from if_neg hissued]
  unfold RemovesOwn at hown
  rwa [hsame] at hown

variable (m σ others)

/-- Each function removes exactly what it created, as long as nobody takes an output after the look
at it and no step of the cleanup and of the final measurement fails; the last part needs neither. -/
theorem cleanup_removesOwn (ext : Externals) (w : World) :
    (∀ source dest expected token progress chunkSize,
      Undisturbed others dest 1 5 →
      GoesThrough m σ others (copyAndVerify ext source dest expected token progress chunkSize) w
        (fun n o => o = .unlink dest ∨ 4 ≤ n ∧ o = .pathExists dest) →
      RemovesOwn m σ others (copyAndVerify ext source dest expected token progress chunkSize) w) ∧
    (∀ dest total progress chunk maxRetries continueDamaged,
      Undisturbed others dest 3 4 →
      GoesThrough m σ others (ripDvdIso ext dest total progress chunk maxRetries continueDamaged) w
        (fun _ o => o = .unlink dest ∨ o = .stat dest) →
      RemovesOwn m σ others
        (ripDvdIso ext dest total progress chunk maxRetries continueDamaged) w) ∧
    (∀ bin cue tracks progress chunk maxRetries,
      Undisturbed others bin 3 5 → (∀ k ≥ 4, LeftAlone others cue k) →
      GoesThrough m σ others (ripCdBinCue ext bin cue tracks progress chunk maxRetries) w
        (fun _ o => o = .unlink bin ∨ o = .unlink cue ∨ o = .stat bin) →
      RemovesOwn m σ others (ripCdBinCue ext bin cue tracks progress chunk maxRetries) w) ∧
    (∀ bin iso tracks number progress,
      Undisturbed others iso 3 5 →
      GoesThrough m σ others (convertCdDataTrackToIso ext bin iso tracks number progress) w
        (fun _ o => o = .unlink iso ∨ o = .stat iso) →
      RemovesOwn m σ others (convertCdDataTrackToIso ext bin iso tracks number progress) w) ∧
    ∀ source dest expected token progress chunkSize,
      let outcome := executeShared m σ others
        (copyAndVerify ext source dest expected token progress chunkSize) w
      ∀ hash, outcome.result = .ok hash → outcome.world.foreign dest = none ∧
        ∃ data, outcome.world.world.files dest = some data ∧
          (ext.hexdigest data).toLower = expected.toLower := by
  refine ⟨?_, ?_, ?_, ?_, ?_⟩
  · intro source dest expected token progress chunkSize hquiet hgoes
    refine removesOwn_of_goesThrough hgoes fun σ' hσ => removesOwn_of_wp ?_
    exact wp_copyAndVerify_reserved (reserved_start w) rfl hquiet
      (fun n hn => hσ n _ (.inr ⟨hn, rfl⟩)) fun n => hσ n _ (.inl rfl)
  · intro dest total progress chunk maxRetries continueDamaged hquiet hgoes
    refine removesOwn_of_goesThrough hgoes fun σ' hσ => removesOwn_of_wp ?_
    exact wp_ripDvdIso_reserved (reserved_start w) rfl hquiet (fun n => hσ n _ (.inl rfl))
      fun n => hσ n _ (.inr rfl)
  · intro bin cue tracks progress chunk maxRetries hbin hcue hgoes
    refine removesOwn_of_goesThrough hgoes fun σ' hσ => removesOwn_of_wp ?_
    refine wp_ripCdBinCue_reserved (reserved_start w) rfl hbin hcue ?_
      fun n => hσ n _ (.inr (.inr rfl))
    rintro n p (rfl | rfl)
    · exact hσ n _ (.inl rfl)
    · exact hσ n _ (.inr (.inl rfl))
  · intro bin iso tracks number progress hquiet hgoes
    refine removesOwn_of_goesThrough hgoes fun σ' hσ => removesOwn_of_wp ?_
    exact wp_convert_reserved (reserved_start w) rfl hquiet (fun n => hσ n _ (.inl rfl))
      fun n => hσ n _ (.inr rfl)
  · intro source dest expected token progress chunkSize outcome hash hhash
    have hcopy : ensures (amid m σ others) (copyAndVerify ext source dest expected token progress
        chunkSize) _ _ := ensures_copyAndVerify_reserved (reserved_start w)
    obtain ⟨hown, hdata⟩ := (run_of_wp (fun _ _ _ => rfl) hcopy).1 hash hhash
    exact ⟨hown.foreign dest rfl, hdata⟩

/-! ### Another process is faster -/

/-- Another process creates one file before the operation `k`. -/
def createsAt (k : ℕ) (p : Path) (n : ℕ) : List (Path × Bytes) := if n = k then [(p, [1])] else []

/-- A file that appears before the look stays, although the rip raises. -/
theorem cleanup_removesOwn_sample :
    RemovesOwn (sampleMachine 0x10) noFaults (createsAt 2 sampleImage)
      (ripDvdIso (sampleMachine 0x10).toExternals sampleImage 24 true ⟨32, by decide⟩ 8 false)
      World.blank := by
  refine (cleanup_removesOwn (sampleMachine 0x10) noFaults (createsAt 2 sampleImage) _
    World.blank).2.1 sampleImage 24 true ⟨32, by decide⟩ 8 false ?_ fun _ _ _ _ => rfl
  intro k hk _ f hf
  rw [createsAt, if_neg (by omega)] at hf
  cases hf

/-- A file that appears between the look and the creation is removed by the handler. -/
theorem not_cleanup_removesOwn :
    ¬ RemovesOwn (sampleMachine 0x10) noFaults (createsAt 3 sampleImage)
      (ripDvdIso (sampleMachine 0x10).toExternals sampleImage 24 true ⟨32, by decide⟩ 8 false)
      World.blank := by
  intro h
  have hfiles := congrFun (h (.fileExistsError sampleImage) rfl) sampleImage
  cases hfiles

end Ps2Ripper
