import Ps2Ripper.Core.Atomicity
import Ps2Ripper.Core.Returns
import Ps2Ripper.Interactive.Endings

/-!
# The cleanup of a run

* `ripAttempt`: `rip_and_install` without its outer `finally` clause;
* `execute_ripAndInstall`: every run is an attempt followed by the `finally` clause;
* `PartialKept`: no partial file is left that was not there before;
* `ripAndInstall_cleansUp`: what a run leaves, if no step of the `finally` clause fails.
-/

namespace Ps2Ripper

open Interactive Prog

/-! ### The attempt -/

/-- The body of the `try` statement. -/
def attemptInTask (ext : Externals) (r : RipRequest) (name : String) (destination : Path)
    (task : Dir) : Program InstallResult := do
  let source : Path := { dir := task, name }
  let _ ← reinspect r
  match r.disc.mediaType with
  | .ps2Dvd5 | .ps2Dvd9 => installDvd ext r source destination
  | .ps2Cd =>
    let stem := removeIsoSuffix name
    let binPath : Path := { dir := task, name := stem ++ ".bin" }
    let cuePath : Path := { dir := task, name := stem ++ ".cue" }
    let (rawResult, trackNumber) ← ripCd ext r binPath cuePath
    if r.archiveOnly then archiveCd r stem binPath cuePath rawResult
    else installCd ext r stem binPath cuePath source destination trackNumber
  | _ => Prog.raise (.validationError "The selected media is not a recognized PS2 CD/DVD.")

/-- Everything before the `try` statement: the file name, the destination and the task directory. -/
def makeTask (r : RipRequest) : Program (String × Path × Dir) := do
  let name ← Prog.lift (oplIsoFilename r.disc.gameId r.title)
  let destination ← Prog.lift
    (destinationForGame r.oplRoot r.disc.mediaType r.disc.gameId r.title)
  let present ← call (.pathExists destination)
  if present && !r.replaceExisting && !r.archiveOnly then Prog.raise (.fileExistsError destination)
  else
    call (.mkdir (.temporary r.settings.temporaryDirectory))
    let id ← call (.mkdtemp r.settings.temporaryDirectory)
    return (name, destination, .task r.settings.temporaryDirectory id)

/-- `rip_and_install` without its `finally` clause. -/
def ripAttempt (ext : Externals) (r : RipRequest) : Program InstallResult :=
  makeTask r >>= fun t => attemptInTask ext r t.1 t.2.1 t.2.2

variable {ext : Externals} {m : Machine} {A : Op → Choice → Prop} {r : RipRequest} {w : World}
  {destination : Path}

theorem ripAndInstall_eq_ripInTask :
    ripAndInstall ext r = makeTask r >>= fun t => ripInTask ext r t.1 t.2.1 t.2.2 := by
  unfold ripAndInstall makeTask
  cases oplIsoFilename r.disc.gameId r.title with
  | error e => rfl
  | ok name =>
    cases destinationForGame r.oplRoot r.disc.mediaType r.disc.gameId r.title with
    | error e => rfl
    | ok destination =>
      refine congrArg (Prog.call _) (funext fun present => ?_)
      cases present with
      | error e => rfl
      | ok present =>
        show (if _ then _ else _) = (if _ then _ else _) >>= _
        split
        · rfl
        · refine congrArg (Prog.call _) (funext fun made => ?_)
          cases made with
          | error e => rfl
          | ok =>
            refine congrArg (Prog.call _) (funext fun id => ?_)
            cases id <;> rfl

/-- A run in a task directory is the attempt, followed by the `finally` clause. -/
theorem run_ripInTask {σ : Oracle} {name : String} {task : Dir} {n : ℕ} :
    let attempt := run (handlers m σ) (attemptInTask ext r name destination task) n w
    ∃ source : Option Path, (source = none ∨ source = some { dir := task, name }) ∧
      (∀ a, attempt.result = .ok a →
        (source = none ↔ r.disc.mediaType = .ps2Cd ∧ r.archiveOnly = true)) ∧
      run (handlers m σ) (ripInTask ext r name destination task) n w =
        finish (handlers m σ) (cleanup r task source) attempt ∧
      steps (perform m) σ (ripInTask ext r name destination task) n w =
        steps (perform m) σ (attemptInTask ext r name destination task) n w ++
          steps (perform m) σ (cleanup r task source) attempt.clock attempt.world := by
  have hfinally : ∀ {p : Program InstallResult} {f : Program Unit} {n : ℕ} {w : World},
      run (handlers m σ) (p.tryFinally f) n w = finish (handlers m σ) f (run (handlers m σ) p n w) ∧
      steps (perform m) σ (p.tryFinally f) n w = steps (perform m) σ p n w ++
        steps (perform m) σ f (run (handlers m σ) p n w).clock (run (handlers m σ) p n w).world :=
    ⟨run_tryFinally, steps_tryFinally⟩
  have hsame : Act.handlers (perform m) σ = handlers m σ := rfl
  unfold ripInTask attemptInTask
  dsimp only
  rw [onRaise, run_cleanup_bind, run_bind, steps_cleanup_bind, steps_bind, hsame]
  rcases hinspect : run (handlers m σ) (reinspect r) n w with ⟨_ | _, w₁, n₁⟩
  · exact ⟨none, .inl rfl, by rintro a ⟨⟩, rfl, by simp⟩
  dsimp only
  simp only [List.append_assoc, List.append_cancel_left_eq]
  cases hmedia : r.disc.mediaType with
  | ps2Dvd5 => exact ⟨_, .inr rfl, fun _ _ => ⟨by rintro ⟨⟩, by rintro ⟨⟨⟩, -⟩⟩, hfinally⟩
  | ps2Dvd9 => exact ⟨_, .inr rfl, fun _ _ => ⟨by rintro ⟨⟩, by rintro ⟨⟨⟩, -⟩⟩, hfinally⟩
  | ps2Cd =>
    dsimp only
    rw [onRaise, run_cleanup_bind, run_bind, steps_cleanup_bind, steps_bind, hsame]
    rcases run (handlers m σ) (ripCd ext r _ _) n₁ w₁ with ⟨_ | ⟨rawResult, number⟩, w₂, n₂⟩
    · exact ⟨none, .inl rfl, by rintro a ⟨⟩, rfl, by simp⟩
    dsimp only
    simp only [List.append_assoc, List.append_cancel_left_eq]
    split
    · exact ⟨none, .inl rfl, fun _ _ => ⟨fun _ => ⟨trivial, ‹_›⟩, fun _ => rfl⟩, hfinally⟩
    · rename_i honly
      exact ⟨_, .inr rfl, fun _ _ => ⟨by rintro ⟨⟩, fun h => absurd h.2 honly⟩, hfinally⟩
  | _ =>
    refine ⟨none, .inl rfl, by rintro a ⟨⟩, ?_⟩
    dsimp only
    rw [onRaise, Prog.tryCatch]
    exact hfinally (p := Prog.raise _)

/-- An operation that leaves the world as it is. -/
theorem wp_unchanged {o : Op} (hs : ∀ c, (succeed m c w o).2 = w) (hf : ∀ c, fail o c w = w) :
    wp (allowing m A) (call o) (fun _ w' => w' = w) (fun _ w' => w' = w) w := by
  refine wp_call_iff.2 fun c _ => ⟨fun a w' h => ?_, fun e w' h => ?_⟩
  · exact (congrArg Prod.snd (succeed_of_perform_ok h)).symm.trans (hs c)
  · obtain h | ⟨-, -, rfl⟩ := cases_of_perform_error h
    · exact (congrArg Prod.snd h).symm.trans (hs c)
    · exact hf c

/-- Before the `try` statement nothing changes, except that the task directory is made. -/
theorem wp_makeTask :
    wp (allowing m A) (makeTask r)
      (fun t w' => oplIsoFilename r.disc.gameId r.title = .ok t.1 ∧ t.2.2 = taskOf r w.fresh ∧
        w'.files = w.files ∧
        destinationForGame r.oplRoot r.disc.mediaType r.disc.gameId r.title = .ok t.2.1)
      (fun _ w' => w' = w) w := by
  refine wp_bind.2 ((wp_lift _).2 ⟨fun name hname => ?_, fun _ _ => rfl⟩)
  refine wp_bind.2 ((wp_lift _).2 ⟨fun destination hdest => ?_, fun _ _ => rfl⟩)
  refine wp_seq (wp_unchanged (o := .pathExists destination) (fun _ => rfl) fun _ => rfl) ?_
    fun _ _ => id
  rintro present _ rfl
  refine Or.elim (em ((present && !r.replaceExisting && !r.archiveOnly) = true))
    (fun h => by rw [if_pos h]; rfl) fun h => ?_
  rw [if_neg h]
  refine wp_seq (wp_unchanged (o := .mkdir _) (fun _ => rfl) fun _ => rfl) ?_ fun _ _ => id
  rintro _ w₁ rfl
  refine wp_bind.2 (wp_call_iff.2 fun c _ => ⟨fun id w₂ h => ?_, fun e w₂ h => ?_⟩)
  · cases succeed_of_perform_ok h
    exact ⟨hname, rfl, rfl, hdest⟩
  · obtain h | ⟨-, -, rfl⟩ := cases_of_perform_error h
    · cases h
    · rfl

/-! ### The `finally` clause -/

/-- No removal fails and, if images are retained, no operation at all. -/
def CleanupGoesThrough (r : RipRequest) (o : Op) (c : Choice) : Prop :=
  (r.settings.retainTemporaryImage = true ∨ ∃ d, o = .rmtree d) → c.fault = none

/-- The operations of the `finally` clause. -/
def Op.Cleans (r : RipRequest) : Op → Prop
  | .rmtree _ => True
  | .mkdir _ | .pathExists _ | .move .. => r.settings.retainTemporaryImage = true
  | _ => False

theorem cleanup_cleans {task : Dir} {source : Option Path} :
    (cleanup r task source).Uses (Op.Cleans r) := by
  refine .bind ?_ fun _ => uses_of trivial
  unfold retainImage
  split
  case h_2 => trivial
  case h_1 source hset =>
  exact .bind (uses_of hset) fun _ => .ite (fun _ => .bind (uses_of hset) fun _ =>
    .bind (uses_of hset) fun _ => .ite (fun _ => trivial) fun _ => uses_of hset) fun _ => trivial

/-- Without failures these operations have one outcome. -/
theorem perform_of_cleans {o : Op} {c : Choice} (ho : o.Cleans r) (hc : CleanupGoesThrough r o c) :
    perform m o c w = perform m o {} w := by
  have hfault : c.fault = none := by
    cases o with
    | rmtree d => exact hc (.inr ⟨d, rfl⟩)
    | mkdir d => exact hc (.inl ho)
    | pathExists p => exact hc (.inl ho)
    | move src dst => exact hc (.inl ho)
    | _ => exact ho.elim
  rw [perform, hfault]
  cases o with
  | rmtree d => simp [succeed, perform, hfault]
  | mkdir d => rfl
  | pathExists p => rfl
  | move src dst => rfl
  | _ => exact ho.elim

theorem wp_cleanup {task : Dir} {source : Option Path}
    (hA : ∀ o c, A o c → CleanupGoesThrough r o c) :
    wp (allowing m A) (cleanup r task source)
      (fun _ w' => ∀ p : Path, p.dir = task → w'.files p = none) (fun _ _ => False) w := by
  have hcalm : wp (calm m) (cleanup r task source)
      (fun _ w' => ∀ p : Path, p.dir = task → w'.files p = none) (fun _ _ => False) w := by
    refine wp_seq succeeds_retainImage (fun _ w₁ _ => ?_) fun _ _ => id
    exact calm_call (o := .rmtree task) rfl fun p hp => if_pos hp
  refine wp_of_uses_le (c := calm m) (fun _ _ _ _ => trivial) ?_ cleanup_cleans hcalm
  rintro w o x w' ho ⟨c, hc, h⟩
  exact ⟨{}, rfl, (perform_of_cleans ho (hA o c hc)).symm.trans h⟩

/-! ### The partial file -/

/-- Every partial file of the destination is gone, or is what it was. -/
def PartialKept (destination : Path) (w w' : World) : Prop :=
  ∀ uuid, w'.files (destination.partialOf uuid) = none ∨
    w'.files (destination.partialOf uuid) = w.files (destination.partialOf uuid)

theorem PartialKept.refl : PartialKept destination w w := fun _ => .inr rfl

theorem PartialKept.trans {w' w'' : World} (h : PartialKept destination w w')
    (h' : PartialKept destination w' w'') : PartialKept destination w w'' := fun uuid => by
  obtain h' | h' := h' uuid
  · exact .inl h'
  · rw [h']
    exact h uuid

theorem PartialKept.of_files {w' : World} (h : w'.files = w.files) : PartialKept destination w w' :=
  fun _ => .inr (congrFun h _)

/-- A program that changes only local files. -/
theorem wp_partialKept {α : Type} {p : Program α} (hdir : destination.dir.isLocal = false)
    (hp : p.Uses (Op.AltersOnly localFiles)) :
    wp (allowing m A) p (fun _ => PartialKept destination w) (fun _ => PartialKept destination w)
      w := by
  have hkept : ∀ w', Kept localFiles w w' → PartialKept destination w w' := fun w' h uuid =>
    .inr (h.files _ fun hlocal => Bool.false_ne_true (hdir.symm.trans hlocal))
  exact wp_mono (wp_kept hp) (fun _ => hkept) fun _ => hkept

theorem wp_partialKept_bind {α β : Type} {p : Program α} {f : α → Program β}
    (hp : wp (allowing m A) p (fun _ => PartialKept destination w)
      (fun _ => PartialKept destination w) w)
    (hf : ∀ a w', wp (allowing m A) (f a) (fun _ => PartialKept destination w')
      (fun _ => PartialKept destination w') w') :
    wp (allowing m A) (p >>= f) (fun _ => PartialKept destination w)
      (fun _ => PartialKept destination w) w :=
  wp_seq hp (fun a w₁ h => wp_mono (hf a w₁) (fun _ _ => h.trans) fun _ _ => h.trans) fun _ _ => id

/-- What no operation of a program alters stays as it is. -/
theorem wp_outside {α : Type} {p : Program α} {T : Set Path}
    (hp : p.Uses fun (o : Op) => ∀ q, o.alters q → q ∈ T) :
    wp (allowing m A) p (fun _ w' => ∀ q ∉ T, w'.files q = w.files q)
      (fun _ w' => ∀ q ∉ T, w'.files q = w.files q) w := by
  refine wp_of_uses (R := fun w w' : World => ∀ q ∉ T, w'.files q = w.files q) (fun _ _ _ => rfl)
    (fun h h' q hq => (h' q hq).trans (h q hq)) (fun _ _ _ _ => trivial) ?_ hp
  rintro w o x w' ho ⟨c, -, hc⟩ q hq
  have hf := files_of_perform (m := m) (w := w) (c := c) fun h => hq (ho q h)
  rwa [hc] at hf

theorem publishBody_alters {source part : Path} {sha256 : String} :
    (publishBody ext r source destination part sha256).Uses
      fun (o : Op) => ∀ q, o.alters q → q ∈ ({part, destination} : Set Path) :=
  .bind (copyAndVerify_within.mono fun _ h q hq => .inl (h.2.1 q hq)) fun _ =>
    .bind (validatePs2Iso_within.mono fun _ h q hq => absurd (h.2.1 q hq) (by simp)) fun _ =>
      .bind (uses_of nofun) fun _ => .ite (fun _ => trivial) fun _ =>
        .bind (uses_of fun _ => id) fun _ => trivial

/-- The copying and renaming touches one partial file only, and the `finally` clause removes it. -/
theorem wp_publish_partialKept {source : Path} {image : ImageResult}
    (hremove : ∀ u c, A (.unlink (destination.partialOf u)) c → c.fault = none)
    (hdir : destination.dir.isLocal = false) (hhidden : destination.hidden = none) :
    wp (allowing m A) (publish ext r source destination image)
      (fun _ => PartialKept destination w) (fun _ => PartialKept destination w) w := by
  unfold publish
  split
  · exact .refl
  refine wp_partialKept_bind (wp_partialKept hdir (altersOnly_of_within validatePs2Iso_within
    (Set.empty_subset _))) fun _ w₁ => ?_
  refine wp_partialKept_bind (wp_partialKept hdir (altersOnly_of_within (R := ∅) (T := ∅)
    verifyFreeSpace_within (Set.empty_subset _))) fun _ w₂ => ?_
  refine wp_partialKept_bind (wp_call_iff.2 fun c _ => ⟨fun u w₃ h => ?_, fun e w₃ h => ?_⟩)
    fun u w₃ => ?_
  · cases succeed_of_perform_ok h
    exact .of_files rfl
  · obtain h | ⟨-, h, -⟩ := cases_of_perform_error h <;> cases h
  have hothers : ∀ u' ≠ u, destination.partialOf u' ∉
      ({destination.partialOf u, destination} : Set Path) := by
    rintro u' hu (h | h)
    · exact hu (Option.some.inj (congrArg Path.hidden h))
    · have := congrArg Path.hidden h
      simp [hhidden, Path.partialOf] at this
  have hunlink : ∀ w₄ : World, (∀ q ∉ ({destination.partialOf u, destination} : Set Path),
      w₄.files q = w₃.files q) → wp (allowing m A) (call (.unlink (destination.partialOf u)))
        (fun _ => PartialKept destination w₃) (fun _ => PartialKept destination w₃) w₄ := by
    intro w₄ h₄
    refine wp_call_iff.2 fun c hc => ⟨fun _ w₅ h => ?_, fun e w₅ h => ?_⟩
    · cases succeed_of_perform_ok h
      intro u'
      by_cases hu : u' = u
      · exact .inl (hu ▸ World.setFile_files_self ..)
      · refine .inr ((World.setFile_files_of_ne _ _ fun h => ?_).trans (h₄ _ (hothers u' hu)))
        exact hu (Option.some.inj (congrArg Path.hidden h))
    · rw [perform, hremove u c hc] at h
      cases h
  exact wp_tryFinally.2
    (wp_mono (wp_outside publishBody_alters) (fun _ => hunlink) fun _ => hunlink)

theorem wp_install_partialKept {source : Path} {image : ImageResult}
    {archive : Option (Path × Path)}
    (hremove : ∀ u c, A (.unlink (destination.partialOf u)) c → c.fault = none)
    (hdir : destination.dir.isLocal = false) (hhidden : destination.hidden = none) :
    wp (allowing m A) (install ext r source destination image archive)
      (fun _ => PartialKept destination w) (fun _ => PartialKept destination w) w :=
  wp_partialKept_bind (wp_publish_partialKept hremove hdir hhidden) fun _ _ =>
    wp_partialKept hdir (.bind (.bind (altersOnly_of_within sha256File_within (Set.empty_subset _))
      fun _ => .ite (fun _ => trivial) fun _ => .bind (altersOnly_of_within validatePs2Iso_within
        (Set.empty_subset _)) fun _ => trivial) fun _ => trivial)

theorem wp_attemptInTask_partialKept {name : String} {task : Dir} (htask : task.isLocal = true)
    (hremove : ∀ u c, A (.unlink (destination.partialOf u)) c → c.fault = none)
    (hdir : destination.dir.isLocal = false) (hhidden : destination.hidden = none) :
    wp (allowing m A) (attemptInTask ext r name destination task)
      (fun _ => PartialKept destination w) (fun _ => PartialKept destination w) w := by
  have hlocal : ∀ p : Path, p.dir = task → p ∈ localFiles := fun p hp =>
    (congrArg Dir.isLocal hp).trans htask
  refine wp_partialKept_bind (wp_partialKept hdir (altersOnly_of_within (R := ∅) (T := ∅)
    reinspect_within (Set.empty_subset _))) fun _ w₁ => ?_
  have hdvd : wp (allowing m A) (installDvd ext r { dir := task, name } destination)
      (fun _ => PartialKept destination w₁) (fun _ => PartialKept destination w₁) w₁ := by
    refine wp_partialKept_bind (wp_partialKept hdir (altersOnly_of_within ripDvdIso_within ?_))
      fun _ _ => wp_install_partialKept hremove hdir hhidden
    rintro _ rfl
    exact hlocal _ rfl
  split
  · exact hdvd
  · exact hdvd
  · have hmoves : ∀ bin cue : Path, bin.dir = task → cue.dir = task →
        (moveToArchive r (removeIsoSuffix name) bin cue).Uses (Op.AltersOnly localFiles) :=
      fun bin cue hbin hcue => moveToArchive_altersOnly (hlocal _ hbin) (hlocal _ hcue)
        fun _ => rfl
    refine wp_partialKept_bind (wp_partialKept hdir (.bind (altersOnly_of_within ripCdBinCue_within
      ?_) fun _ => .bind (altersOnly_of_within (R := ∅) (T := ∅) findPs2CdTrack_within
        (Set.empty_subset _)) fun _ => trivial)) ?_
    · rintro p (rfl | rfl) <;> exact hlocal _ rfl
    rintro ⟨rawResult, number⟩ w₂
    dsimp only
    split
    · exact wp_partialKept hdir (.bind (hmoves _ _ rfl rfl) fun _ => trivial)
    · refine wp_partialKept_bind (wp_partialKept hdir (altersOnly_of_within
        convertCdDataTrackToIso_within ?_)) fun _ _ => wp_partialKept_bind (wp_partialKept hdir
          (archiveIfRetained_altersOnly (hlocal _ rfl) (hlocal _ rfl) fun _ => rfl))
            fun _ _ => wp_install_partialKept hremove hdir hhidden
      rintro _ rfl
      exact hlocal _ rfl
  · exact .refl

/-! ### All runs -/

/-- A run makes no task directory and changes nothing, or it is an attempt in the task directory,
followed by the `finally` clause. -/
theorem execute_ripAndInstall (m : Machine) (ext : Externals) (r : RipRequest) (σ : Oracle)
    (w : World) :
    (execute m σ (ripAndInstall ext r) w = execute m σ (ripAttempt ext r) w ∧
      (execute m σ (ripAttempt ext r) w).world = w ∧
      ∃ e, (execute m σ (ripAttempt ext r) w).result = .error e) ∨
    ∃ name source, oplIsoFilename r.disc.gameId r.title = .ok name ∧
      (source = none ∨ source = some { dir := taskOf r w.fresh, name }) ∧
      (∀ a, (execute m σ (ripAttempt ext r) w).result = .ok a →
        (source = none ↔ r.disc.mediaType = .ps2Cd ∧ r.archiveOnly = true)) ∧
      execute m σ (ripAndInstall ext r) w =
        finish (handlers m σ) (cleanup r (taskOf r w.fresh) source)
          (execute m σ (ripAttempt ext r) w) ∧
      issued m σ (ripAndInstall ext r) w = issued m σ (ripAttempt ext r) w ++
        steps (perform m) σ (cleanup r (taskOf r w.fresh) source)
          (execute m σ (ripAttempt ext r) w).clock (execute m σ (ripAttempt ext r) w).world := by
  have hsame : Act.handlers (perform m) σ = handlers m σ := rfl
  have hmake := execute_of_wp (m := m) (σ := σ) (A := fun _ _ => True) (fun _ _ => trivial)
    (wp_makeTask (r := r) (w := w))
  rw [ripAndInstall_eq_ripInTask]
  unfold ripAttempt execute issued at *
  rw [run_bind, run_bind, steps_bind, steps_bind, hsame]
  rcases hrun : run (handlers m σ) (makeTask r) 0 w with ⟨e | ⟨name, destination, task⟩, w₁, n₁⟩ <;>
    rw [hrun] at hmake
  · exact .inl ⟨rfl, hmake.2 e rfl, e, rfl⟩
  · obtain ⟨hname, rfl, -⟩ := hmake.1 _ rfl
    obtain ⟨source, hsource, hdvd, hrun, hsteps⟩ :=
      @run_ripInTask ext m r w₁ destination σ name (taskOf r w.fresh) n₁
    refine .inr ⟨name, source, hname, hsource, hdvd, hrun, ?_⟩
    dsimp only
    rw [hsteps, List.append_assoc]

theorem wp_ripAttempt_partialKept
    (hdest : destinationForGame r.oplRoot r.disc.mediaType r.disc.gameId r.title = .ok destination)
    (hremove : ∀ u c, A (.unlink (destination.partialOf u)) c → c.fault = none) :
    wp (allowing m A) (ripAttempt ext r) (fun _ => PartialKept destination w)
      (fun _ => PartialKept destination w) w := by
  obtain ⟨⟨folder, hfolder⟩, hhidden, -⟩ := destinationForGame_eq_ok hdest
  have hdir : destination.dir.isLocal = false := by
    rw [hfolder]
    rfl
  refine wp_seq wp_makeTask ?_ fun _ _ h => .of_files (congrArg World.files h)
  rintro ⟨name, destination', task⟩ w₁ ⟨-, rfl, hfiles, hdest'⟩
  rw [hdest] at hdest'
  cases hdest'
  have hkept : PartialKept destination' w w₁ := .of_files hfiles
  exact wp_mono (wp_attemptInTask_partialKept rfl hremove hdir hhidden) (fun _ _ => hkept.trans)
    fun _ _ => hkept.trans

/-- A removal that goes through does not change the outcome of the statement before it. -/
theorem result_publishBody {σ : Oracle} {source part : Path} {sha256 : String} {n : ℕ}
    (hunlink : (σ (run (handlers m σ) (publishBody ext r source destination part sha256) n w).clock
      (.unlink part)).fault = none) :
    (run (handlers m σ) ((publishBody ext r source destination part sha256).tryFinally
        (call (.unlink part))) n w).result =
      (run (handlers m σ) (publishBody ext r source destination part sha256) n w).result := by
  rw [run_tryFinally]
  refine (finish_of_ok ?_).1
  show (run (handlers m σ) (call (.unlink part)) _ _).result = _
  simp [call, Prog.perform, run, handlers, perform, hunlink, succeed]

/-- **Cleanup.** Suppose that the run can remove its partial file, and that after the `try`
statement it can remove the task directory and, if images are retained, nothing fails. Then the run
ends like its attempt, without files in its task directory and without a partial file; and a removal
of the partial file that goes through does not change the outcome of the copying either. -/
theorem ripAndInstall_cleansUp {σ : Oracle}
    (hunlink : ∀ s ∈ issued m σ (ripAndInstall ext r) w, ∀ (p : Path) u,
      s.op = .unlink (p.partialOf u) → s.choice.fault = none)
    (hafter : ∀ s ∈ (issued m σ (ripAndInstall ext r) w).drop
      (execute m σ (ripAttempt ext r) w).clock, CleanupGoesThrough r s.op s.choice) :
    let attempt := execute m σ (ripAttempt ext r) w
    let outcome := execute m σ (ripAndInstall ext r) w
    outcome.result = attempt.result ∧
    (outcome.world = w ∨ ∀ p : Path, p.dir = taskOf r w.fresh → outcome.world.files p = none) ∧
    (∀ destination, destinationForGame r.oplRoot r.disc.mediaType r.disc.gameId r.title =
      .ok destination → PartialKept destination w outcome.world) ∧
    ∀ source (destination : Path) sha256 u n w₁,
      (σ (run (handlers m σ) (publishBody ext r source destination (destination.partialOf u)
        sha256) n w₁).clock (.unlink (destination.partialOf u))).fault = none →
      (run (handlers m σ) ((publishBody ext r source destination (destination.partialOf u)
        sha256).tryFinally (call (.unlink (destination.partialOf u)))) n w₁).result =
      (run (handlers m σ) (publishBody ext r source destination (destination.partialOf u) sha256) n
        w₁).result := by
  intro attempt outcome
  obtain ⟨hsame, hworld, -⟩ | ⟨name, source, -, hsource, -, hfinish, hissued⟩ :=
    execute_ripAndInstall m ext r σ w
  · -- The run ended before it had a task directory.
    have hunchanged : outcome.world = w := (congrArg Outcome.world hsame).trans hworld
    exact ⟨congrArg Outcome.result hsame, .inl hunchanged,
      fun destination _ => .of_files (congrArg World.files hunchanged),
      fun _ _ _ _ _ _ => result_publishBody⟩
  · -- The steps of the run are those of the attempt, and then those of the `finally` clause.
    have hclock : attempt.clock = (issued m σ (ripAttempt ext r) w).length := clock_execute
    have hlater : ∀ s ∈ steps (perform m) σ (cleanup r (taskOf r w.fresh) source) attempt.clock
        attempt.world, CleanupGoesThrough r s.op s.choice := fun s hs =>
      hafter s (by rw [hissued, hclock, List.drop_left, ← hclock]; exact hs)
    have hrun := run_of_wp_steps hlater (wp_cleanup (m := m) fun _ _ => id)
    -- The `finally` clause goes through, and keeps the result of the attempt.
    have hok : (run (handlers m σ) (cleanup r (taskOf r w.fresh) source) attempt.clock
        attempt.world).result = .ok () := by
      cases hr : (run (handlers m σ) (cleanup r (taskOf r w.fresh) source) attempt.clock
        attempt.world).result with
      | ok => rfl
      | error e => exact (hrun.2 e hr).elim
    have houtcome : outcome = finish (handlers m σ) (cleanup r (taskOf r w.fresh) source) attempt :=
      hfinish
    obtain ⟨hresult, hworld⟩ := finish_of_ok hok
    refine ⟨houtcome ▸ hresult, .inr ?_, fun destination hdest => ?_,
      fun _ _ _ _ _ _ => result_publishBody⟩
    · rw [houtcome, hworld]
      exact hrun.1 () hok
    · have hkept : PartialKept destination w attempt.world := by
        have hattempt := execute_of_wp_issued (m := m) (σ := σ) (p := ripAttempt ext r) (w := w)
          (A := fun o c => ∀ (p : Path) u, o = .unlink (p.partialOf u) → c.fault = none)
          (fun s hs => hunlink s (by rw [hissued]; exact List.mem_append_left _ hs))
          (wp_ripAttempt_partialKept hdest fun u c h => h _ u rfl)
        cases hr : attempt.result with
        | ok a => exact hattempt.1 a hr
        | error e => exact hattempt.2 e hr
      have hdir : destination.dir.isLocal = false := by
        obtain ⟨⟨folder, hfolder⟩, -⟩ := destinationForGame_eq_ok hdest
        rw [hfolder]
        rfl
      have htail : wp (allowing m σ.choices) (cleanup r (taskOf r w.fresh) source) _ _
        attempt.world :=
        wp_partialKept hdir (cleanup_altersOnly rfl fun p hp => by
          obtain rfl | rfl := hsource <;> cases hp
          rfl)
      have hkept' := (run_of_wp (allowing_admits (σ := σ) fun n o => ⟨n, rfl⟩) (n := attempt.clock)
        htail).1 () hok
      rw [houtcome, hworld]
      exact hkept.trans hkept'

/-- The request for the sample DVD, with the image retained. -/
def retainRequest : RipRequest :=
  { sampleRequest sampleDvd with
    settings := { temporaryDirectory := "C:\\Temp", retainTemporaryImage := true } }

/-- The theorem for the sample DVD. -/
theorem ripAndInstall_cleansUp_sample :
    let attempt := execute (sampleMachine 0x10) noFaults (ripAttempt
      (sampleMachine 0x10).toExternals retainRequest) World.blank
    let outcome := execute (sampleMachine 0x10) noFaults (ripAndInstall
      (sampleMachine 0x10).toExternals retainRequest) World.blank
    outcome.result = attempt.result ∧
    (outcome.world = World.blank ∨
      ∀ p : Path, p.dir = taskOf retainRequest 0 → outcome.world.files p = none) ∧
    PartialKept sampleDestination World.blank outcome.world := by
  have hclean : ∀ s ∈ issued (sampleMachine 0x10) noFaults (ripAndInstall
      (sampleMachine 0x10).toExternals retainRequest) World.blank, s.choice = ({} : Choice) :=
    forall_issued (A := fun _ c => c = {}) fun _ _ => rfl
  have hunlink : ∀ s ∈ issued (sampleMachine 0x10) noFaults (ripAndInstall
      (sampleMachine 0x10).toExternals retainRequest) World.blank, ∀ (p : Path) u,
        s.op = .unlink (p.partialOf u) → s.choice.fault = none := fun s hs _ _ _ => by
    rw [hclean s hs]
  obtain ⟨hresult, htask, hpartial, -⟩ := ripAndInstall_cleansUp hunlink fun s hs _ => by
    rw [hclean s (List.mem_of_mem_drop hs)]
  exact ⟨hresult, htask, hpartial _ destinationForGame_sample⟩

/-! ### An image that cannot be retained -/

/-- No file can be moved. -/
def retentionFails : Oracle := fun _ o =>
  match o with
  | .move .. => { fault := some (.osError "The device is not ready") }
  | _ => {}

def Op.NotMove (o : Op) : Prop := ∀ src dst, o ≠ .move src dst

theorem Op.Within.notMove {R T : Set Path} {o : Op} (h : o.Within R T) : o.NotMove := by
  rintro src dst rfl
  exact Bool.true_eq_false_eq_False.elim h.2.2

theorem makeTask_notMove : (makeTask r).Uses Op.NotMove :=
  .bind (uses_lift _) fun _ => .bind (uses_lift _) fun _ => .bind (uses_of nofun) fun _ =>
    .ite (fun _ => trivial) fun _ => .bind (uses_of nofun) fun _ => .bind (uses_of nofun)
      fun _ => trivial

theorem install_notMove {source : Path} {image : ImageResult} {archive : Option (Path × Path)} :
    (install ext r source destination image archive).Uses Op.NotMove := by
  have hverify : (verifyFreeSpace r.oplRoot image.size).Uses (Op.Within ∅ ∅) :=
    verifyFreeSpace_within
  refine .bind (.ite (fun _ => trivial) fun _ => .bind (validatePs2Iso_within.mono fun _ =>
    Op.Within.notMove) fun _ => .bind (hverify.mono fun _ => Op.Within.notMove) fun _ =>
      .bind (uses_of nofun) fun u => .tryFinally ?_ (uses_of nofun)) fun _ => .bind ?_
        fun _ => trivial
  · exact .bind (copyAndVerify_within.mono fun _ => Op.Within.notMove) fun _ =>
      .bind (validatePs2Iso_within.mono fun _ => Op.Within.notMove) fun _ => .bind (uses_of nofun)
        fun _ => .ite (fun _ => trivial) fun _ => .bind (uses_of nofun) fun _ => trivial
  · exact .bind (sha256File_within.mono fun _ => Op.Within.notMove) fun _ => .ite (fun _ => trivial)
      fun _ => .bind (validatePs2Iso_within.mono fun _ => Op.Within.notMove) fun _ => trivial

theorem ripAttempt_notMove (hdvd : r.disc.mediaType = .ps2Dvd5) :
    (ripAttempt ext r).Uses Op.NotMove := by
  have hinspect : (reinspect r).Uses (Op.Within ∅ ∅) := reinspect_within
  refine .bind makeTask_notMove fun t => .bind (hinspect.mono fun _ => Op.Within.notMove)
    fun _ => ?_
  rw [hdvd]
  exact .bind (ripDvdIso_within.mono fun _ => Op.Within.notMove) fun _ => install_notMove

theorem install_alters {source : Path} {image : ImageResult} {archive : Option (Path × Path)} :
    (install ext r source destination image archive).Uses
      fun (o : Op) => ∀ q, o.alters q → q ∈ {q : Path | q.dir = destination.dir} := by
  have hnone : ∀ {R : Set Path} {o : Op}, o.Within R ∅ → ∀ q, o.alters q →
      q ∈ {q : Path | q.dir = destination.dir} := fun h q hq => absurd (h.2.1 q hq) (by simp)
  have hverify : (verifyFreeSpace r.oplRoot image.size).Uses (Op.Within ∅ ∅) :=
    verifyFreeSpace_within
  refine .bind (.ite (fun _ => trivial) fun _ => .bind (validatePs2Iso_within.mono fun _ => hnone)
    fun _ => .bind (hverify.mono fun _ => hnone) fun _ => .bind (uses_of nofun) fun u =>
      .tryFinally (publishBody_alters.mono fun o h q hq => ?_) (uses_of ?_)) fun _ =>
        .bind (.bind (sha256File_within.mono fun _ => hnone) fun _ => .ite (fun _ => trivial)
          fun _ => .bind (validatePs2Iso_within.mono fun _ => hnone) fun _ => trivial)
            fun _ => trivial
  · obtain rfl | rfl := h q hq <;> rfl
  · rintro q rfl
    rfl

/-- After an attempt that returns the image of a DVD is in the task directory. -/
theorem ensures_ripAttempt_image (hdvd : r.disc.mediaType = .ps2Dvd5)
    (hstores : ∀ p, Stores A p) :
    ensures (allowing m A) (ripAttempt ext r) (fun _ w' => ∀ name,
      oplIsoFilename r.disc.gameId r.title = .ok name →
        (w'.files { dir := taskOf r w.fresh, name }).isSome ∧
        w'.files (r.retainedPath name) = w.files (r.retainedPath name)) w := by
  refine ensures_bind (ensures_of_wp wp_makeTask) ?_
  rintro ⟨name, destination, task⟩ w₁ ⟨hname, rfl, hfiles, hdest⟩
  obtain ⟨⟨folder, hfolder⟩, -⟩ := destinationForGame_eq_ok hdest
  have hlocal : ∀ p : Path, p.dir.isLocal = true → p ∉ {q : Path | q.dir = destination.dir} := by
    rintro p hp (hq : p.dir = destination.dir)
    rw [hq, show destination.dir = _ from hfolder] at hp
    cases hp
  refine ensures_bind (ensures_of_wp (wp_frame (R := ∅) (T := ∅) reinspect_within)) ?_
  intro _ w₂ hframe₂
  rw [hdvd]
  refine ensures_bind (ensures_frame ripDvdIso_within ensures_ripDvdIso) ?_
  rintro image w₃ ⟨⟨-, -, -, hstored⟩, hframe₃⟩
  refine ensures_mono (ensures_of_wp (wp_outside install_alters)) ?_
  rintro _ w₄ hout name' hname'
  rw [hname] at hname'
  cases hname'
  constructor
  · rw [hout _ (hlocal _ rfl), (hstored (hstores _)).1]
    rfl
  · rw [hout _ (hlocal _ rfl), hframe₃.files _ (by simp [RipRequest.retainedPath, taskOf]),
      hframe₂.files _ (by simp), hfiles]

theorem wp_call_retentionFails {o : Op} (ho : o.NotMove) {Q : o.Answer → World → Prop}
    {a : o.Answer} {E : PyError → World → Prop} {w' : World} (h : succeed m {} w o = (.ok a, w')) (hQ : Q a w') :
    wp (allowing m fun o c => c = retentionFails 0 o) (call o) Q E w :=
  wp_of_calm (σ := retentionFails) (fun o ho => by
    cases o with
    | move src dst => exact absurd rfl (ho src dst)
    | _ => rfl) (uses_of ho) (calm_call h hQ)

/-- If nothing can be moved, the image is there and none of its name is retained, the `finally`
clause raises. -/
theorem wp_cleanup_retentionFails {task : Dir} {source : Path}
    (hset : r.settings.retainTemporaryImage = true) (hsource : (w.files source).isSome)
    (hretained : w.files (r.retainedPath source.name) = none) :
    wp (allowing m fun o c => c = retentionFails 0 o) (cleanup r task (some source))
    (fun _ _ => False)
      (fun _ _ => True) w := by
  unfold cleanup retainImage
  rw [hset]
  refine wp_bind.2 (wp_bind.2 (wp_call_retentionFails (o := .pathExists source) nofun rfl ?_))
  rw [hsource]
  refine wp_bind.2 (wp_call_retentionFails (o := .mkdir _) nofun rfl ?_)
  refine wp_bind.2 (wp_call_retentionFails (o := .pathExists _) nofun rfl ?_)
  rw [hretained]
  refine wp_call_iff.2 fun c hc => ⟨fun _ w' h => ?_, fun _ _ _ => trivial⟩
  rw [hc] at h
  cases h

theorem run_retentionFails {α : Type} {p : Program α} {n : ℕ} (hp : p.Uses Op.NotMove) :
    run (handlers m retentionFails) p n w = run (handlers m noFaults) p n w := by
  refine run_congr_of_uses hp fun k w o ho => ?_
  cases o with
  | move src dst => exact absurd rfl (ho src dst)
  | _ => rfl

/-- A run that would return otherwise loses its result when its image cannot be retained. -/
theorem result_of_retentionFails {name : String} {result : InstallResult}
    (hdvd : r.disc.mediaType = .ps2Dvd5) (hset : r.settings.retainTemporaryImage = true)
    (hname : oplIsoFilename r.disc.gameId r.title = .ok name)
    (hnew : w.files { dir := taskOf r w.fresh, name } = none)
    (hretained : w.files (r.retainedPath name) = none)
    (hok : (execute m noFaults (ripAndInstall ext r) w).result = .ok result) :
    (execute m retentionFails (ripAndInstall ext r) w).result ≠
      (execute m retentionFails (ripAttempt ext r) w).result := by
  have hcongr : execute m retentionFails (ripAttempt ext r) w =
    execute m noFaults (ripAttempt ext r) w :=
    run_retentionFails (ripAttempt_notMove hdvd)
  have hattempt : (execute m retentionFails (ripAttempt ext r) w).result = .ok result := by
    rw [hcongr]
    obtain ⟨hsame, -⟩ | ⟨_, _, -, -, -, hfinish, -⟩ := execute_ripAndInstall m ext r
      noFaults w
    · rwa [← hsame]
    · rw [hfinish] at hok
      exact result_of_finish hok
  have hstores : ∀ p, Stores retentionFails.choices p := by
    rintro p data c (⟨n, rfl⟩ | ⟨n, rfl⟩) - <;> rfl
  obtain ⟨hsome, hkept⟩ := (execute_of_wp (m := m) (σ := retentionFails) (fun n o => ⟨n, rfl⟩)
    (ensures_ripAttempt_image hdvd hstores)).1 result hattempt name hname
  obtain ⟨-, hworld, -⟩ | ⟨name', source, hname', hsource, himage, hfinish, -⟩ :=
    execute_ripAndInstall m ext r retentionFails w
  · rw [hworld, hnew] at hsome
    cases hsome
  · rw [hname] at hname'
    cases hname'
    have hne : source ≠ none := fun hnone => by
      have hcd := ((himage result hattempt).1 hnone).1
      rw [hdvd] at hcd
      cases hcd
    obtain rfl := hsource.resolve_left hne
    have hclean : wp (allowing m fun o c => c = retentionFails 0 o) (cleanup r (taskOf r w.fresh) _)
        _ _ _ :=
      wp_cleanup_retentionFails hset hsome (hkept.trans hretained)
    obtain ⟨e, he, -⟩ :=
      exists_error_of_wp (n := (execute m retentionFails (ripAttempt ext r) w).clock)
      (allowing_admits (σ := retentionFails) fun _ _ => rfl) hclean
    rw [hfinish, finish_of_error he, hattempt]
    exact nofun

theorem ready_retainRequest : Ready (sampleMachine 0x10) retainRequest World.blank :=
  ⟨_, destinationForGame_sample, nofun, ⟨sampleDvd, rfl⟩, readyDvd_sample⟩

theorem oplIsoFilename_retainRequest :
    oplIsoFilename retainRequest.disc.gameId retainRequest.title = .ok sampleDestination.name :=
  (destinationForGame_eq_ok destinationForGame_sample).2.2

theorem not_ripAndInstall_cleansUp :
    ¬ ∀ (m : Machine) (σ : Oracle) (r : RipRequest) (w : World),
      (∀ n (p : Path), (σ n (.unlink p)).fault = none) →
      (∀ n d, (σ n (.rmtree d)).fault = none) →
      (execute m σ (ripAndInstall m.toExternals r) w).result =
        (execute m σ (ripAttempt m.toExternals r) w).result := by
  intro h
  have hsame := h (sampleMachine 0x10) retentionFails retainRequest World.blank (fun _ _ => rfl)
    fun _ _ => rfl
  obtain ⟨result, hrun⟩ :=
    (returns_iff_ready hiddenFresh_blank tasksFresh_blank).2 ready_retainRequest
  have hdvd : retainRequest.disc.mediaType = .ps2Dvd5 := rfl
  have hnew : ∀ p, World.blank.files p = none := fun _ => rfl
  exact result_of_retentionFails hdvd rfl oplIsoFilename_retainRequest (hnew _) (hnew _) hrun hsame

end Ps2Ripper
