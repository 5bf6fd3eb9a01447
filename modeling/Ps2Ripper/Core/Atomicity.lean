import Ps2Ripper.Core.Publication

/-!
# What a failed run leaves at the destination

The only step that changes the destination is the rename that publishes the image, and a run carries
it out at most once (`PublishedTo`).  Everything after it can still raise, and nothing undoes it:
the destination is as it was after every failure exactly when the rename put back the bytes that
were there, or all the steps after it go through.
-/

namespace Ps2Ripper

open Interactive Prog

variable {m : Machine} {A : Op → Choice → Prop} {r : RipRequest} {w w' w'' : World}
  {ext : Externals} {destination : Path} {α : Type}

/-- The destination is as it was, and nothing was published. -/
structure Untouched (destination : Path) (w w' : World) : Prop where
  file : w'.files destination = w.files destination
  published : w'.published = w.published

/-- `data` was published at the destination, and is there. -/
structure PublishedTo (destination : Path) (data : Bytes) (w w' : World) : Prop where
  file : w'.files destination = some data
  published : w'.published = w.published ++ [(destination, data)]

/-- The image was published once, or not at all. -/
def PublishedOnce (destination : Path) (w w' : World) : Prop :=
  Untouched destination w w' ∨ ∃ data, PublishedTo destination data w w'

theorem Untouched.refl : Untouched destination w w := ⟨rfl, rfl⟩

theorem Untouched.trans (h : Untouched destination w w') (h' : Untouched destination w' w'') :
    Untouched destination w w'' :=
  ⟨h'.file.trans h.file, h'.published.trans h.published⟩

theorem PublishedTo.after {data : Bytes} (h : PublishedTo destination data w w')
    (h' : Untouched destination w' w'') : PublishedTo destination data w w'' :=
  ⟨h'.file.trans h.file, h'.published.trans h.published⟩

theorem PublishedOnce.before (h : Untouched destination w w')
    (h' : PublishedOnce destination w' w'') : PublishedOnce destination w w'' := by
  obtain h' | ⟨data, h'⟩ := h'
  · exact .inl (h.trans h')
  · exact .inr ⟨data, h'.file, by rw [h'.published, h.published]⟩

theorem PublishedOnce.after (h : PublishedOnce destination w w')
    (h' : Untouched destination w' w'') : PublishedOnce destination w w'' := by
  obtain h | ⟨data, h⟩ := h
  · exact .inl (h.trans h')
  · exact .inr ⟨data, h.after h'⟩

theorem Kept.untouched {T : Set Path} (h : Kept T w w') (hd : destination ∉ T) :
    Untouched destination w w' :=
  ⟨h.files _ hd, h.published⟩

theorem Frame.untouched {T : Set Path} (h : Frame T w w') (hd : destination ∉ T) :
    Untouched destination w w' :=
  ⟨h.files _ hd, h.published⟩

/-- A program that stays away from the destination leaves it untouched. -/
theorem wp_untouched {T : Set Path} {p : Program α} (hp : p.Uses (Op.AltersOnly T))
    (hd : destination ∉ T) :
    wp (allowing m A) p (fun _ w' => Untouched destination w w')
      (fun _ w' => Untouched destination w w') w :=
  wp_mono (wp_kept hp) (fun _ _ h => h.untouched hd) fun _ _ h => h.untouched hd

/-- Sequencing after a program that leaves the destination untouched. -/
theorem wp_published_bind {β : Type} {p : Program α} {f : α → Program β}
    (hp : wp (allowing m A) p (fun _ w' => Untouched destination w w')
      (fun _ w' => Untouched destination w w') w)
    (hf : ∀ a w', wp (allowing m A) (f a) (fun _ => PublishedOnce destination w')
      (fun _ => PublishedOnce destination w') w') :
    wp (allowing m A) (p >>= f) (fun _ w' => PublishedOnce destination w w')
      (fun _ w' => PublishedOnce destination w w') w :=
  wp_seq hp (fun a w₁ h => wp_mono (hf a w₁) (fun _ _ => PublishedOnce.before h)
    fun _ _ => PublishedOnce.before h) fun _ _ => .inl

/-- Sequencing before a program that leaves the destination untouched. -/
theorem wp_published_then {β : Type} {p : Program α} {f : α → Program β}
    (hp : wp (allowing m A) p (fun _ w' => PublishedOnce destination w w')
      (fun _ w' => PublishedOnce destination w w') w)
    (hf : ∀ a w', wp (allowing m A) (f a) (fun _ => Untouched destination w')
      (fun _ => Untouched destination w') w') :
    wp (allowing m A) (p >>= f) (fun _ w' => PublishedOnce destination w w')
      (fun _ w' => PublishedOnce destination w w') w :=
  wp_seq hp (fun a w₁ h => wp_mono (hf a w₁) (fun _ _ => h.after) fun _ _ => h.after)
    fun _ _ => id

theorem wp_published_finally {p : Program α} {f : Program Unit}
    (hp : wp (allowing m A) p (fun _ w' => PublishedOnce destination w w')
      (fun _ w' => PublishedOnce destination w w') w)
    (hf : ∀ w', wp (allowing m A) f (fun _ => Untouched destination w')
      (fun _ => Untouched destination w') w') :
    wp (allowing m A) (p.tryFinally f) (fun _ w' => PublishedOnce destination w w')
      (fun _ w' => PublishedOnce destination w w') w :=
  wp_tryFinally.2 (wp_mono hp
    (fun _ w₁ h => wp_mono (hf w₁) (fun _ _ => h.after) fun _ _ => h.after)
    fun _ w₁ h => wp_mono (hf w₁) (fun _ _ => h.after) fun _ _ => h.after)

theorem wp_onRaise {p : Program α} {f : Program Unit}
    (hp : wp (allowing m A) p (fun _ w' => Untouched destination w w')
      (fun _ w' => Untouched destination w w') w)
    (hf : ∀ w', wp (allowing m A) f (fun _ => Untouched destination w')
      (fun _ => Untouched destination w') w') :
    wp (allowing m A) (onRaise p f) (fun _ w' => Untouched destination w w')
      (fun _ w' => Untouched destination w w') w :=
  wp_tryCatch.2 (wp_mono hp (fun _ _ => id) fun _ w₁ h => wp_bind.2
    (wp_mono (hf w₁) (fun _ _ => h.trans) fun _ _ => h.trans))

/-! ### The stages of a run -/

/-- The rename is the last step of the body: when the body raises, nothing was published. -/
theorem wp_publishBody {source part : Path} {sha256 : String} (hne : destination ≠ part) :
    wp (allowing m A) (publishBody ext r source destination part sha256)
      (fun _ w' => ∃ data, PublishedTo destination data w w')
      (fun _ w' => Untouched destination w w') w := by
  have hcopy : wp (allowing m A) (copyAndVerify ext source part sha256 true r.progress)
      (fun _ w' => Untouched destination w w') (fun _ w' => Untouched destination w w') w :=
    wp_mono (wp_frame copyAndVerify_within) (fun _ _ h => h.untouched (by simpa using hne))
      fun _ _ h => h.untouched (by simpa using hne)
  refine wp_seq hcopy (fun hash w₁ h₁ => ?_) fun _ _ => id
  refine wp_seq (wp_frame validatePs2Iso_within) (fun _ w₂ h₂ => ?_)
    fun _ _ h => h₁.trans (h.untouched (by simp))
  have h₂ := h₁.trans (h₂.untouched (by simp))
  refine wp_seq (wp_frame (R := {destination}) (T := ∅) (uses_of (by simp)))
    (fun present w₃ h₃ => ?_)
    fun _ _ h => h₂.trans (h.untouched (by simp))
  have h₃ := h₂.trans (h₃.untouched (by simp))
  split
  · exact h₃
  · refine wp_bind.2 (wp_call_iff.2 fun c _ => ⟨fun _ w₄ h => ?_, fun e w₄ h => ?_⟩)
    · have hs := succeed_of_perform_ok h
      simp only [succeed] at hs
      split at hs
      · cases hs
        exact ⟨_, World.setFile_files_self .., by rw [← h₃.published]⟩
      · cases hs
    · obtain hs | ⟨-, -, hf⟩ := cases_of_perform_error h
      · simp only [succeed] at hs
        split at hs <;> cases hs
        exact h₃
      · rw [hf]
        exact h₃

theorem wp_publish {source : Path} {image : ImageResult} (hhidden : destination.hidden = none) :
    wp (allowing m A) (publish ext r source destination image)
      (fun _ w' => PublishedOnce destination w w') (fun _ w' => PublishedOnce destination w w')
      w := by
  unfold publish
  split
  · exact .inl .refl
  refine wp_published_bind (wp_untouched (T := ∅) (altersOnly_of_within validatePs2Iso_within
    (by simp)) (by simp)) fun _ w₁ => ?_
  refine wp_published_bind (wp_untouched (T := ∅) (altersOnly_of_within (R := ∅)
    verifyFreeSpace_within le_rfl) (by simp)) fun _ w₂ => ?_
  refine wp_published_bind (wp_call_iff.2 fun c _ => ⟨fun u w₃ h => ?_, fun e w₃ h => ?_⟩)
    fun u w₃ => ?_
  · cases succeed_of_perform_ok h
    exact ⟨rfl, rfl⟩
  · obtain hs | ⟨-, hf, -⟩ := cases_of_perform_error h
    · cases hs
    · cases hf
  have hne : destination ≠ destination.partialOf u := fun h => by
    have := congrArg Path.hidden h
    simp [hhidden, Path.partialOf] at this
  refine wp_published_finally (wp_mono (wp_publishBody hne) (fun _ _ => .inr) fun _ _ => .inl)
    fun w₄ => ?_
  exact wp_untouched (T := {destination.partialOf u}) (uses_of (by simp)) (by simpa using hne)

theorem wp_verifyPublished {image : ImageResult} {hash : String} :
    wp (allowing m A) (verifyPublished ext r destination image hash)
      (fun _ w' => Untouched destination w w') (fun _ w' => Untouched destination w w') w := by
  refine wp_untouched (T := ∅) (.bind (altersOnly_of_within sha256File_within le_rfl) fun _ =>
    .ite (fun _ => trivial) fun _ => .bind (altersOnly_of_within validatePs2Iso_within le_rfl)
      fun _ => trivial) (by simp)

theorem wp_install {source : Path} {image : ImageResult} {archive : Option (Path × Path)}
    (hhidden : destination.hidden = none) :
    wp (allowing m A) (install ext r source destination image archive)
      (fun _ w' => PublishedOnce destination w w') (fun _ w' => PublishedOnce destination w w') w :=
  wp_published_then (wp_publish hhidden) fun _ _ =>
    wp_seq wp_verifyPublished (fun _ _ h => h) fun _ _ => id

theorem wp_ripInTask {name : String} {task : Dir} (htask : task.isLocal = true)
    (hdir : destination.dir.isLocal = false) (hhidden : destination.hidden = none) :
    wp (allowing m A) (ripInTask ext r name destination task)
      (fun _ w' => PublishedOnce destination w w') (fun _ w' => PublishedOnce destination w w')
      w := by
  have hd : destination ∉ localFiles := fun h => by simp_all [localFiles]
  have hlocal : ∀ p : Path, p.dir = task → p ∈ localFiles :=
    fun p hp => by simp [localFiles, hp, htask]
  have hclean : ∀ (s : Option Path) (w' : World), (∀ p ∈ s, p.dir = task) →
      wp (allowing m A) (cleanup r task s) (fun _ => Untouched destination w')
        (fun _ => Untouched destination w') w' := fun s w' hs =>
    wp_untouched (cleanup_altersOnly htask fun p hp => by rw [hs p hp, htask]) hd
  refine wp_published_bind (wp_onRaise (wp_untouched (T := ∅) (altersOnly_of_within (R := ∅)
    reinspect_within le_rfl) (by simp)) fun w' => hclean _ w' (by simp)) fun current w₁ => ?_
  have hdvd : wp (allowing m A) ((installDvd ext r { dir := task, name } destination).tryFinally
      (cleanup r task (some { dir := task, name }))) (fun _ => PublishedOnce destination w₁)
      (fun _ => PublishedOnce destination w₁) w₁ := by
    refine wp_published_finally (wp_published_bind (wp_untouched (altersOnly_of_within
      ripDvdIso_within ?_) hd) fun image w₂ => wp_install hhidden) fun w' => hclean _ w' (by simp)
    simpa using hlocal _ rfl
  split
  · exact hdvd
  · exact hdvd
  · have hmoves : ∀ bin cue : Path, bin.dir = task → cue.dir = task →
        (moveToArchive r (removeIsoSuffix name) bin cue).Uses (Op.AltersOnly localFiles) :=
      fun bin cue hbin hcue => moveToArchive_altersOnly (hlocal _ hbin) (hlocal _ hcue)
        fun _ => rfl
    refine wp_published_bind (wp_onRaise (wp_untouched (.bind (altersOnly_of_within
      ripCdBinCue_within ?_) fun _ => .bind (altersOnly_of_within (R := ∅) (T := ∅)
        findPs2CdTrack_within (by simp)) fun _ => trivial) hd) fun w' => hclean _ w' (by simp)) ?_
    · rintro p (rfl | rfl) <;> exact hlocal _ rfl
    rintro ⟨rawResult, number⟩ w₂
    dsimp only
    split
    · refine wp_published_finally
        (wp_mono (wp_untouched (.bind (hmoves _ _ rfl rfl) fun _ => trivial)
        hd) (fun _ _ => .inl) fun _ _ => .inl) fun w' => hclean _ w' (by simp)
    · refine wp_published_finally (wp_published_bind (wp_untouched (altersOnly_of_within
        convertCdDataTrackToIso_within ?_) hd) fun image w₃ => wp_published_bind (wp_untouched
          (archiveIfRetained_altersOnly (hlocal _ rfl) (hlocal _ rfl) fun _ => rfl) hd)
            fun _ _ => wp_install hhidden) fun w' => hclean _ w' (by simp)
      simpa using hlocal _ rfl
  · exact wp_mono (wp_onRaise (p := Prog.raise _) Untouched.refl fun w' => hclean _ w' (by simp))
      (fun _ _ => .inl) fun _ _ => .inl

/-- Every run publishes the image at its destination once, or not at all. -/
theorem wp_ripAndInstall
    (hdest : destinationForGame r.oplRoot r.disc.mediaType r.disc.gameId r.title =
      .ok destination) :
    wp (allowing m A) (ripAndInstall ext r) (fun _ w' => PublishedOnce destination w w')
      (fun _ w' => PublishedOnce destination w w') w := by
  obtain ⟨⟨folder, hfolder⟩, hhidden, -⟩ := destinationForGame_eq_ok hdest
  have hstep : ∀ o : Op, o.AltersOnly ∅ → ∀ w', wp (allowing m A) (call o)
      (fun _ => Untouched destination w') (fun _ => Untouched destination w') w' :=
    fun o ho w' => wp_untouched (uses_of ho) (by simp)
  refine wp_bind.2 ((wp_lift _).2 ⟨fun name _ => ?_, fun _ _ => .inl .refl⟩)
  refine wp_bind.2 ((wp_lift _).2 ⟨fun p hp => ?_, fun _ _ => .inl .refl⟩)
  rw [hdest] at hp
  cases hp
  refine wp_published_bind (hstep _ (by simp) _) fun present w₁ => ?_
  split
  · exact .inl .refl
  refine wp_published_bind (hstep _ (by simp) _) fun _ w₂ => ?_
  refine wp_published_bind (wp_call_iff.2 fun c _ => ⟨fun k w₃ h => ?_, fun e w₃ h => ?_⟩)
    fun k w₃ => wp_ripInTask rfl (by rw [hfolder]; rfl) hhidden
  · cases succeed_of_perform_ok h
    exact ⟨rfl, rfl⟩
  · obtain hs | ⟨-, -, hf⟩ := cases_of_perform_error h
    · cases hs
    · rw [hf]
      exact .refl

/-! ### Atomicity -/

/-- **Atomicity.**  A run leaves the file at the destination as it was whenever it raises, exactly
when each of its renames to the destination puts there the bytes that were there before, or is
followed by steps that go through and see no cancellation. -/
theorem destination_unchanged_iff
    (hlower : ∀ data, (m.hexdigest data).toLower = m.hexdigest data)
    (hdest : destinationForGame r.oplRoot r.disc.mediaType r.disc.gameId r.title = .ok destination)
    (σ : Oracle) (w : World) :
    (∀ e, (execute m σ (ripAndInstall m.toExternals r) w).result = .error e →
        (execute m σ (ripAndInstall m.toExternals r) w).world.files destination =
          w.files destination) ↔
      ∀ before s after data, issued m σ (ripAndInstall m.toExternals r) w = before ++ s :: after →
        Publishes destination data s →
          w.files destination = some data ∨ ∀ x ∈ after, Clean x.op x.choice := by
  have hdecided := execute_of_traced (σ := σ) (traced_and traced_recorded
    (decidedAfter_ripAndInstall (w := w) hlower hdest))
  have hrun := execute_of_wp (m := m) (σ := σ) (p := ripAndInstall m.toExternals r)
    (A := fun _ _ => True) (fun _ _ => trivial) (wp_ripAndInstall (w := w) hdest)
  constructor
  · intro hunchanged before s after data hsteps hs
    rcases hresult : (execute m σ (ripAndInstall m.toExternals r) w).result with e | result
    · obtain ⟨⟨new, hnew, hmem⟩, -⟩ := hdecided.2 e hresult
      have hdata : (destination, data) ∈ new := (hmem _).2 ⟨s, by simp [hsteps], hs⟩
      obtain h | ⟨data', h⟩ := hrun.2 e hresult
      · rw [h.published, List.self_eq_append_right] at hnew
        exact absurd hdata (by simp [hnew])
      · rw [h.published, List.append_cancel_left_eq] at hnew
        obtain rfl : data = data' := by simpa [← hnew] using hdata
        exact .inl ((hunchanged e hresult).symm.trans h.file)
    · exact .inr ((hdecided.1 result hresult).2 before s after hsteps ⟨data, hs⟩)
  · intro hafter e hresult
    obtain ⟨⟨new, hnew, hmem⟩, hdis⟩ := hdecided.2 e hresult
    obtain h | ⟨data, h⟩ := hrun.2 e hresult
    · exact h.file
    · rw [h.published, List.append_cancel_left_eq] at hnew
      obtain ⟨s, hs, hpublishes⟩ := (hmem (destination, data)).1 (by simp [← hnew])
      obtain ⟨before, after, hsteps⟩ := List.append_of_mem hs
      obtain hsame | hclean := hafter before s after data hsteps hpublishes
      · exact h.file.trans hsame.symm
      · obtain ⟨x, hx, hbad⟩ := hdis before s after hsteps ⟨data, hpublishes⟩
        exact absurd (hclean x hx) hbad

/-! ### A failure after the rename -/

/-- Every step goes through, but the published file cannot be opened again. -/
def rereadFails (destination : Path) : Oracle := fun _ o =>
  match o with
  | .openRead p => if p = destination then { fault := some (.osError "The device is not ready") }
    else {}
  | _ => {}

theorem rereadFails_eq {o : Op} (h : o ≠ .openRead destination) :
    rereadFails destination 0 o = {} := by
  cases o <;> first | rfl | (simp only [rereadFails]; rw [if_neg (by simpa using h)])

/-- Programs that do not open the destination do not notice. -/
theorem reread_of_calm {p : Program α} {Q : α → World → Prop} {E : PyError → World → Prop}
    (hp : p.Uses (· ≠ Op.openRead destination)) (h : wp (calm m) p Q E w) :
    wp (allowing m fun o c => c = rereadFails destination 0 o) p Q E w :=
  wp_of_calm (fun _ => rereadFails_eq) hp h

theorem ne_openRead_of_within {R T : Set Path} {p : Program α} (hp : p.Uses (Op.Within R T))
    (hR : destination ∉ R) : p.Uses (· ≠ Op.openRead destination) :=
  hp.mono fun o h ho => hR (h.1 destination (by rw [ho]; rfl))

theorem publish_ne_openRead {source : Path} {image : ImageResult} (hsource : destination ≠ source)
    (hhidden : destination.hidden = none) :
    (publish ext r source destination image).Uses (· ≠ Op.openRead destination) := by
  have hpart : ∀ n, destination ≠ destination.partialOf n := fun n h => by
    have := congrArg Path.hidden h
    simp [hhidden, Path.partialOf] at this
  refine .ite (fun _ => trivial) fun _ => .bind (ne_openRead_of_within validatePs2Iso_within
    (by simpa using hsource)) fun _ => .bind (ne_openRead_of_within (R := ∅) (T := ∅)
      verifyFreeSpace_within (by simp)) fun _ => .bind (uses_of (by simp)) fun n =>
        .tryFinally ?_ (uses_of (by simp))
  exact .bind (ne_openRead_of_within copyAndVerify_within (by simp [hsource, hpart n])) fun _ =>
    .bind (ne_openRead_of_within validatePs2Iso_within (by simpa using hpart n)) fun _ =>
      .bind (uses_of (by simp)) fun _ => .ite (fun _ => trivial) fun _ =>
        .bind (uses_of (by simp)) fun _ => trivial

/-- The installation raises after the rename, and the new image stays. -/
theorem reread_install {source : Path} {image : ImageResult} {archive : Option (Path × Path)}
    {data : Bytes} (hsource : w.files source = some data) (hfresh : HiddenFresh w)
    (hne : destination ≠ source) (hhidden : destination.hidden = none)
    (hcomplete : image.complete = true) (hsha : image.sha256 = m.hexdigest data)
    (hsize : image.size = data.length)
    (hinst : Installable m r data (w.files destination).isSome) :
    wp (allowing m fun o c => c = rereadFails destination 0 o)
      (install m.toExternals r source destination image archive) (fun _ _ => False)
      (fun _ w' => w'.files destination = some data) w := by
  refine wp_seq (reread_of_calm (publish_ne_openRead hne hhidden)
    (calm_publish hsource hfresh hhidden hcomplete hsha hsize)) ?_ fun _ _ h => absurd hinst h
  rintro hash w₁ ⟨-, -, hfile⟩
  refine wp_bind.2 (wp_bind.2 (wp_seq (reread_of_calm (uses_of (by simp)) (calm_stat hfile)) ?_
    fun _ _ => False.elim))
  rintro n w₂ ⟨-, rfl⟩
  refine wp_bind.2 (wp_call_iff.2 fun c hc => ?_)
  have hfault : perform m (.openRead destination) c w₂ =
      (.error (.osError "The device is not ready"), w₂) := by
    rw [hc, rereadFails, if_pos rfl]
    rfl
  rw [hfault]
  refine ⟨fun a w' h => ?_, fun e w' h => ?_⟩
  · cases h
  · cases h
    exact hfile

theorem reread_finally {p : Program α} {task : Dir} {source : Option Path} {data : Bytes}
    (htask : task.isLocal = true) (hsource : ∀ q ∈ source, q.dir.isLocal = true)
    (hdir : destination.dir.isLocal = false)
    (h : wp (allowing m A) p (fun _ _ => False) (fun _ w' => w'.files destination = some data) w) :
    wp (allowing m A) (p.tryFinally (cleanup r task source)) (fun _ _ => False)
      (fun _ w' => w'.files destination = some data) w := by
  have hd : destination ∉ localFiles := fun h => by simp_all [localFiles]
  refine wp_tryFinally.2 (wp_mono h (fun _ _ => False.elim) fun _ w₁ hw => ?_)
  exact wp_mono (wp_kept (cleanup_altersOnly htask hsource))
    (fun _ _ hk => (hk.files _ hd).trans hw) fun _ _ hk => (hk.files _ hd).trans hw

/-- A DVD that is ready to be installed: the run raises, and the new image stays. -/
theorem reread_ripInTask_dvd {stem : String} {k : ℕ}
    (htask : ∀ p, p.dir = taskOf r k → w.files p = none) (hfresh : HiddenFresh w)
    (hdir : destination.dir.isLocal = false) (hhidden : destination.hidden = none)
    (hmedia : r.disc.mediaType = .ps2Dvd5) {current : DiscIdentity}
    (hcurrent : consult m (reinspect r) = .ok current)
    (hready : ReadyDvd m r (w.files destination).isSome) :
    wp (allowing m fun o c => c = rereadFails destination 0 o)
      (ripInTask m.toExternals r (stem ++ ".iso") destination (taskOf r k)) (fun _ _ => False)
      (fun _ w' => w'.files destination = some (m.disc.blocks 0 r.disc.totalSectors)) w := by
  have hne : destination ≠ { dir := taskOf r k, name := stem ++ ".iso" } := fun h => by
    simp [h, Dir.isLocal] at hdir
  refine wp_bind.2 (wp_tryCatch.2 (reread_of_calm (ne_openRead_of_within (R := ∅) (T := ∅)
    reinspect_within (by simp)) (wp_mono (calm_consult reinspect_within) ?_
      fun _ _ h => absurd hcurrent (h current))))
  rintro _ w₁ ⟨-, hframe⟩
  rw [hmedia]
  refine reread_finally rfl (by simp [Dir.isLocal]) hdir ?_
  have hnew : w₁.files { dir := taskOf r k, name := stem ++ ".iso" } = none := by
    rw [hframe.files_eq]
    exact htask _ rfl
  refine wp_seq (reread_of_calm (ne_openRead_of_within ripDvdIso_within (by simpa using hne))
    (calm_ripDvdIso hnew)) ?_ fun _ _ h => absurd hready.1 h
  rintro image w₂ ⟨-, hcomplete, hsha, hsize, hfile, hframe₂⟩
  have hfresh₂ : HiddenFresh w₂ :=
    (hfresh.of_frame hframe (by simp)).of_frame hframe₂ (by simp)
  refine reread_install hfile hfresh₂ hne hhidden hcomplete hsha hsize ?_
  rw [hframe₂.files _ hne, hframe.files_eq]
  exact hready.2

theorem reread_ripAndInstall_dvd (hfresh : HiddenFresh w) (htasks : TasksFresh w)
    (hmedia : r.disc.mediaType = .ps2Dvd5)
    (hdest : destinationForGame r.oplRoot r.disc.mediaType r.disc.gameId r.title = .ok destination)
    (hready : Ready m r w) :
    wp (allowing m fun o c => c = rereadFails destination 0 o) (ripAndInstall m.toExternals r)
      (fun _ _ => False)
      (fun _ w' => w'.files destination = some (m.disc.blocks 0 r.disc.totalSectors)) w := by
  obtain ⟨⟨folder, hfolder⟩, hhidden, hname⟩ := destinationForGame_eq_ok hdest
  obtain ⟨stem, hstem⟩ := exists_stem_of_oplIsoFilename hname
  obtain ⟨destination', hdest', hreplace, ⟨current, hcurrent⟩, hdvd⟩ := hready
  rw [hdest] at hdest'
  cases hdest'
  simp only [ReadyMedia, hmedia] at hdvd
  unfold ripAndInstall
  rw [hname, hdest, lift_ok, pure_bind, lift_ok, pure_bind]
  refine wp_seq (reread_of_calm (uses_of (by simp)) calm_pathExists) ?_ fun _ _ => False.elim
  rintro present w₁ ⟨rfl, rfl⟩
  rw [if_neg]
  swap
  · intro h
    simp only [Bool.and_eq_true, Bool.not_eq_eq_eq_not, Bool.not_true] at h
    simpa [h.1.2, h.2] using hreplace h.1.1
  refine wp_seq (reread_of_calm (uses_of (by simp)) (calm_call (Q := fun _ w' => w' = w₁) rfl rfl))
    ?_ fun _ _ => id
  rintro _ w₂ rfl
  refine wp_seq (reread_of_calm (uses_of (by simp)) (calm_call (Q := fun k w' => k = w₂.fresh ∧
    w' = { w₂ with fresh := w₂.fresh + 1 }) rfl ⟨rfl, rfl⟩)) ?_ fun _ _ => id
  rintro _ w₃ ⟨rfl, rfl⟩
  rw [hstem]
  exact reread_ripInTask_dvd (fun p hp => htasks p _ _ hp le_rfl)
    (fun p n hp hn => hfresh p n hp (by simp at hn; omega)) (by rw [hfolder]; rfl) hhidden hmedia
    hcurrent hdvd

theorem rereadFails_sample : ∃ e, (execute (sampleMachine 0x10) (rereadFails sampleDestination)
    (ripAndInstall (sampleMachine 0x10).toExternals (sampleRequest sampleDvd)) World.blank).result =
      .error e ∧
    (execute (sampleMachine 0x10) (rereadFails sampleDestination)
      (ripAndInstall (sampleMachine 0x10).toExternals (sampleRequest sampleDvd))
        World.blank).world.files sampleDestination =
      some ((sampleMachine 0x10).disc.blocks 0 (sampleRequest sampleDvd).disc.totalSectors) := by
  have hwp := reread_ripAndInstall_dvd (m := sampleMachine 0x10) (r := sampleRequest sampleDvd)
    (w := World.blank) hiddenFresh_blank tasksFresh_blank rfl destinationForGame_sample
    ready_sampleDvd
  have hrun := execute_error_of_wp (σ := rereadFails sampleDestination) ?_ hwp
  · exact hrun
  · exact fun _ _ => rfl

/-- A rename that is followed by a failure changes the destination for good. -/
theorem not_atomic : ¬ ∀ (m : Machine) (r : RipRequest) (σ : Oracle) (w : World) (e : PyError)
    (destination : Path),
    destinationForGame r.oplRoot r.disc.mediaType r.disc.gameId r.title = .ok destination →
    (execute m σ (ripAndInstall m.toExternals r) w).result = .error e →
    (execute m σ (ripAndInstall m.toExternals r) w).world.files destination =
      w.files destination := by
  intro hall
  obtain ⟨e, he, hfile⟩ := rereadFails_sample
  have h := hall (sampleMachine 0x10) (sampleRequest sampleDvd) (rereadFails sampleDestination)
    World.blank e sampleDestination destinationForGame_sample he
  exact Option.some_ne_none _ (hfile.symm.trans h)

/-- The theorem at the failed run of the sample. -/
theorem destination_unchanged_iff_sample :
    (∀ e, (execute (sampleMachine 0x10) (rereadFails sampleDestination)
        (ripAndInstall (sampleMachine 0x10).toExternals (sampleRequest sampleDvd))
          World.blank).result = .error e →
      (execute (sampleMachine 0x10) (rereadFails sampleDestination)
        (ripAndInstall (sampleMachine 0x10).toExternals (sampleRequest sampleDvd))
          World.blank).world.files sampleDestination = World.blank.files sampleDestination) ↔
      ∀ before s after data, issued (sampleMachine 0x10) (rereadFails sampleDestination)
        (ripAndInstall (sampleMachine 0x10).toExternals (sampleRequest sampleDvd)) World.blank =
          before ++ s :: after → Publishes sampleDestination data s →
        World.blank.files sampleDestination = some data ∨ ∀ x ∈ after, Clean x.op x.choice :=
  destination_unchanged_iff (m := sampleMachine 0x10) (r := sampleRequest sampleDvd)
    (toLower_sampleDigest _) destinationForGame_sample _ _

end Ps2Ripper
