import Ps2Ripper.Core.Cleanup
import Ps2Ripper.Imaging.ShortWrites

/-!
# Retained images

The `finally` clause of `rip_and_install` moves the image to the retained images whenever it is
there and none of that name is retained yet.  It does not know how the run ends: an image that was
not installed is retained as well, and one that was installed is not retained over an older one.

* `ensures_ripAttempt_copied`: after an attempt that installs, the file at the destination is the
  image in the task directory: it is a part of the image, the image is a part of what was hashed,
  and the hashes agree;
* `wp_cleanup_keeps`, `wp_cleanup_retains`: what the `finally` clause does to the retained images;
* `RipRun`, `worldAfter`: runs one after the other;
* `retained_are_installed`: when retained images are installed images, over any sequence of runs.
-/

namespace Ps2Ripper

open Interactive Prog

variable {m : Machine} {A : Op → Choice → Prop} {r : RipRequest} {w : World} {ext : Externals}

/-! ### The copy of the image -/

/-- The file `p` has a part of the bytes that have the hash. -/
def HashedFrom (ext : Externals) (p : Path) (sha256 : String) (w : World) : Prop :=
  ∃ hashed data, sha256 = ext.hexdigest hashed ∧ w.files p = some data ∧ data.Sublist hashed

theorem Accounted.hashedFrom {p : Path} {bytes size : ℕ} {sha256 : String} {calls : List WriteCall}
    (h : Accounted ext p bytes sha256 size calls w) : HashedFrom ext p sha256 w := by
  obtain ⟨hashed, data, -, hsha, hfile, -, hsublist⟩ := h.hashed
  exact ⟨hashed, data, hsha, hfile, hsublist⟩

theorem ensures_ripDvdIso_hashedFrom (hA : AppendsPrefix A) {dest : Path} {total maxRetries : ℕ}
    {progress continueDamaged : Bool} {chunk : ChunkSize} :
    ensures (allowing m A) (ripDvdIso ext dest total progress chunk maxRetries continueDamaged)
      (fun image w' => HashedFrom ext dest image.sha256 w') w := by
  refine wp_of_recording [] (ensures_mono (ensures_ripDvdIso_accounted hA) ?_)
  rintro image s' ⟨calls, -, h⟩
  exact h.hashedFrom

theorem ensures_convert_hashedFrom (hA : AppendsPrefix A) {bin iso : Path} {tracks : List CDTrack}
    {number : ℕ} {progress : Bool} :
    ensures (allowing m A) (convertCdDataTrackToIso ext bin iso tracks number progress)
      (fun image w' => HashedFrom ext iso image.sha256 w') w := by
  refine wp_of_recording [] (ensures_mono (ensures_convertCdDataTrackToIso_accounted hA) ?_)
  rintro image s' ⟨calls, -, track, -, h⟩
  exact h.hashedFrom

theorem ensures_copyLoop_appended (hA : AppendsPrefix A) {s : World × List WriteCall}
    {source dest : Path} {token progress : Bool} {total chunkSize completed : ℕ} {left : Bytes}
    (hc : 0 < chunkSize) :
    ensures (writing m A) (copyLoop source dest token progress total chunkSize left completed)
      (fun _ s' => ∃ calls stored, Appended dest left calls stored s s') s := by
  induction left, completed using copyLoop.induct source chunkSize generalizing s with
  | case1 left completed ih =>
    rw [copyLoop]
    refine ensures_bind (ensures_unwritten (R := {source}) (uses_of (by simp)) ensures_read) ?_
    rintro size s₁ ⟨-, hlog₁, hfiles₁⟩
    by_cases hsize : 0 < size.1
    · rw [dif_pos hsize]
      refine ensures_bind (ensures_unwritten (R := ∅) checkpointIf_within ensures_checkpointIf) ?_
      rintro _ s₂ ⟨-, hlog₂, hfiles₂⟩
      refine ensures_turn hA (hlog₂.trans hlog₁) (hfiles₂.trans hfiles₁)
        fun calls stored s₃ h₃ => ?_
      refine ensures_mono (ih size hsize) ?_
      rintro _ s₄ ⟨calls', stored', h₄⟩
      have h := h₃.trans h₄
      rw [List.take_append_drop] at h
      exact ⟨_, _, h⟩
    · rw [dif_neg hsize]
      have hdelivers := size.2.2
      obtain rfl : left = [] := List.length_eq_zero_iff.1 (by omega)
      exact ensures_return ⟨[], [], Appended.refl.then_eq hlog₁ hfiles₁⟩

/-- The copy is a part of the file that was copied. -/
theorem ensures_copyAndVerify_sublist (hA : AppendsPrefix A) {source dest : Path}
    {expected : String} {token progress : Bool} {data : Bytes}
    (hdata : w.files source = some data) :
    ensures (allowing m A) (copyAndVerify ext source dest expected token progress)
      (fun _ w' => ∃ stored, stored.Sublist data ∧ w'.files dest = some stored) w := by
  refine ensures_bind ensures_pathExists ?_
  rintro present w₁ ⟨-, rfl⟩
  by_cases hpresent : present = true
  · rw [if_pos hpresent]
    trivial
  rw [if_neg hpresent]
  refine ensures_bind ensures_mkdir fun _ w₂ h₂ => ?_
  subst h₂
  refine ensures_bind ensures_stat ?_
  rintro total w₃ ⟨-, rfl⟩
  refine ensures_tryCatch ?_ fun _ _ => ensures_removeCopy
  refine ensures_bind ensures_openRead ?_
  rintro found w₄ ⟨hfound, rfl⟩
  obtain rfl : found = data := Option.some_injective _ (hfound.symm.trans hdata)
  refine ensures_bind ensures_openExclusive ?_
  rintro _ w₅ ⟨-, rfl⟩
  refine ensures_bind (Q := fun _ w' => ∃ stored, stored.Sublist found ∧
    w'.files dest = some stored) ?_ ?_
  · refine wp_of_recording [] (ensures_mono (ensures_copyLoop_appended hA (by decide)) ?_)
    rintro _ s' ⟨calls, stored, h⟩
    exact ⟨stored, h.sublist, h.file [] (World.setFile_files_self ..)⟩
  · intro _ w₆ hcopied
    refine ensures_bind ensures_fsync fun _ w₇ h₇ => ?_
    subst h₇
    refine ensures_bind ensures_sha256File ?_
    rintro hash w₈ ⟨-, rfl⟩
    split
    · trivial
    · exact ensures_return hcopied

theorem ensures_replace {src dst : Path} :
    ensures (allowing m A) (call (.replace src dst))
      (fun _ w' => w'.files dst = w.files src) w := by
  refine ensures_call fun c _ a w' h => ?_
  simp only [succeed] at h
  split at h
  · rename_i data hdata
    cases h
    rw [hdata]
    exact World.setFile_files_self ..
  · cases h

/-- What is published is a part of the image. -/
theorem ensures_publish_sublist (hA : AppendsPrefix A) {source destination : Path}
    {image : ImageResult} {data : Bytes} (hdata : w.files source = some data)
    (hhidden : destination.hidden = none) :
    ensures (allowing m A) (publish ext r source destination image)
      (fun _ w' => ∃ stored, stored.Sublist data ∧ w'.files destination = some stored) w := by
  unfold publish
  split
  · trivial
  refine ensures_bind (ensures_of_wp (wp_frame validatePs2Iso_within)) fun _ w₁ h₁ => ?_
  refine ensures_bind (ensures_of_wp (wp_frame (R := ∅) (T := ∅) verifyFreeSpace_within))
    fun _ w₂ h₂ => ?_
  refine ensures_bind (Q := fun _ w' => w'.files = w₂.files) (ensures_call fun c _ a w' h => ?_)
    fun u w₃ h₃ => ?_
  · cases h
    rfl
  have hdata : w₃.files source = some data := by rw [h₃, h₂.files_eq, h₁.files_eq, hdata]
  have hne : destination ≠ destination.partialOf u := fun h => by
    have := congrArg Path.hidden h
    simp [hhidden, Path.partialOf] at this
  refine ensures_tryFinally allowing_permissive (Q := fun _ w' => ∃ stored, stored.Sublist data ∧
    w'.files destination = some stored) ?_ ?_
  · refine ensures_bind (ensures_copyAndVerify_sublist hA hdata) ?_
    rintro hash w₄ ⟨stored, hsublist, hstored⟩
    refine ensures_bind (ensures_of_wp (wp_frame validatePs2Iso_within)) fun _ w₅ h₅ => ?_
    refine ensures_bind ensures_pathExists ?_
    rintro present w₆ ⟨-, rfl⟩
    split
    · trivial
    refine ensures_bind ensures_replace fun _ w₇ h₇ => ?_
    exact ensures_return ⟨stored, hsublist, by rw [h₇, h₅.files_eq, hstored]⟩
  · rintro hash w₄ ⟨stored, hsublist, hstored⟩
    refine ensures_mono (ensures_of_wp (wp_frame (R := ∅) (T := {destination.partialOf u})
      (uses_of (by simp)))) fun _ w₅ h₅ => ?_
    exact ⟨stored, hsublist, by rw [h₅.files destination hne, hstored]⟩

/-- What is installed is the image, and the image stays where it is. -/
theorem ensures_install_copied (collision : Function.Injective ext.hexdigest)
    (hA : AppendsPrefix A) {source destination : Path} {image : ImageResult}
    {archive : Option (Path × Path)} (hdir : source.dir ≠ destination.dir)
    (hhidden : destination.hidden = none) (himage : HashedFrom ext source image.sha256 w) :
    ensures (allowing m A) (install ext r source destination image archive) (fun result w' =>
      result.destination = some destination ∧
        ∃ data, w'.files destination = some data ∧ w'.files source = some data) w := by
  obtain ⟨hashed, data, hsha, hdata, hsublist⟩ := himage
  have hcopied : ensures (allowing m A) (install ext r source destination image archive)
      (fun _ w' => ∃ stored, stored.Sublist data ∧ w'.files destination = some stored) w := by
    refine ensures_bind (ensures_publish_sublist hA hdata hhidden) ?_
    rintro hash w₁ ⟨stored, hstored, hfile⟩
    refine ensures_bind (ensures_of_wp (wp_frame (R := {destination}) (T := ∅)
      (.bind sha256File_within fun _ => .ite (fun _ => trivial) fun _ =>
        .bind validatePs2Iso_within fun _ => trivial))) fun _ w₂ h₂ => ?_
    exact ensures_return ⟨stored, hstored, by rw [h₂.files_eq, hfile]⟩
  refine ensures_mono (ensures_and (ensures_and hcopied ensures_install)
    (ensures_of_wp (wp_outside install_alters))) ?_
  rintro result w' ⟨⟨⟨stored, hstored, hfile⟩, hresult, -, -, -, found, hfound, hdigest⟩, hothers⟩
  obtain rfl : stored = found := Option.some_injective _ (hfile.symm.trans hfound)
  obtain rfl : stored = hashed := collision (hdigest.trans hsha)
  -- The copy is a part of the image, and the image is a part of what was hashed.
  obtain rfl : data = stored := hsublist.antisymm hstored
  exact ⟨hresult, data, hfile, by rw [hothers source hdir, hdata]⟩

/-! ### The attempt -/

/-- Only the archive of a CD is wanted: the run installs nothing. -/
def RipRequest.archives (r : RipRequest) : Prop := r.disc.mediaType = .ps2Cd ∧ r.archiveOnly = true

/-- The result names a destination, and the file there is the image in the task directory. -/
def Installs (destination source : Path) (result : InstallResult) (w : World) : Prop :=
  result.destination = some destination ∧
    ∃ data, w.files destination = some data ∧ w.files source = some data

theorem ensures_installCd_copied (collision : Function.Injective ext.hexdigest)
    (hA : AppendsPrefix A) {task : Dir} {stem : String} {destination : Path} {number : ℕ}
    (hdir : task ≠ destination.dir)
    (harchives : ∀ stem, task ≠ .archives r.settings.temporaryDirectory stem)
    (hhidden : destination.hidden = none) :
    ensures (allowing m A) (installCd ext r stem { dir := task, name := stem ++ ".bin" }
        { dir := task, name := stem ++ ".cue" } { dir := task, name := stem ++ ".iso" } destination
        number)
      (fun result w' => Installs destination { dir := task, name := stem ++ ".iso" } result w')
      w := by
  refine ensures_bind (ensures_convert_hashedFrom hA) fun image w₁ h₁ => ?_
  refine ensures_bind (ensures_of_wp (wp_kept (T := {p | p ≠ ⟨task, stem ++ ".iso", none⟩})
    (archiveIfRetained_altersOnly (by simp) (by simp) fun name => ?_))) fun archive w₂ h₂ => ?_
  · simp [RipRequest.archivePath, (harchives stem).symm]
  · obtain ⟨hashed, data, hsha, hdata, hsublist⟩ := h₁
    have himage : HashedFrom ext ⟨task, stem ++ ".iso", none⟩ image.sha256 w₂ :=
      ⟨hashed, data, hsha, by rw [h₂.files _ (by simp), hdata], hsublist⟩
    exact ensures_install_copied collision hA hdir hhidden himage

theorem ensures_attemptInTask_copied (collision : Function.Injective ext.hexdigest)
    (hA : AppendsPrefix A) {task : Dir} {stem : String} {destination : Path}
    (hdir : task ≠ destination.dir)
    (harchives : ∀ stem, task ≠ .archives r.settings.temporaryDirectory stem)
    (hhidden : destination.hidden = none) :
    ensures (allowing m A) (attemptInTask ext r (stem ++ ".iso") destination task)
      (fun result w' => (r.archives ∧ result.destination = none) ∨
        (¬ r.archives ∧ Installs destination { dir := task, name := stem ++ ".iso" } result w'))
          w := by
  refine ensures_bind (ensures_true allowing_permissive _) fun current w₁ _ => ?_
  have hdvd : r.disc.mediaType ≠ .ps2Cd → ensures (allowing m A)
      (installDvd ext r { dir := task, name := stem ++ ".iso" } destination)
      (fun result w' => (r.archives ∧ result.destination = none) ∨
        (¬ r.archives ∧ Installs destination { dir := task, name := stem ++ ".iso" } result w'))
          w₁ := by
    intro hmedia
    refine ensures_bind (ensures_ripDvdIso_hashedFrom hA) fun image w₂ h₂ => ?_
    refine ensures_mono (ensures_install_copied collision hA hdir hhidden h₂) fun result w₃ h₃ => ?_
    exact .inr ⟨fun h => hmedia h.1, h₃⟩
  cases hmedia : r.disc.mediaType with
  | ps2Dvd5 => exact hdvd (by rw [hmedia]; nofun)
  | ps2Dvd9 => exact hdvd (by rw [hmedia]; nofun)
  | ps2Cd =>
    rw [removeIsoSuffix_append]
    refine ensures_bind (ensures_true allowing_permissive _) ?_
    rintro ⟨rawResult, number⟩ w₂ -
    dsimp only
    by_cases honly : r.archiveOnly = true
    · rw [if_pos honly]
      refine ensures_bind (ensures_true allowing_permissive _) fun archive w₃ _ => ?_
      exact ensures_return (.inl ⟨⟨hmedia, honly⟩, rfl⟩)
    · rw [if_neg honly]
      refine ensures_mono (ensures_installCd_copied collision hA hdir harchives hhidden)
        fun result w₃ h₃ => ?_
      exact .inr ⟨fun h => honly h.2, h₃⟩
  | _ => trivial

/-- Where the image of a run is ripped to. -/
def imageOf (r : RipRequest) (w : World) (name : String) : Path := { dir := taskOf r w.fresh, name }

/-- An attempt that returns has installed its image, or was not meant to install one. -/
theorem ensures_ripAttempt_copied (collision : Function.Injective ext.hexdigest)
    (hA : AppendsPrefix A) :
    ensures (allowing m A) (ripAttempt ext r) (fun result w' =>
      (r.archives ∧ result.destination = none) ∨
      (¬ r.archives ∧ ∃ destination, oplIsoFilename r.disc.gameId r.title = .ok destination.name ∧
        destination.dir.isLocal = false ∧
        Installs destination (imageOf r w destination.name) result w')) w := by
  refine ensures_bind (ensures_of_wp wp_makeTask) ?_
  rintro ⟨name, destination, task⟩ w₁ ⟨hname, rfl, -, hdest⟩
  obtain ⟨⟨folder, hfolder⟩, hhidden, hname'⟩ := destinationForGame_eq_ok hdest
  obtain ⟨stem, rfl⟩ := exists_stem_of_oplIsoFilename hname
  have hdir : taskOf r w.fresh ≠ destination.dir := by
    rw [show destination.dir = _ from hfolder]
    nofun
  have hsame : stem ++ ".iso" = destination.name := Except.ok.inj (hname.symm.trans hname')
  refine ensures_mono (ensures_attemptInTask_copied collision hA hdir (by simp [taskOf]) hhidden)
    fun result w₂ h₂ => ?_
  rcases h₂ with h₂ | ⟨hnot, h₂⟩
  · exact .inl h₂
  · refine .inr ⟨hnot, destination, hname', ?_, by rwa [imageOf, ← hsame]⟩
    rw [show destination.dir = _ from hfolder]
    rfl

/-- The files under `PS2 OPL Ripper Retained Images`. -/
def retainedFiles : Set Path := {p | ∃ base, p.dir = .retainedImages base}

/-- An operation that leaves the retained images alone. -/
def Op.KeepsRetained (o : Op) : Prop := ∀ q, o.alters q → q ∉ retainedFiles

theorem Op.AltersOnly.keepsRetained {T : Set Path} {o : Op} (h : o.AltersOnly T)
    (hT : ∀ q ∈ T, q ∉ retainedFiles) : o.KeepsRetained := fun q hq => hT q (h.1 q hq)

theorem keepsRetained_of_within {α : Type} {R T : Set Path} {p : Program α}
    (hp : p.Uses (Op.Within R T)) (hT : ∀ q ∈ T, q ∉ retainedFiles) : p.Uses Op.KeepsRetained :=
  hp.mono fun _ h q hq => hT q (h.2.1 q hq)

theorem install_keepsRetained {source destination : Path} {image : ImageResult}
    {archive : Option (Path × Path)} (hdir : destination.dir.isLocal = false) :
    (install ext r source destination image archive).Uses Op.KeepsRetained := by
  refine install_alters.mono fun o h q hq => ?_
  rintro ⟨base, hbase⟩
  have hsame : q.dir = destination.dir := h q hq
  rw [← hsame, hbase] at hdir
  cases hdir

theorem attemptInTask_keepsRetained {name : String} {destination : Path} {base : String} {k : ℕ}
    (hdir : destination.dir.isLocal = false) :
    (attemptInTask ext r name destination (.task base k)).Uses Op.KeepsRetained := by
  have hnone : ∀ q ∈ (∅ : Set Path), q ∉ retainedFiles := nofun
  have htask : ∀ name : String, (⟨.task base k, name, none⟩ : Path) ∉ retainedFiles := by
    rintro name ⟨base', hbase⟩
    cases hbase
  have hmoves : ∀ stem (bin cue : Path), bin.dir = .task base k → cue.dir = .task base k →
      (moveToArchive r stem bin cue).Uses Op.KeepsRetained := by
    intro stem bin cue hbin hcue
    refine (moveToArchive_altersOnly (T := {p | p ∉ retainedFiles}) ?_ ?_ ?_).mono fun _ h =>
      h.keepsRetained fun _ => id
    · rintro ⟨base', hbase⟩
      rw [hbin] at hbase
      cases hbase
    · rintro ⟨base', hbase⟩
      rw [hcue] at hbase
      cases hbase
    · rintro name ⟨base', hbase⟩
      cases hbase
  refine .bind (keepsRetained_of_within (R := ∅) reinspect_within hnone) fun _ => ?_
  have hdvd : (installDvd ext r ⟨.task base k, name, none⟩ destination).Uses Op.KeepsRetained := by
    refine .bind (keepsRetained_of_within ripDvdIso_within ?_) fun _ => install_keepsRetained hdir
    rintro _ rfl
    exact htask name
  split
  · exact hdvd
  · exact hdvd
  · refine .bind (.bind (keepsRetained_of_within ripCdBinCue_within ?_) fun _ =>
      .bind (keepsRetained_of_within (R := ∅) findPs2CdTrack_within hnone) fun _ => trivial)
        fun _ => .ite (fun _ => .bind (hmoves _ _ _ rfl rfl) fun _ => trivial) fun _ =>
          .bind (keepsRetained_of_within convertCdDataTrackToIso_within ?_) fun _ =>
            .bind (.ite (fun _ => .bind (hmoves _ _ _ rfl rfl) fun _ => trivial) fun _ => trivial)
              fun _ => install_keepsRetained hdir
    · rintro _ (rfl | rfl) <;> exact htask _
    · rintro _ rfl
      exact htask name
  · trivial

/-- The attempt does not touch the retained images. -/
theorem wp_ripAttempt_retained (ext : Externals) :
    wp (allowing m A) (ripAttempt ext r) (fun _ w' => ∀ q ∈ retainedFiles, w'.files q = w.files q)
      (fun _ w' => ∀ q ∈ retainedFiles, w'.files q = w.files q) w := by
  refine wp_seq wp_makeTask ?_ fun _ _ h q _ => by rw [h]
  rintro ⟨name, destination, task⟩ w₁ ⟨-, rfl, hfiles, hdest⟩
  obtain ⟨⟨folder, hfolder⟩, -⟩ := destinationForGame_eq_ok hdest
  have hdir : destination.dir.isLocal = false := by
    rw [show destination.dir = _ from hfolder]
    rfl
  have houtside : ∀ w₂ : World, (∀ q ∉ {q | q ∉ retainedFiles}, w₂.files q = w₁.files q) →
      ∀ q ∈ retainedFiles, w₂.files q = w.files q := by
    intro w₂ h q hq
    rw [h q (not_not.2 hq), hfiles]
  exact wp_mono (wp_outside (attemptInTask_keepsRetained hdir))
    (fun _ => houtside) fun _ => houtside

/-! ### The `finally` clause and the retained images -/

/-- The retained images are as before. -/
def RetainedKept (w w' : World) : Prop := ∀ q ∈ retainedFiles, w'.files q = w.files q

/-- The task directory is removed with `ignore_errors=True`. -/
theorem wp_rmtree_retained {base : String} {k : ℕ} :
    wp (allowing m A) (call (.rmtree (.task base k))) (fun _ => RetainedKept w) (fun _ _ => False)
      w := by
  refine wp_call_iff.2 fun c _ => ⟨fun _ w' h => ?_, fun e w' h => ?_⟩
  · have hframe : Frame {q | q.dir = .task base k} w (perform m (.rmtree (.task base k)) c w).2 :=
      frame_of_perform (R := ∅) (by simp)
    rw [h] at hframe
    rintro q ⟨base', hbase⟩
    refine hframe.files q fun hq => ?_
    have hq : q.dir = .task base k := hq
    rw [hbase] at hq
    cases hq
  · rcases cases_of_perform_error h with hs | ⟨-, hinfallible, -⟩
    · cases hs
    · cases hinfallible

/-- If there is no image, or if one of its name is retained, nothing is retained. -/
theorem wp_cleanup_keeps {base : String} {k : ℕ} {source : Option Path}
    (h : ∀ p ∈ source, w.files p = none ∨ (w.files (r.retainedPath p.name)).isSome) :
    wp (allowing m A) (cleanup r (.task base k) source) (fun _ => RetainedKept w)
      (fun _ => RetainedKept w) w := by
  have hretain : wp (allowing m A) (retainImage r source) (fun _ w' => w' = w) (fun _ w' => w' = w)
      w := by
    unfold retainImage
    split
    case h_2 => rfl
    case h_1 p _ =>
    refine wp_seq (wp_and (wp_unchanged (o := .pathExists p) (fun _ => rfl) fun _ => rfl)
      ensures_pathExists) ?_ fun _ _ h => h.1
    rintro present w₁ ⟨rfl, rfl, -⟩
    by_cases hpresent : (w₁.files p).isSome = true
    · rw [if_pos hpresent]
      refine wp_seq (wp_unchanged (fun _ => rfl) fun _ => rfl) ?_ fun _ _ => id
      rintro _ w₂ rfl
      refine wp_seq (wp_and (wp_unchanged (o := .pathExists _) (fun _ => rfl) fun _ => rfl)
        ensures_pathExists) ?_ fun _ _ h => h.1
      rintro kept w₃ ⟨rfl, rfl, -⟩
      rcases h p rfl with hnone | hsome
      · rw [hnone] at hpresent
        cases hpresent
      · rw [if_pos hsome]
        rfl
    · rw [if_neg hpresent]
      rfl
  refine wp_seq hretain ?_ fun _ _ h q _ => by rw [h]
  rintro _ w₁ rfl
  exact wp_mono wp_rmtree_retained (fun _ _ => id) fun _ _ => False.elim

/-- An image is retained, if nothing else of its name is, or the clause raises without a trace; this
needs that a move that fails stores nothing. -/
theorem wp_cleanup_retains {base : String} {k : ℕ} {p : Path} {data : Bytes}
    (hset : r.settings.retainTemporaryImage = true) (hdata : w.files p = some data)
    (hp : p ∉ retainedFiles)
    (hfree : w.files (r.retainedPath p.name) = none ∨ w.files (r.retainedPath p.name) = some data)
    (hmove : ∀ c, A (.move p (r.retainedPath p.name)) c → c.fault ≠ none → c.stored = none) :
    wp (allowing m A) (cleanup r (.task base k) (some p))
      (fun _ w' => w'.files (r.retainedPath p.name) = some data ∧
        ∀ q ∈ retainedFiles, q ≠ r.retainedPath p.name → w'.files q = w.files q)
      (fun _ => RetainedKept w) w := by
  have hretained : r.retainedPath p.name ∈ retainedFiles := ⟨_, rfl⟩
  rcases hfree with hnone | hsame
  swap
  · refine wp_mono (wp_cleanup_keeps ?_) (fun _ w' h => ?_) fun _ _ => id
    · rintro _ ⟨⟩
      exact .inr (by rw [hsame]; rfl)
    · exact ⟨by rw [h _ hretained, hsame], fun q hq _ => h q hq⟩
  have hretain : wp (allowing m A) (retainImage r (some p))
      (fun _ w' => w'.files (r.retainedPath p.name) = some data ∧
        ∀ q ∈ retainedFiles, q ≠ r.retainedPath p.name → w'.files q = w.files q)
      (fun _ => RetainedKept w) w := by
    unfold retainImage
    rw [hset]
    have hunchanged : ∀ w' : World, w' = w → RetainedKept w w' := fun w' h q _ => by rw [h]
    refine wp_seq (wp_and (wp_unchanged (o := .pathExists p) (fun _ => rfl) fun _ => rfl)
      ensures_pathExists) ?_ fun _ w' h => hunchanged w' h.1
    rintro present w₁ ⟨rfl, rfl, -⟩
    rw [hdata, if_pos Option.isSome_some]
    refine wp_seq (wp_unchanged (fun _ => rfl) fun _ => rfl) ?_ fun _ w' => hunchanged w'
    rintro _ w₂ rfl
    refine wp_seq (wp_and (wp_unchanged (o := .pathExists _) (fun _ => rfl) fun _ => rfl)
      ensures_pathExists) ?_ fun _ w' h => hunchanged w' h.1
    rintro kept w₃ ⟨rfl, rfl, -⟩
    rw [hnone, if_neg (by simp)]
    refine wp_call_iff.2 fun c hc => ⟨fun _ w' h => ?_, fun e w' h => ?_⟩
    · have hs := succeed_of_perform_ok h
      simp only [succeed, hdata] at hs
      cases hs
      refine ⟨World.setFile_files_self .., fun q hq hne => ?_⟩
      refine (World.setFile_files_of_ne _ _ hne).trans (World.setFile_files_of_ne _ _ ?_)
      rintro rfl
      exact hp hq
    · rcases cases_of_perform_error h with hs | ⟨hfault, -, rfl⟩
      · simp only [succeed, hdata] at hs
        cases hs
      · have hstored := hmove c hc (by rw [hfault]; exact Option.some_ne_none _)
        exact hunchanged _ (by simp only [fail, hstored])
  refine wp_seq hretain ?_ fun _ _ => id
  rintro _ w₁ ⟨hfile, hothers⟩
  refine wp_mono wp_rmtree_retained (fun _ w₂ h => ?_) fun _ _ => False.elim
  exact ⟨by rw [h _ hretained, hfile], fun q hq hne => by rw [h q hq, hothers q hq hne]⟩

/-! ### One run -/

/-- A run of `rip_and_install`: the drive and the libraries that it finds, what every operation of
it does, and its arguments. -/
structure RipRun where
  machine : Machine
  oracle : Oracle
  request : RipRequest

namespace RipRun

variable (t : RipRun) (w : World)

/-- The run, started in `w`. -/
def outcome : Outcome PyError InstallResult World :=
  execute t.machine t.oracle (ripAndInstall t.machine.toExternals t.request) w

/-- The run without its `finally` clause: how the clause finds the world. -/
def attempt : Outcome PyError InstallResult World :=
  execute t.machine t.oracle (ripAttempt t.machine.toExternals t.request) w

/-- The `finally` clause finds no image after an exception, unless one of its name is retained;
after an installation it finds no other retained image of the name; and a move that fails leaves
nothing. -/
structure FinallyClean : Prop where
  raised : ∀ name e, oplIsoFilename t.request.disc.gameId t.request.title = .ok name →
    (t.attempt w).result = .error e →
      (t.attempt w).world.files (imageOf t.request w name) = none ∨
        ((t.attempt w).world.files (t.request.retainedPath name)).isSome
  installed : ∀ name result, oplIsoFilename t.request.disc.gameId t.request.title = .ok name →
    (t.attempt w).result = .ok result → result.destination ≠ none →
      (t.attempt w).world.files (t.request.retainedPath name) = none ∨
        (t.attempt w).world.files (t.request.retainedPath name) =
          (t.attempt w).world.files (imageOf t.request w name)
  moves : ∀ name n, oplIsoFilename t.request.disc.gameId t.request.title = .ok name →
    (t.attempt w).clock ≤ n →
      let c := t.oracle n (.move (imageOf t.request w name) (t.request.retainedPath name))
      c.fault ≠ none → c.stored = none

end RipRun

/-- A run from `w` to `w'` retains an image only if it installs it; and if it installs an image, the
retained image of that name is the installed one. -/
structure Retains (r : RipRequest) (result : Except PyError InstallResult) (w w' : World) :
    Prop where
  onlyInstalled : ∀ q ∈ retainedFiles, w'.files q ≠ w.files q → ∃ a destination, result = .ok a ∧
    a.destination = some destination ∧ q = r.retainedPath destination.name
  identical : ∀ a destination, result = .ok a → a.destination = some destination →
    ∃ data, w'.files destination = some data ∧
      w'.files (r.retainedPath destination.name) = some data

/-- A run that installs nothing and leaves the retained images alone. -/
theorem Retains.of_kept {result : Except PyError InstallResult} {w' : World}
    (hresult : ∀ a, result = .ok a → a.destination = none) (h : RetainedKept w w') :
    Retains r result w w' := by
  constructor
  · intro q hq hne
    exact absurd (h q hq) hne
  · intro a destination ha hdest
    rw [hresult a ha] at hdest
    cases hdest

theorem finish_world {α : Type} {h : ℕ → Handler interface PyError World} {f : Program Unit}
    {o : Outcome PyError α World} : (finish h f o).world = (run h f o.clock o.world).world := by
  unfold finish
  rcases run h f o.clock o.world with ⟨_ | _, _, _⟩ <;> rfl

theorem RetainedKept.trans {w' w'' : World} (h : RetainedKept w w') (h' : RetainedKept w' w'') :
    RetainedKept w w'' := fun q hq => (h' q hq).trans (h q hq)

theorem RipRun.attempt_kept (t : RipRun) (w : World) : RetainedKept w (t.attempt w).world := by
  have h := execute_of_wp (m := t.machine) (σ := t.oracle) (A := fun _ _ => True) (w := w)
    (fun _ _ => trivial) (wp_ripAttempt_retained t.machine.toExternals (r := t.request))
  cases hresult : (t.attempt w).result with
  | ok a => exact h.1 a hresult
  | error e => exact h.2 e hresult

/-- A `finally` clause that finds nothing to retain. -/
theorem RipRun.finish_kept {t : RipRun} {base : String} {k : ℕ} {source : Option Path}
    (h : ∀ p ∈ source, (t.attempt w).world.files p = none ∨
      ((t.attempt w).world.files (t.request.retainedPath p.name)).isSome) :
    RetainedKept w (finish (handlers t.machine t.oracle)
      (cleanup t.request (.task base k) source) (t.attempt w)).world := by
  rw [finish_world]
  refine (t.attempt_kept w).trans ?_
  have hcleanup : wp (allowing t.machine fun _ _ => True) (cleanup t.request (.task base k) source)
      _ _ (t.attempt w).world := wp_cleanup_keeps h
  have hrun := run_of_wp (allowing_admits (σ := t.oracle) fun _ _ => trivial)
    (n := (t.attempt w).clock) hcleanup
  cases hresult : (run (handlers t.machine t.oracle) (cleanup t.request (.task base k) source)
      (t.attempt w).clock (t.attempt w).world).result with
  | ok a => exact hrun.1 a hresult
  | error e => exact hrun.2 e hresult

/-- A `finally` clause after an installation. -/
theorem RipRun.finish_installed {t : RipRun} {result : InstallResult} {destination : Path}
    (hset : t.request.settings.retainTemporaryImage = true)
    (hname : oplIsoFilename t.request.disc.gameId t.request.title = .ok destination.name)
    (hclean : t.FinallyClean w) (hdir : destination.dir.isLocal = false)
    (hresult : (t.attempt w).result = .ok result)
    (hcopied : Installs destination (imageOf t.request w destination.name) result
      (t.attempt w).world) :
    let o := finish (handlers t.machine t.oracle) (cleanup t.request (taskOf t.request w.fresh)
      (some (imageOf t.request w destination.name))) (t.attempt w)
    Retains t.request o.result w o.world := by
  intro o
  obtain ⟨hdest, data, hinstalled, himage⟩ := hcopied
  let later : Op → Choice → Prop := fun o c => ∃ n ≥ (t.attempt w).clock, t.oracle n o = c
  have htask : imageOf t.request w destination.name ∉ retainedFiles := by
    rintro ⟨base, hbase⟩
    cases hbase
  -- Nothing else of the name is retained, so that the move takes the installed image.
  have hfree := hclean.installed destination.name result hname hresult (by rw [hdest]; nofun)
  rw [himage] at hfree
  have hmoves : ∀ c, later (.move (imageOf t.request w destination.name)
      (t.request.retainedPath destination.name)) c → c.fault ≠ none → c.stored = none := by
    rintro c ⟨n, hn, rfl⟩
    exact hclean.moves destination.name n hname hn
  have hcleanup : wp (allowing t.machine later) (cleanup t.request (taskOf t.request w.fresh)
      (some (imageOf t.request w destination.name))) _ _ (t.attempt w).world :=
    wp_cleanup_retains hset himage htask hfree hmoves
  have hadmits : ∀ n ≥ (t.attempt w).clock, ∀ w' o, (allowing t.machine later).answers w' o
      (handlers t.machine t.oracle n w' o).1 (handlers t.machine t.oracle n w' o).2 :=
    fun n hn w' o => ⟨_, ⟨n, hn, rfl⟩, rfl⟩
  obtain ⟨hok, herror⟩ := run_of_wp_from hadmits hcleanup
  have hworld : o.world = _ := finish_world
  rcases hrun : (run (handlers t.machine t.oracle) (cleanup t.request (taskOf t.request w.fresh)
    (some (imageOf t.request w destination.name))) (t.attempt w).clock
      (t.attempt w).world).result with e | ⟨⟨⟩⟩
  · -- The clause raises, and leaves no trace among the retained images.
    have hraised : o.result = .error e := finish_of_error hrun
    refine .of_kept (fun a ha => ?_) ?_
    · rw [hraised] at ha
      cases ha
    · rw [hworld]
      exact (t.attempt_kept w).trans (herror e hrun)
  · obtain ⟨hretained, hothers⟩ := hok () hrun
    have hsame : o.result = .ok result := (finish_of_ok hrun).1.trans hresult
    -- The destination is no local file, and so what was installed stays.
    have hlocal : ∀ w' : World, Kept localFiles (t.attempt w).world w' →
        w'.files destination = some data := by
      intro w' h
      rw [h.files destination fun hin => Bool.false_ne_true (hdir.symm.trans hin), hinstalled]
    have hkept : wp (allowing t.machine fun _ _ => True) (cleanup t.request
        (taskOf t.request w.fresh) (some (imageOf t.request w destination.name))) _ _
        (t.attempt w).world := wp_kept (cleanup_altersOnly rfl (by rintro _ ⟨⟩; rfl))
    have hfile := hlocal _ ((run_of_wp (allowing_admits (σ := t.oracle) fun _ _ => trivial)
      (n := (t.attempt w).clock) hkept).1 () hrun)
    constructor
    · intro q hq hne
      refine ⟨result, destination, hsame, hdest, ?_⟩
      by_contra hother
      refine hne ?_
      rw [hworld, hothers q hq hother, t.attempt_kept w q hq]
    · intro a destination' ha hdest'
      obtain rfl : result = a := Except.ok.inj (hsame.symm.trans ha)
      obtain rfl : destination = destination' := Option.some_injective _ (hdest.symm.trans hdest')
      rw [hworld]
      exact ⟨data, hfile, hretained⟩

/-- **One run.** -/
theorem RipRun.retains {t : RipRun} (hset : t.request.settings.retainTemporaryImage = true)
    (collision : Function.Injective t.machine.hexdigest) (hA : AppendsPrefix t.oracle.choices)
    (hclean : t.FinallyClean w) : Retains t.request (t.outcome w).result w (t.outcome w).world := by
  have hcopied : ∀ result, (t.attempt w).result = .ok result → _ :=
    (execute_of_wp (m := t.machine) (fun n o => ⟨n, rfl⟩) (ensures_ripAttempt_copied
      (r := t.request) (w := w) collision hA)).1
  rcases execute_ripAndInstall t.machine t.machine.toExternals t.request t.oracle w with
    ⟨hsame, hworld, e, he⟩ | ⟨name, source, hname, hsource, harchives, hfinish, -⟩
  · have hraised : (t.outcome w).result = .error e := (congrArg Outcome.result hsame).trans he
    refine .of_kept (fun a ha => ?_) fun q _ => ?_
    · rw [hraised] at ha
      cases ha
    · exact congrFun (congrArg World.files ((congrArg Outcome.world hsame).trans hworld)) q
  have houtcome : t.outcome w = finish (handlers t.machine t.oracle)
      (cleanup t.request (taskOf t.request w.fresh) source) (t.attempt w) := hfinish
  rw [houtcome]
  cases hresult : (t.attempt w).result with
  | error e =>
    refine .of_kept (fun a ha => ?_) (RipRun.finish_kept ?_)
    · rw [result_of_finish ha] at hresult
      cases hresult
    · rcases hsource with rfl | rfl
      · nofun
      · rintro _ ⟨⟩
        exact hclean.raised name e hname hresult
  | ok result =>
    rcases hcopied result hresult with ⟨harchive, hnone⟩ | ⟨hinstalls, destination, hname', hdir, h⟩
    · obtain rfl : source = none := (harchives result hresult).2 harchive
      refine .of_kept (fun a ha => ?_) (RipRun.finish_kept nofun)
      obtain rfl : result = a := Except.ok.inj (hresult.symm.trans (result_of_finish ha))
      exact hnone
    · obtain rfl : name = destination.name := Except.ok.inj (hname.symm.trans hname')
      rcases hsource with rfl | rfl
      · exact absurd ((harchives result hresult).1 rfl) hinstalls
      · exact RipRun.finish_installed hset hname hclean hdir hresult h

/-! ### Runs one after the other -/

/-- The world after the runs of a list. -/
def worldAfter (w : World) (runs : List RipRun) : World :=
  runs.foldl (fun w t => (t.outcome w).world) w

theorem worldAfter_concat (w : World) (runs : List RipRun) (t : RipRun) :
    worldAfter w (runs ++ [t]) = (t.outcome (worldAfter w runs)).world :=
  List.foldl_concat ..

/-- Some run of the list installed `data` and retained it as `q`. -/
def InstalledBy (w : World) (runs : List RipRun) (q : Path) (data : Bytes) : Prop :=
  ∃ before t after, runs = before ++ t :: after ∧ ∃ result destination,
    (t.outcome (worldAfter w before)).result = .ok result ∧
      result.destination = some destination ∧ q = t.request.retainedPath destination.name ∧
        (t.outcome (worldAfter w before)).world.files destination = some data

theorem InstalledBy.concat {w : World} {runs : List RipRun} {q : Path} {data : Bytes}
    (h : InstalledBy w runs q data) (t : RipRun) : InstalledBy w (runs ++ [t]) q data := by
  obtain ⟨before, t', after, rfl, h⟩ := h
  exact ⟨before, t', after ++ [t], by simp, h⟩

/-- **Retained images are installed images**, over any sequence of runs whose `finally` clauses find
what `FinallyClean` asks for: each run retains an image only if it installs it, and the retained
image is the installed one; so whatever is retained in the end was retained before the first run, or
is the image that some run of the sequence installed. -/
theorem retained_are_installed (w : World) (runs : List RipRun)
    (hset : ∀ t ∈ runs, t.request.settings.retainTemporaryImage = true)
    (collision : ∀ t ∈ runs, Function.Injective t.machine.hexdigest)
    (hwrites : ∀ t ∈ runs, AppendsPrefix t.oracle.choices)
    (hclean : ∀ before t after, runs = before ++ t :: after →
      t.FinallyClean (worldAfter w before)) :
    (∀ before t after, runs = before ++ t :: after →
      Retains t.request (t.outcome (worldAfter w before)).result (worldAfter w before)
        (t.outcome (worldAfter w before)).world) ∧
    ∀ q ∈ retainedFiles, ∀ data, (worldAfter w runs).files q = some data →
      w.files q = some data ∨ InstalledBy w runs q data := by
  have hruns : ∀ before t after, runs = before ++ t :: after →
      Retains t.request (t.outcome (worldAfter w before)).result (worldAfter w before)
        (t.outcome (worldAfter w before)).world := by
    intro before t after h
    have ht : t ∈ runs := by simp [h]
    exact RipRun.retains (hset t ht) (collision t ht) (hwrites t ht) (hclean before t after h)
  refine ⟨hruns, ?_⟩
  clear hset collision hwrites hclean
  -- The last run either left the image alone, or installed it.
  induction runs using List.reverseRecOn with
  | nil => exact fun q _ data h => .inl h
  | append_singleton runs t ih =>
    intro q hq data hdata
    have hlast := hruns runs t [] rfl
    rw [worldAfter_concat] at hdata
    by_cases hsame : (t.outcome (worldAfter w runs)).world.files q = (worldAfter w runs).files q
    · rw [hsame] at hdata
      have hbefore :=
        ih (fun before t' after h => hruns before t' (after ++ [t]) (by simp [h])) q hq
        data hdata
      exact hbefore.imp_right fun h => h.concat t
    · obtain ⟨result, destination, hresult, hdest, rfl⟩ := hlast.onlyInstalled q hq hsame
      obtain ⟨data', hfile, hretained⟩ := hlast.identical result destination hresult hdest
      obtain rfl : data' = data := Option.some_injective _ (hretained.symm.trans hdata)
      exact .inr ⟨runs, t, [], rfl, result, destination, hresult, hdest, rfl, hfile⟩

/-- The sample DVD, with the image retained. -/
def sampleRun : RipRun := ⟨sampleMachine 0x10, noFaults, retainRequest⟩

theorem finallyClean_sampleRun : sampleRun.FinallyClean World.blank := by
  obtain ⟨result, hrun⟩ :=
    (returns_iff_ready hiddenFresh_blank tasksFresh_blank).2 ready_retainRequest
  have hattempt : (sampleRun.attempt World.blank).result = .ok result := by
    rcases execute_ripAndInstall (sampleMachine 0x10) (sampleMachine 0x10).toExternals retainRequest
      noFaults World.blank with ⟨hsame, -⟩ | ⟨_, _, -, -, -, hfinish, -⟩
    · exact (congrArg Outcome.result hsame).symm.trans hrun
    · rw [hfinish] at hrun
      exact result_of_finish hrun
  have himage := (execute_of_wp_issued (m := sampleMachine 0x10) (σ := noFaults) forall_made
    (ensures_ripAttempt_image (w := World.blank) (r := retainRequest) rfl stores_issued)).1 result
      hattempt
  constructor
  · intro name e _ he
    rw [hattempt] at he
    cases he
  · intro name _ hname _ _
    exact .inl ((himage name hname).2.trans rfl)
  · intro name n _ _ c hfault
    exact absurd rfl hfault

/-- The theorem for one run. -/
theorem retained_are_installed_sample :
    Retains retainRequest (sampleRun.outcome World.blank).result World.blank
      (sampleRun.outcome World.blank).world := by
  have hone : ∀ t ∈ [sampleRun], t = sampleRun := fun t ht => List.mem_singleton.1 ht
  refine (retained_are_installed World.blank [sampleRun] ?_ ?_ ?_ ?_).1 [] sampleRun [] rfl
  · intro t ht
    rw [hone t ht]
    rfl
  · intro t ht
    rw [hone t ht]
    exact sampleDigest_injective _
  · intro t ht
    rw [hone t ht]
    rintro p data c ⟨n, rfl⟩ - stored hstored
    cases hstored
  · intro before t after h
    obtain ⟨rfl, rfl, -⟩ : before = [] ∧ t = sampleRun ∧ after = [] := by
      cases before with
      | nil =>
        cases h
        exact ⟨rfl, rfl, rfl⟩
      | cons _ before => simp at h
    exact finallyClean_sampleRun

/-! ### An image that was not installed -/

/-- The sample DVD, and no space on the destination. -/
def fullMachine : Machine :=
  { sampleMachine 0x10 with
    free := fun
      | .opl _ => 0
      | .temporary _ => 1000000 }

def fullRun : RipRun := ⟨fullMachine, noFaults, retainRequest⟩

/-- Without space the attempt raises, and its image is in the task directory. -/
theorem calm_installDvd_full {source : Path} (hnew : w.files source = none)
    (hvolume : source.dir.volume = .temporary "C:\\Temp") (hfresh : HiddenFresh w)
    (hhidden : source.hidden = none) (hdir : source.dir.isLocal = true) :
    wp (calm fullMachine) (installDvd fullMachine.toExternals retainRequest source
        sampleDestination) (fun _ _ => False)
      (fun _ w' => (∃ data, w'.files source = some data) ∧ ∀ q : Path, q.dir.isLocal = true →
        q ≠ source → w'.files q = w.files q) w := by
  have htemporary : fullMachine.free source.dir.volume = 1000000 := by rw [hvolume]; rfl
  refine wp_seq (calm_ripDvdIso hnew) ?_ fun _ _ h => absurd ?_ h
  · rintro image w₁ ⟨-, hcomplete, hsha, hsize, hfile, hframe⟩
    have hfresh₁ : HiddenFresh w₁ := hfresh.of_frame hframe (by simpa using hhidden)
    refine wp_mono (wp_and (calm_install hfile hfresh₁ rfl hcomplete hsha hsize)
      (wp_outside install_alters)) ?_ ?_
    · rintro _ w₂ ⟨⟨-, hfree, -⟩, -⟩
      rw [Disc.length_blocks] at hfree
      exact absurd hfree (by decide)
    · rintro e w₂ ⟨-, hothers⟩
      have hlocal : ∀ q : Path, q.dir.isLocal = true → w₂.files q = w₁.files q := by
        intro q hq
        refine hothers q fun hsame => ?_
        have hsame : q.dir = sampleDestination.dir := hsame
        rw [hsame] at hq
        cases hq
      exact ⟨⟨_, (hlocal source hdir).trans hfile⟩, fun q hq hne => by
        rw [hlocal q hq, hframe.files q hne]⟩
  · rw [htemporary]
    decide

/-- The `finally` clause retains the image of an attempt that raises. -/
theorem calm_finally_full {k : ℕ} {name : String}
    (hnew : ∀ q : Path, q.dir.isLocal = true → w.files q = none) (hfresh : HiddenFresh w) :
    wp (calm fullMachine)
      ((installDvd fullMachine.toExternals retainRequest { dir := .task "C:\\Temp" k, name }
        sampleDestination).tryFinally
          (cleanup retainRequest (.task "C:\\Temp" k) (some { dir := .task "C:\\Temp" k, name })))
      (fun _ _ => False)
      (fun _ w' => (w'.files (retainRequest.retainedPath name)).isSome = true) w := by
  refine wp_tryFinally.2 (wp_mono (calm_installDvd_full (hnew _ rfl) rfl hfresh rfl rfl)
    (fun _ _ => False.elim) ?_)
  rintro e w₁ ⟨⟨data, hdata⟩, hothers⟩
  have hfree : w₁.files (retainRequest.retainedPath name) = none := by
    rw [hothers _ rfl (by simp [RipRequest.retainedPath]), hnew _ rfl]
  refine wp_mono (wp_and succeeds_cleanup (wp_cleanup_retains (A := fun _ c => c = {}) rfl hdata ?_
    (.inl hfree) ?_)) ?_ fun _ _ h => h.1.elim
  · rintro ⟨base, hbase⟩
    cases hbase
  · rintro _ rfl h
    exact absurd rfl h
  · rintro _ w₂ ⟨-, hretained, -⟩
    rw [hretained]
    rfl

/-- The task of a DVD whose media is still there is the attempt with the `finally` clause. -/
theorem calm_ripInTask_dvd {name : String} {destination : Path} {task : Dir}
    {current : DiscIdentity}
    {Q : InstallResult → World → Prop} {E : PyError → World → Prop}
    (hdvd : r.disc.mediaType = .ps2Dvd5) (hinspect : consult m (reinspect r) = .ok current)
    (h : ∀ w₁, Frame ∅ w w₁ → wp (calm m) ((installDvd m.toExternals r { dir := task, name }
      destination).tryFinally (cleanup r task (some { dir := task, name }))) Q E w₁) :
    wp (calm m) (ripInTask m.toExternals r name destination task) Q E w := by
  refine wp_seq (wp_tryCatch.2 (wp_mono (calm_consult reinspect_within) (fun _ _ h => h)
    fun e w₁ hraises => absurd hinspect (hraises _))) ?_ fun _ _ h => h
  rintro _ w₁ ⟨-, hframe⟩
  dsimp only
  rw [hdvd]
  exact h w₁ hframe

/-- When nothing is at the destination the run is the run of its task. -/
theorem calm_ripAndInstall_new {name : String} {destination : Path}
    {Q : InstallResult → World → Prop} {E : PyError → World → Prop}
    (hname : oplIsoFilename r.disc.gameId r.title = .ok name)
    (hdest : destinationForGame r.oplRoot r.disc.mediaType r.disc.gameId r.title = .ok destination)
    (habsent : w.files destination = none)
    (h : ∀ w₁, w₁.files = w.files → w.fresh < w₁.fresh →
      wp (calm m) (ripInTask m.toExternals r name destination (taskOf r w.fresh)) Q E w₁) :
    wp (calm m) (ripAndInstall m.toExternals r) Q E w := by
  rw [ripAndInstall, hname, hdest]
  refine wp_bind.2 (wp_bind.2 (wp_seq calm_pathExists ?_ fun _ _ => False.elim))
  rintro present w₁ ⟨rfl, rfl⟩
  rw [habsent, if_neg (by simp)]
  exact wp_bind.2 (calm_call (o := .mkdir _) rfl (wp_bind.2 (calm_call (o := .mkdtemp _) rfl
    (h _ rfl (Nat.lt_succ_self _)))))

/-- The task on the full drive raises and retains its image. -/
theorem calm_ripInTask_full {k : ℕ} (hnew : w.files = World.blank.files) (hfresh : HiddenFresh w) :
    wp (calm fullMachine) (ripInTask fullMachine.toExternals retainRequest sampleDestination.name
      sampleDestination (taskOf retainRequest k)) (fun _ _ => False)
      (fun _ w' => (w'.files (retainRequest.retainedPath sampleDestination.name)).isSome = true)
      w := by
  have hinspect : consult fullMachine (reinspect retainRequest) = .ok sampleDvd := rfl
  refine calm_ripInTask_dvd rfl hinspect fun w₁ hframe => ?_
  exact calm_finally_full (fun q _ => by rw [hframe.files_eq, hnew]; rfl)
    (hfresh.of_frame hframe (by simp))

/-- The run on the full drive raises and retains its image. -/
theorem calm_ripAndInstall_full :
    wp (calm fullMachine) (ripAndInstall fullMachine.toExternals retainRequest) (fun _ _ => False)
      (fun _ w' => (w'.files (retainRequest.retainedPath sampleDestination.name)).isSome = true)
      World.blank := by
  have hdest : destinationForGame retainRequest.oplRoot retainRequest.disc.mediaType
      retainRequest.disc.gameId retainRequest.title = .ok sampleDestination :=
    destinationForGame_sample
  have habsent : World.blank.files sampleDestination = none := rfl
  exact @calm_ripAndInstall_new fullMachine retainRequest World.blank sampleDestination.name
    sampleDestination _ _ oplIsoFilename_retainRequest hdest habsent fun w₁ hfiles _ =>
      calm_ripInTask_full hfiles fun p _ _ _ => congrFun hfiles p

/-- A run without failures that raises, and retains an image all the same. -/
theorem RipRun.not_retains_of_raises {t : RipRun} {q : Path} (hfaults : t.oracle = noFaults)
    (hcalm : wp (calm t.machine) (ripAndInstall t.machine.toExternals t.request)
      (fun _ _ => False) (fun _ w' => (w'.files q).isSome = true) w)
    (hq : q ∈ retainedFiles) (hnone : w.files q = none) :
    ¬ Retains t.request (t.outcome w).result w (t.outcome w).world := by
  intro hretains
  have hadmits : (calm t.machine).Admits (handlers t.machine t.oracle) := by
    rw [hfaults]
    exact allowing_admits fun _ _ => rfl
  obtain ⟨e, he, hfile⟩ := exists_error_of_wp (n := 0) hadmits hcalm
  have hchanged : (t.outcome w).world.files q ≠ w.files q := by
    intro hsame
    rw [hnone] at hsame
    have hfile : ((t.outcome w).world.files q).isSome = true := hfile
    rw [hsame] at hfile
    cases hfile
  obtain ⟨result, _, hresult, -⟩ := hretains.onlyInstalled q hq hchanged
  have hboth : Except.error e = .ok result := he.symm.trans hresult
  cases hboth

/-- A run that raises retains its image. -/
theorem not_retained_are_installed :
    ¬ ∀ (w : World) (runs : List RipRun),
      (∀ t ∈ runs, t.request.settings.retainTemporaryImage = true) →
      (∀ t ∈ runs, Function.Injective t.machine.hexdigest) →
      (∀ t ∈ runs, AppendsPrefix t.oracle.choices) →
      ∀ before t after, runs = before ++ t :: after →
        Retains t.request (t.outcome (worldAfter w before)).result (worldAfter w before)
          (t.outcome (worldAfter w before)).world := by
  intro h
  have hone : ∀ t ∈ [fullRun], t = fullRun := fun t ht => List.mem_singleton.1 ht
  have hretains := h World.blank [fullRun] (fun t ht => by rw [hone t ht]; rfl)
    (fun t ht => by rw [hone t ht]; exact sampleDigest_injective _)
    (fun t ht => by
      rw [hone t ht]
      rintro p data c ⟨n, rfl⟩ - stored hstored
      cases hstored) [] fullRun [] rfl
  exact RipRun.not_retains_of_raises rfl calm_ripAndInstall_full ⟨_, rfl⟩ rfl hretains

end Ps2Ripper
