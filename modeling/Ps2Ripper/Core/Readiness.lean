import Ps2Ripper.Imaging.FaultFree
import Ps2Ripper.Core.WorkflowSpec

/-!
# When the workflow returns without failures

* `Installable`, `ReadyDvd`, `ReadyCd`, `Ready`: what has to hold of the disc, of the free space and
  of the files that are already there;
* `calm_ripAndInstall`: without failures `rip_and_install` returns exactly when it is `Ready`.
-/

namespace Ps2Ripper

open Interactive Prog

variable {m : Machine} {r : RipRequest} {w : World} {α : Type}

/-! ### New names -/

/-- No hidden file carries a name that has not been drawn yet. -/
def HiddenFresh (w : World) : Prop :=
  ∀ p n, p.hidden = some n → w.fresh ≤ n → w.files p = none

/-- No directory carries a name that has not been drawn yet, if it has a file in it. -/
def TasksFresh (w : World) : Prop :=
  ∀ p base id, p.dir = .task base id → w.fresh ≤ id → w.files p = none

theorem HiddenFresh.of_frame {w' : World} (h : HiddenFresh w)
    {T : Set Path} (hframe : Frame T w w') (hT : ∀ p ∈ T, p.hidden = none) : HiddenFresh w' := by
  intro p n hp hn
  rw [hframe.fresh] at hn
  rw [hframe.files p fun hq => by simp [hT p hq] at hp]
  exact h p n hp hn

/-! ### Installing -/

/-- The image can be installed; `present` says whether the destination exists. -/
def Installable (m : Machine) (r : RipRequest) (data : Bytes) (present : Bool) : Prop :=
  ChecksOut m.toExternals data r.disc.gameId ∧ data.length ≤ m.free (.opl r.oplRoot) ∧
    (present = true → r.replaceExisting = true)

theorem calm_verifyFreeSpace {root : String} {n : ℕ} :
    wp (calm m) (verifyFreeSpace root n) (fun _ w' => n ≤ m.free (.opl root) ∧ w' = w)
      (fun _ _ => ¬ n ≤ m.free (.opl root)) w := by
  refine wp_bind.2 (calm_call (o := .diskUsage (.oplRoot root)) rfl ?_)
  split
  · exact not_le.2 ‹_›
  · exact ⟨not_lt.1 ‹_›, rfl⟩

theorem calm_publishBody {ext : Externals} (hext : ext = m.toExternals)
    {source destination part : Path} {data : Bytes}
    (hsource : w.files source = some data) (hpart : w.files part = none)
    (hne : destination ≠ part) (hchecks : ChecksOut m.toExternals data r.disc.gameId) :
    wp (calm m) (publishBody ext r source destination part (ext.hexdigest data))
      (fun hash w' => ((w.files destination).isSome = true → r.replaceExisting = true) ∧
        hash = ext.hexdigest data ∧ w'.files destination = some data)
      (fun _ _ => ¬ ((w.files destination).isSome = true → r.replaceExisting = true)) w := by
  refine wp_seq (calm_copyAndVerify hsource hpart) ?_ fun _ _ => False.elim
  rintro hash w₁ ⟨rfl, hcopy, hframe⟩
  refine wp_seq (calm_validatePs2Iso hcopy) ?_ fun _ _ h => absurd hchecks h
  rintro _ w₂ ⟨-, hframe'⟩
  have hdest : w₂.files destination = w.files destination := by
    rw [hframe'.files_eq, hframe.files _ hne]
  refine wp_seq calm_pathExists ?_ fun _ _ => False.elim
  rintro present w₃ ⟨rfl, rfl⟩
  rw [hdest]
  split
  · simp_all
  · refine wp_bind.2 (calm_call (o := .replace part destination) (a := ())
      (v := { (w₃.setFile part none).setFile destination (some data) with
        published := w₃.published ++ [(destination, data)] }) ?_ ⟨?_, rfl, ?_⟩)
    · simp [succeed, hframe'.files_eq, hcopy]
    · simp_all
    · simp [World.setFile]

theorem calm_publish {source destination : Path} {image : ImageResult} {data : Bytes}
    (hsource : w.files source = some data) (hfresh : HiddenFresh w)
    (hhidden : destination.hidden = none) (hcomplete : image.complete = true)
    (hsha : image.sha256 = m.hexdigest data) (hsize : image.size = data.length) :
    wp (calm m) (publish m.toExternals r source destination image)
      (fun hash w' => Installable m r data (w.files destination).isSome ∧
        hash = m.hexdigest data ∧ w'.files destination = some data)
      (fun _ _ => ¬ Installable m r data (w.files destination).isSome) w := by
  unfold publish
  rw [hcomplete, if_neg (by simp), hsha, hsize]
  refine wp_seq (calm_validatePs2Iso hsource) ?_ fun _ _ h h' => h h'.1
  rintro _ w₁ ⟨hchecks, hframe⟩
  refine wp_seq calm_verifyFreeSpace ?_ fun _ _ h h' => h h'.2.1
  rintro _ w₂ ⟨hfree, rfl⟩
  have hiff : Installable m r data (w.files destination).isSome ↔
      ((w₂.files destination).isSome = true → r.replaceExisting = true) := by
    rw [hframe.files_eq]
    exact ⟨fun h => h.2.2, fun h => ⟨hchecks, hfree, h⟩⟩
  rw [hiff]
  refine wp_bind.2 (calm_call (o := .uuid4) rfl ?_)
  have hpart : w₂.files (destination.partialOf w₂.fresh) = none := by
    rw [hframe.files_eq]
    exact hfresh _ _ rfl (by rw [hframe.fresh])
  have hne : destination ≠ destination.partialOf w₂.fresh := fun h => by
    have := congrArg Path.hidden h
    simp [hhidden, Path.partialOf] at this
  have hsource₂ : w₂.files source = some data := by rw [← hsource, ← hframe.files_eq]
  have hbody := calm_publishBody (m := m) (r := r) (w := { w₂ with fresh := w₂.fresh + 1 }) rfl
    hsource₂ hpart hne hchecks
  refine wp_tryFinally.2 (wp_mono hbody ?_ fun _ _ h => wp_const h _)
  rintro hash w₃ ⟨hreplace, rfl, hfile⟩
  refine calm_call (o := .unlink _) rfl ⟨hreplace, rfl, ?_⟩
  rw [World.setFile_files_of_ne _ _ hne, hfile]

theorem succeeds_verifyPublished {destination : Path} {image : ImageResult} {data : Bytes}
    (hdest : w.files destination = some data) (hsha : image.sha256 = m.hexdigest data)
    (hchecks : ChecksOut m.toExternals data r.disc.gameId) :
    Succeeds m (verifyPublished m.toExternals r destination image (m.hexdigest data)) w := by
  refine .bind (calm_sha256File hdest) ?_
  rintro _ w₁ ⟨rfl, rfl⟩
  rw [hsha, if_neg (by simp)]
  exact wp_seq (calm_validatePs2Iso hdest) (fun _ _ _ => trivial) fun _ _ h => absurd hchecks h

theorem calm_install {source destination : Path} {image : ImageResult} {data : Bytes}
    {archive : Option (Path × Path)} (hsource : w.files source = some data) (hfresh : HiddenFresh w)
    (hhidden : destination.hidden = none) (hcomplete : image.complete = true)
    (hsha : image.sha256 = m.hexdigest data) (hsize : image.size = data.length) :
    wp (calm m) (install m.toExternals r source destination image archive)
      (fun _ _ => Installable m r data (w.files destination).isSome)
      (fun _ _ => ¬ Installable m r data (w.files destination).isSome) w := by
  refine wp_seq (calm_publish hsource hfresh hhidden hcomplete hsha hsize) ?_ fun _ _ => id
  rintro hash w₁ ⟨hinst, rfl, hfile⟩
  exact wp_seq (succeeds_verifyPublished hfile hsha hinst.1) (fun _ _ _ => hinst)
    fun _ _ => False.elim

/-! ### Cleaning up -/

theorem succeeds_retainImage {source : Option Path} : Succeeds m (retainImage r source) w := by
  unfold retainImage
  split
  · rename_i image _
    refine .bind calm_pathExists ?_
    rintro present w₁ ⟨rfl, rfl⟩
    cases hfile : w₁.files image with
    | none => trivial
    | some data =>
      refine .bind (Q := fun _ w' => w' = w₁) (calm_call (o := .mkdir _) rfl rfl) fun _ w₂ h₂ => ?_
      subst h₂
      refine .bind calm_pathExists ?_
      rintro kept w₃ ⟨-, rfl⟩
      split
      · trivial
      · exact .of_wp (calm_move hfile)
  · trivial

theorem succeeds_cleanup {task : Dir} {source : Option Path} :
    Succeeds m (cleanup r task source) w :=
  .bind succeeds_retainImage fun _ _ _ => calm_call (o := .rmtree task) rfl trivial

/-- The `finally` clause changes nothing about whether the statement before it raises. -/
theorem calm_tryFinally_cleanup {p : Program α} {task : Dir} {source : Option Path} {P P' : Prop}
    (h : wp (calm m) p (fun _ _ => P) (fun _ _ => P') w) :
    wp (calm m) (p.tryFinally (cleanup r task source)) (fun _ _ => P) (fun _ _ => P') w := by
  refine wp_tryFinally.2 (wp_mono h (fun a w₁ hP => ?_) fun e w₁ hP => wp_const hP _)
  exact wp_mono (succeeds_cleanup) (fun _ _ _ => hP) fun _ _ => False.elim

theorem calm_onRaise {p : Program α} {f : Program Unit} {Q : α → World → Prop} {P : Prop}
    (h : wp (calm m) p Q (fun _ _ => P) w) :
    wp (calm m) (onRaise p f) Q (fun _ _ => P) w := by
  refine wp_tryCatch.2 (wp_mono h (fun _ _ => id) fun e w₁ hP => ?_)
  exact wp_bind.2 (wp_mono (wp_const hP f) (fun _ _ => id) fun _ _ => id)

/-! ### The two kinds of discs -/

/-- A DVD can be ripped and installed. -/
def ReadyDvd (m : Machine) (r : RipRequest) (present : Bool) : Prop :=
  r.disc.totalSectors * 2048 ≤ m.free (.temporary r.settings.temporaryDirectory) ∧
    Installable m r (m.disc.blocks 0 r.disc.totalSectors) present

theorem calm_installDvd {source destination : Path} (hnew : w.files source = none)
    (hvolume : source.dir.volume = .temporary r.settings.temporaryDirectory)
    (hfresh : HiddenFresh w) (hsource : source.hidden = none) (hhidden : destination.hidden = none)
    (hne : destination ≠ source) :
    wp (calm m) (installDvd m.toExternals r source destination)
      (fun _ _ => ReadyDvd m r (w.files destination).isSome)
      (fun _ _ => ¬ ReadyDvd m r (w.files destination).isSome) w := by
  refine wp_seq (calm_ripDvdIso hnew) ?_ fun _ _ h h' => h (hvolume ▸ h'.1)
  rintro image w₁ ⟨hfree, hcomplete, hsha, hsize, hfile, hframe⟩
  have hfresh₁ : HiddenFresh w₁ := hfresh.of_frame hframe (by simpa using hsource)
  rw [hvolume] at hfree
  refine wp_mono (calm_install hfile hfresh₁ hhidden hcomplete hsha hsize) ?_ ?_
  · exact fun _ _ h => ⟨hfree, by rwa [hframe.files destination hne] at h⟩
  · exact fun _ _ h h' => h (by rw [hframe.files destination hne]; exact h'.2)

/-- The places in the archive of the disc are free. -/
def ArchiveFree (w : World) (r : RipRequest) (stem : String) : Prop :=
  w.files (r.archivePath stem (stem ++ ".bin")) = none ∧
    w.files (r.archivePath stem (stem ++ ".cue")) = none

/-- Moving into the archive goes through exactly when its places are free. -/
theorem calm_moveToArchive {stem : String} {task : Dir}
    (htask : task ≠ .archives r.settings.temporaryDirectory stem)
    (hbin : (w.files { dir := task, name := stem ++ ".bin" }).isSome)
    (hcue : (w.files { dir := task, name := stem ++ ".cue" }).isSome) :
    wp (calm m) (moveToArchive r stem { dir := task, name := stem ++ ".bin" }
        { dir := task, name := stem ++ ".cue" })
      (fun _ _ => ArchiveFree w r stem) (fun _ _ => ¬ ArchiveFree w r stem) w := by
  obtain ⟨bin, hbin⟩ := Option.isSome_iff_exists.1 hbin
  obtain ⟨cue, hcue⟩ := Option.isSome_iff_exists.1 hcue
  refine wp_bind.2 (calm_call (o := .mkdir _) rfl ?_)
  by_cases hfree : ArchiveFree w r stem
  · refine wp_seq (calm_eitherExists hfree.1 hfree.2) ?_ fun _ _ => False.elim
    rintro _ w₁ ⟨rfl, rfl⟩
    rw [if_neg (by simp)]
    refine wp_seq (calm_move hbin) ?_ fun _ _ => False.elim
    rintro _ w₂ ⟨hfiles, -⟩
    have h1 : (⟨task, stem ++ ".cue", none⟩ : Path) ≠ r.archivePath stem (stem ++ ".bin") := by
      simp [RipRequest.archivePath, htask]
    have h2 : (⟨task, stem ++ ".cue", none⟩ : Path) ≠ ⟨task, stem ++ ".bin", none⟩ := by simp
    have hcue₂ : w₂.files ⟨task, stem ++ ".cue", none⟩ = some cue := by
      rw [hfiles, World.setFile_files_of_ne _ _ h1, World.setFile_files_of_ne _ _ h2, hcue]
    exact wp_bind.2 (wp_mono (calm_move hcue₂) (fun _ _ _ => hfree) fun _ _ => False.elim)
  · refine wp_mono (wp_and (wp_const hfree _)
      (?_ : wp (calm m) _ (fun _ _ => False) (fun _ _ => True) w)) (fun _ _ h => h.2.elim)
      fun _ _ => And.left
    refine ensures_bind ensures_eitherExists ?_
    rintro present w₁ ⟨hpresent, rfl⟩
    have : present = true := by
      rw [hpresent]
      by_contra hnot
      simp only [Bool.or_eq_true, not_or, Option.not_isSome_iff_eq_none] at hnot
      exact hfree hnot
    rw [this, if_pos rfl]
    exact ensures_raiseExisting

theorem ConvertsTo.unique {volume : Volume} {tracks : List CDTrack} {number : ℕ}
    {source data data' : Bytes} (h : ConvertsTo m volume tracks number source data)
    (h' : ConvertsTo m volume tracks number source data') : data = data' := by
  obtain ⟨track, first, htrack, hfirst, -, -, -, hdata⟩ := h
  obtain ⟨track', first', htrack', hfirst', -, -, -, hdata'⟩ := h'
  rw [htrack] at htrack'
  rw [hfirst] at hfirst'
  cases htrack'
  cases hfirst'
  rw [hdata] at hdata'
  exact Option.some.inj hdata'

/-- The data track can be converted, archived as far as that is wanted, and installed. -/
def ReadyTrack (m : Machine) (r : RipRequest) (w : World) (stem : String) (present : Bool)
    (number : ℕ) : Prop :=
  ∃ data, ConvertsTo m (.temporary r.settings.temporaryDirectory) r.disc.tracks number
      (m.disc.trackBytes r.disc.tracks) data ∧
    (r.retainArchive = true → ArchiveFree w r stem) ∧ Installable m r data present

/-- A CD can be archived, and what is wanted of it can be installed. -/
def ReadyCd (m : Machine) (r : RipRequest) (w : World) (stem : String) (present : Bool) : Prop :=
  Archivable m (.temporary r.settings.temporaryDirectory) (stem ++ ".bin").toList r.disc.tracks ∧
    ∃ number, consult m (findPs2CdTrack r.disc.gameId r.disc.tracks) = .ok number ∧
      if r.archiveOnly then ArchiveFree w r stem else ReadyTrack m r w stem present number

section Cd

variable {stem : String} {k : ℕ} {destination : Path} {number : ℕ}

/-- The directory of a run. -/
abbrev taskOf (r : RipRequest) (k : ℕ) : Dir := .task r.settings.temporaryDirectory k

theorem calm_archiveIfRetained
    (hbin : (w.files { dir := taskOf r k, name := stem ++ ".bin" }).isSome)
    (hcue : (w.files { dir := taskOf r k, name := stem ++ ".cue" }).isSome) :
    wp (calm m) (archiveIfRetained r stem { dir := taskOf r k, name := stem ++ ".bin" }
        { dir := taskOf r k, name := stem ++ ".cue" })
      (fun _ _ => r.retainArchive = true → ArchiveFree w r stem)
      (fun _ _ => ¬ (r.retainArchive = true → ArchiveFree w r stem)) w := by
  unfold archiveIfRetained
  split
  · rename_i hretain
    simp only [hretain, forall_const]
    exact wp_seq (calm_moveToArchive (by simp) hbin hcue) (fun _ _ h => h) fun _ _ h => h
  · rename_i hretain
    exact fun h => absurd h hretain

theorem calm_installCd
    (hbin : w.files { dir := taskOf r k, name := stem ++ ".bin" } =
      some (m.disc.trackBytes r.disc.tracks))
    (hcue : (w.files { dir := taskOf r k, name := stem ++ ".cue" }).isSome)
    (hsource : w.files { dir := taskOf r k, name := stem ++ ".iso" } = none)
    (hfresh : HiddenFresh w) (hdir : destination.dir.isLocal = false)
    (hhidden : destination.hidden = none) :
    wp (calm m) (installCd m.toExternals r stem { dir := taskOf r k, name := stem ++ ".bin" }
        { dir := taskOf r k, name := stem ++ ".cue" } { dir := taskOf r k, name := stem ++ ".iso" }
        destination number)
      (fun _ _ => ReadyTrack m r w stem (w.files destination).isSome number)
      (fun _ _ => ¬ ReadyTrack m r w stem (w.files destination).isSome number) w := by
  refine wp_seq (calm_convertCdDataTrackToIso hbin hsource) ?_ ?_
  swap
  · rintro _ _ h ⟨data, hdata, -⟩
    exact h ⟨data, hdata⟩
  rintro image w₁ ⟨data, hdata, hcomplete, hsha, hsize, hfile, hframe⟩
  have hdest : w₁.files destination = w.files destination :=
    hframe.files _ fun h => by
      rw [Set.mem_singleton_iff] at h
      simp [h, Dir.isLocal] at hdir
  have harch : ArchiveFree w₁ r stem ↔ ArchiveFree w r stem := by
    simp only [ArchiveFree]
    rw [hframe.files _ (by simp [RipRequest.archivePath]),
      hframe.files _ (by simp [RipRequest.archivePath])]
  -- The track is converted: what is left to ask is about the archive and the destination.
  have hiff : ReadyTrack m r w stem (w.files destination).isSome number ↔
      (r.retainArchive = true → ArchiveFree w₁ r stem) ∧
        Installable m r data (w₁.files destination).isSome := by
    rw [hdest, harch]
    constructor
    · rintro ⟨data', hdata', h⟩
      obtain rfl := hdata.unique hdata'
      exact h
    · exact fun h => ⟨data, hdata, h⟩
  rw [hiff]
  have hbin₁ : w₁.files { dir := taskOf r k, name := stem ++ ".bin" } =
      some (m.disc.trackBytes r.disc.tracks) := by rw [hframe.files _ (by simp), hbin]
  have hcue₁ : (w₁.files { dir := taskOf r k, name := stem ++ ".cue" }).isSome := by
    rw [hframe.files _ (by simp)]
    exact hcue
  refine wp_bind.2 (wp_mono (wp_and (calm_archiveIfRetained (by simp [hbin₁]) hcue₁)
    (wp_kept (T := { p | p.hidden = none ∧ p.dir.isLocal = true ∧ p.name ≠ stem ++ ".iso" ∨
        ∃ name, p = r.archivePath stem name })
      (A := fun _ c => c = {}) (archiveIfRetained_altersOnly ?_ ?_ ?_))) ?_ ?_)
  · exact .inl ⟨rfl, rfl, by simp⟩
  · exact .inl ⟨rfl, rfl, by simp⟩
  · exact fun name => .inr ⟨name, rfl⟩
  · rintro archive w₂ ⟨hretain, hkept⟩
    -- The move to the archive leaves the image, the destination and the unused names alone.
    have hdest₂ : w₂.files destination = w₁.files destination := hkept.files _ <| by
      rintro (⟨-, h, -⟩ | ⟨name, rfl⟩)
      · simp [h] at hdir
      · simp [RipRequest.archivePath, Dir.isLocal] at hdir
    have hfile₂ : w₂.files { dir := taskOf r k, name := stem ++ ".iso" } = some data := by
      rw [hkept.files, hfile]
      rintro (⟨-, -, h⟩ | ⟨name, h⟩)
      · exact h rfl
      · simp [RipRequest.archivePath] at h
    have hfresh₂ : HiddenFresh w₂ := by
      intro p n hp hn
      have hne : ∀ q : Path, q.hidden = none → p ≠ q := fun q hq h => by simp [h, hq] at hp
      rw [hkept.files, hframe.files]
      · exact hfresh p n hp (by rwa [hkept.fresh, hframe.fresh] at hn)
      · exact hne _ rfl
      · rintro (⟨h, -, -⟩ | ⟨name, h⟩)
        · simp [h] at hp
        · exact hne _ rfl h
    rw [← hdest₂]
    refine wp_mono (calm_install hfile₂ hfresh₂ hhidden hcomplete hsha hsize)
      (fun _ _ h => ⟨hretain, h⟩) fun _ _ h h' => h h'.2
  · rintro e w₂ ⟨hretain, -⟩ h
    exact hretain h.1

theorem calm_ripCd (hbin : w.files { dir := taskOf r k, name := stem ++ ".bin" } = none)
    (hcue : w.files { dir := taskOf r k, name := stem ++ ".cue" } = none) :
    wp (calm m) (ripCd m.toExternals r { dir := taskOf r k, name := stem ++ ".bin" }
        { dir := taskOf r k, name := stem ++ ".cue" })
      (fun x w' => Archivable m (.temporary r.settings.temporaryDirectory)
          (stem ++ ".bin").toList r.disc.tracks ∧
        consult m (findPs2CdTrack r.disc.gameId r.disc.tracks) = .ok x.2 ∧
        w'.files { dir := taskOf r k, name := stem ++ ".bin" } =
          some (m.disc.trackBytes r.disc.tracks) ∧
        (w'.files { dir := taskOf r k, name := stem ++ ".cue" }).isSome ∧
        Frame {{ dir := taskOf r k, name := stem ++ ".bin" },
          { dir := taskOf r k, name := stem ++ ".cue" }} w w')
      (fun _ _ => ¬ (Archivable m (.temporary r.settings.temporaryDirectory)
          (stem ++ ".bin").toList r.disc.tracks ∧
        ∃ number, consult m (findPs2CdTrack r.disc.gameId r.disc.tracks) = .ok number)) w := by
  refine wp_seq (calm_ripCdBinCue (by simp) hbin hcue) ?_ fun _ _ h h' => h h'.1
  rintro image w₁ ⟨harch, hfile, hsheet, hframe⟩
  refine wp_seq (calm_consult findPs2CdTrack_within) ?_ ?_
  · rintro number w₂ ⟨hnumber, hframe₂⟩
    exact ⟨harch, hnumber, by rw [hframe₂.files_eq, hfile], by rw [hframe₂.files_eq]; exact hsheet,
      hframe.trans (hframe₂.mono (by simp))⟩
  · rintro e w₂ h ⟨-, number, hnumber⟩
    exact h number hnumber

end Cd

/-! ### The whole workflow -/

/-- What the media type asks for. -/
def ReadyMedia (m : Machine) (r : RipRequest) (w : World) (name : String) (present : Bool) : Prop :=
  match r.disc.mediaType with
  | .ps2Dvd5 | .ps2Dvd9 => ReadyDvd m r present
  | .ps2Cd => ReadyCd m r w (removeIsoSuffix name) present
  | _ => False

theorem calm_ripInTask {stem : String} {k : ℕ} {destination : Path}
    (htask : ∀ p, p.dir = taskOf r k → w.files p = none) (hfresh : HiddenFresh w)
    (hdir : destination.dir.isLocal = false) (hhidden : destination.hidden = none) :
    wp (calm m) (ripInTask m.toExternals r (stem ++ ".iso") destination (taskOf r k))
      (fun _ _ => (∃ current, consult m (reinspect r) = .ok current) ∧
        ReadyMedia m r w (stem ++ ".iso") (w.files destination).isSome)
      (fun _ _ => ¬ ((∃ current, consult m (reinspect r) = .ok current) ∧
        ReadyMedia m r w (stem ++ ".iso") (w.files destination).isSome)) w := by
  refine wp_seq (calm_onRaise (wp_mono (calm_consult reinspect_within) (fun _ _ => id)
    fun e w₁ h => ?_)) ?_ fun _ _ => id
  · rintro ⟨⟨current, hcurrent⟩, -⟩
    exact h current hcurrent
  rintro current w₁ ⟨hcurrent, hframe⟩
  have hfresh₁ : HiddenFresh w₁ := hfresh.of_frame hframe (by simp)
  have hnew : ∀ name, w₁.files { dir := taskOf r k, name } = none := fun name => by
    rw [hframe.files_eq]
    exact htask _ rfl
  -- The inspection changes no file, so that readiness can be asked of the world behind it.
  have hiff : ((∃ current, consult m (reinspect r) = .ok current) ∧
      ReadyMedia m r w (stem ++ ".iso") (w.files destination).isSome) ↔
      ReadyMedia m r w₁ (stem ++ ".iso") (w₁.files destination).isSome := by
    rw [ReadyMedia, ReadyMedia, ReadyCd, ReadyCd, hframe.files_eq]
    simp only [ReadyTrack, ArchiveFree, hframe.files_eq]
    exact ⟨And.right, fun h => ⟨⟨current, hcurrent⟩, h⟩⟩
  rw [hiff, ReadyMedia, removeIsoSuffix_append]
  have hne : destination ≠ { dir := taskOf r k, name := stem ++ ".iso" } := fun h => by
    simp [h, Dir.isLocal] at hdir
  have hdvd : wp (calm m) ((installDvd m.toExternals r
      { dir := taskOf r k, name := stem ++ ".iso" } destination).tryFinally
        (cleanup r (taskOf r k) (some { dir := taskOf r k, name := stem ++ ".iso" })))
      (fun _ _ => ReadyDvd m r (w₁.files destination).isSome)
      (fun _ _ => ¬ ReadyDvd m r (w₁.files destination).isSome) w₁ :=
    calm_tryFinally_cleanup (calm_installDvd (hnew (stem ++ ".iso")) rfl hfresh₁ rfl hhidden hne)
  cases hmedia : r.disc.mediaType with
  | ps2Dvd5 => exact hdvd
  | ps2Dvd9 => exact hdvd
  | ps2Cd =>
    refine wp_seq (calm_onRaise (wp_mono (calm_ripCd (hnew _) (hnew _)) (fun _ _ => id)
      fun e w₂ h h' => h ⟨h'.1, h'.2.choose, h'.2.choose_spec.1⟩)) ?_ fun _ _ => id
    rintro ⟨rawResult, number⟩ w₂ ⟨harch, hnumber, hbin, hcue, hframe₂⟩
    -- The rip fills the task directory only, where no readiness looks.
    have hold : ∀ p : Path, p.dir ≠ taskOf r k → w₂.files p = w₁.files p := fun p hp =>
      hframe₂.files p (by rintro (rfl | rfl) <;> exact hp rfl)
    have hready : ReadyCd m r w₁ stem (w₁.files destination).isSome ↔
        if r.archiveOnly then ArchiveFree w₂ r stem
        else ReadyTrack m r w₂ stem (w₂.files destination).isSome number := by
      simp only [ReadyCd, ReadyTrack, ArchiveFree]
      rw [hold _ (by simp [RipRequest.archivePath]), hold _ (by simp [RipRequest.archivePath]),
        hold destination fun h => by simp [h, Dir.isLocal] at hdir]
      constructor
      · rintro ⟨-, number', hnumber', h⟩
        rw [hnumber] at hnumber'
        cases hnumber'
        exact h
      · exact fun h => ⟨harch, number, hnumber, h⟩
    rw [hready]
    dsimp only
    split
    · rename_i honly
      refine calm_tryFinally_cleanup ?_
      exact wp_seq (calm_moveToArchive (by simp) (by simp [hbin]) hcue) (fun _ _ h => h)
        fun _ _ h => h
    · rename_i honly
      refine calm_tryFinally_cleanup (calm_installCd hbin hcue ?_ ?_ hdir hhidden)
      · rw [hframe₂.files _ (by simp), hnew]
      · exact hfresh₁.of_frame hframe₂ (by rintro p (rfl | rfl) <;> rfl)
  | _ => exact calm_onRaise fun h => h

/-- Without failures `rip_and_install` would return. -/
def Ready (m : Machine) (r : RipRequest) (w : World) : Prop :=
  ∃ destination,
    destinationForGame r.oplRoot r.disc.mediaType r.disc.gameId r.title = .ok destination ∧
    ((w.files destination).isSome = true → r.replaceExisting = true ∨ r.archiveOnly = true) ∧
    (∃ current, consult m (reinspect r) = .ok current) ∧
    ReadyMedia m r w destination.name (w.files destination).isSome

theorem ready_iff_of_destination {destination : Path}
    (hdest : destinationForGame r.oplRoot r.disc.mediaType r.disc.gameId r.title =
      .ok destination) :
    Ready m r w ↔
      ((w.files destination).isSome = true → r.replaceExisting = true ∨ r.archiveOnly = true) ∧
      (∃ current, consult m (reinspect r) = .ok current) ∧
      ReadyMedia m r w destination.name (w.files destination).isSome := by
  constructor
  · rintro ⟨destination', hdest', h⟩
    rw [hdest] at hdest'
    cases hdest'
    exact h
  · exact fun h => ⟨destination, hdest, h⟩

/-- Without failures `rip_and_install` returns exactly when it is `Ready`. -/
theorem calm_ripAndInstall (hhidden : HiddenFresh w) (htasks : TasksFresh w) :
    wp (calm m) (ripAndInstall m.toExternals r) (fun _ _ => Ready m r w) (fun _ _ => ¬ Ready m r w)
      w := by
  refine wp_bind.2 ((wp_lift _).2 ⟨fun name hname => ?_, fun e he => ?_⟩)
  swap
  · rintro ⟨destination, hdest, -⟩
    obtain ⟨-, -, hname⟩ := destinationForGame_eq_ok hdest
    rw [hname] at he
    cases he
  refine wp_bind.2 ((wp_lift _).2 ⟨fun destination hdest => ?_, fun e he => ?_⟩)
  swap
  · rintro ⟨destination, hdest, -⟩
    rw [hdest] at he
    cases he
  obtain ⟨⟨folder, hfolder⟩, hnone, hname'⟩ := destinationForGame_eq_ok hdest
  rw [hname] at hname'
  cases hname'
  rw [ready_iff_of_destination hdest]
  refine wp_seq calm_pathExists ?_ fun _ _ => False.elim
  rintro present w₁ ⟨rfl, rfl⟩
  split
  · rename_i h
    simp only [Bool.and_eq_true, Bool.not_eq_eq_eq_not, Bool.not_true] at h
    rintro ⟨hreplace, -⟩
    simpa [h.1.2, h.2] using hreplace h.1.1
  · rename_i h
    have hreplace : (w₁.files destination).isSome = true →
        r.replaceExisting = true ∨ r.archiveOnly = true := fun hp => by
      simp only [hp, Bool.true_and, Bool.and_eq_true, Bool.not_eq_eq_eq_not, Bool.not_true,
        not_and, Bool.not_eq_false] at h
      by_cases hr : r.replaceExisting = true
      · exact .inl hr
      · exact .inr (h (by simpa using hr))
    refine wp_bind.2
      (calm_call (o := .mkdir _) rfl (wp_bind.2 (calm_call (o := .mkdtemp _) rfl ?_)))
    obtain ⟨stem, hstem⟩ := exists_stem_of_oplIsoFilename hname
    have hbody := @calm_ripInTask m r { w₁ with fresh := w₁.fresh + 1 } stem w₁.fresh destination
      (fun p hp => htasks p _ _ hp le_rfl) (fun p n hp hn => hhidden p n hp (by simp at hn; omega))
      (by rw [hfolder]; rfl) hnone
    rw [← hstem] at hbody
    exact wp_mono hbody (fun _ _ h => ⟨hreplace, h⟩) fun _ _ h h' => h h'.2

end Ps2Ripper
