import Ps2Ripper.Imaging.VerificationSpec
import Ps2Ripper.Optical.MediaSpec
import Ps2Ripper.Core.Workflow

/-!
# The steps of the workflow

* the directories that belong to the local machine, and what the `finally` clause leaves alone;
* `_find_ps2_cd_track` returns the number of a data track that holds the expected game;
* what is known about the destination once `install` has returned.
-/

namespace Ps2Ripper

open Interactive Prog

variable {m : Machine} {A : Op → Choice → Prop} {w : World} {ext : Externals} {α : Type}

/-! ### Places -/

/-- A directory below `settings.temporary_directory`. -/
def Dir.isLocal : Dir → Bool
  | .oplRoot _ | .opl .. => false
  | _ => true

theorem destinationForGame_eq_ok {root : String} {media : MediaType} {gameId : String}
    {title : List Char} {p : Path} (h : destinationForGame root media gameId title = .ok p) :
    (∃ folder, p.dir = .opl root folder) ∧ p.hidden = none ∧
      oplIsoFilename gameId title = .ok p.name := by
  unfold destinationForGame at h
  cases hname : oplIsoFilename gameId title with
  | error e => cases media <;> simp [hname, bind, Except.bind] at h
  | ok name =>
    cases media <;> simp only [hname, bind, Except.bind, Pure.pure, Except.pure, reduceCtorEq,
      Except.ok.injEq] at h <;> subst h <;> exact ⟨⟨_, rfl⟩, rfl, rfl⟩

/-- The files below `settings.temporary_directory`. -/
def localFiles : Set Path := { p | p.dir.isLocal = true }

/-- The `finally` clause changes the files of the task directory, and moves the image away. -/
theorem cleanup_alters {r : RipRequest} {task : Dir} {source : Option Path} {T : Set Path}
    (htask : ∀ p : Path, p.dir = task → p ∈ T)
    (hsource : ∀ p ∈ source, p ∈ T ∧ r.retainedPath p.name ∈ T) :
    (cleanup r task source).Uses (Op.AltersOnly T) := by
  refine .bind ?_ fun _ => uses_of ⟨fun q hq => htask q hq, rfl⟩
  unfold retainImage
  split
  · have hs := hsource _ rfl
    refine .bind (uses_of (by simp)) fun _ => .ite (fun _ => .bind (uses_of (by simp)) fun _ =>
      .bind (uses_of (by simp)) fun _ => .ite (fun _ => trivial) fun _ => uses_of ⟨?_, rfl⟩)
        fun _ => trivial
    rintro q (rfl | rfl)
    · exact hs.1
    · exact hs.2
  · trivial

/-- The `finally` clause changes nothing outside the local directories. -/
theorem cleanup_altersOnly {r : RipRequest} {task : Dir} {source : Option Path}
    (htask : task.isLocal = true) (hsource : ∀ p ∈ source, p.dir.isLocal = true) :
    (cleanup r task source).Uses (Op.AltersOnly localFiles) :=
  cleanup_alters (fun _ hp => (congrArg Dir.isLocal hp).trans htask)
    fun _ hp => ⟨hsource _ hp, rfl⟩

/-! ### Footprints -/

section Footprints

variable {R T : Set Path}

theorem findPs2CdTrack_within {gameId : String} {tracks : List CDTrack} :
    (findPs2CdTrack gameId tracks).Uses (Op.Within R T) := by
  induction tracks with
  | nil => trivial
  | cons track rest ih =>
    exact .ite (fun _ => ih) fun _ => .bind (.tryCatch (.bind systemCnfId_within fun _ => trivial)
      fun _ => .ite (fun _ => trivial) fun _ => trivial) fun _ => .ite (fun _ => trivial)
        fun _ => ih

theorem verifyFreeSpace_within {root : String} {n : ℕ} :
    (verifyFreeSpace root n).Uses (Op.Within R T) :=
  .bind (uses_of (by simp)) fun _ => .ite (fun _ => trivial) fun _ => trivial

theorem reinspect_within {r : RipRequest} : (reinspect r).Uses (Op.Within R T) :=
  .bind (uses_of (by simp)) fun _ => .bind inspectDisc_within fun _ =>
    .ite (fun _ => trivial) fun _ => trivial

end Footprints

theorem moveToArchive_altersOnly {r : RipRequest} {stem : String} {bin cue : Path} {T : Set Path}
    (hbin : bin ∈ T) (hcue : cue ∈ T) (harchive : ∀ name, r.archivePath stem name ∈ T) :
    (moveToArchive r stem bin cue).Uses (Op.AltersOnly T) := by
  refine .bind (uses_of (by simp)) fun _ => .bind (altersOnly_of_within (R := Set.univ) (T := ∅)
    (eitherExists_within trivial trivial) (by simp)) fun _ => .ite (fun _ =>
      altersOnly_of_within (R := Set.univ) (T := ∅) (raiseExisting_within trivial) (by simp))
        fun _ => .bind (uses_of ⟨?_, rfl⟩) fun _ => .bind (uses_of ⟨?_, rfl⟩) fun _ => trivial
  · rintro q (rfl | rfl)
    · exact hbin
    · exact harchive _
  · rintro q (rfl | rfl)
    · exact hcue
    · exact harchive _

theorem archiveIfRetained_altersOnly {r : RipRequest} {stem : String} {bin cue : Path}
    {T : Set Path} (hbin : bin ∈ T) (hcue : cue ∈ T)
    (harchive : ∀ name, r.archivePath stem name ∈ T) :
    (archiveIfRetained r stem bin cue).Uses (Op.AltersOnly T) :=
  .ite (fun _ => .bind (moveToArchive_altersOnly hbin hcue harchive) fun _ => trivial)
    fun _ => trivial

/-! ### The search for the PS2 track -/

/-- The boot configuration of the image that starts with a data track names the game. -/
def HoldsGame (m : Machine) (gameId : String) (track : CDTrack) : Prop :=
  ∃ iso target cnf, m.openIso (.ofStream m.disc 0 (some track)) = .ok iso ∧
    iso.getFile "/SYSTEM.CNF;1" = .ok target ∧ parseSystemCnf target = .ok cnf ∧ cnf.gameId = gameId

theorem ensures_systemCnfId {track : CDTrack} :
    ensures (allowing m A) (systemCnfId (.stream 0 (some track)))
      (fun gameId _ => HoldsGame m gameId track) w := by
  refine ensures_bind (Q := fun target _ => ∃ iso,
    m.openIso (.ofStream m.disc 0 (some track)) = .ok iso ∧
      iso.getFile "/SYSTEM.CNF;1" = .ok target) (ensures_call fun c _ target w' h => ?_) ?_
  · simp only [succeed, World.source, bind, Except.bind] at h
    cases hiso : m.openIso (.ofStream m.disc 0 (some track)) with
    | error e => simp [hiso] at h
    | ok iso =>
      simp only [hiso, Prod.mk.injEq] at h
      exact ⟨iso, rfl, h.1⟩
  · rintro target w₁ ⟨iso, hiso, hfile⟩
    exact ensures_bind (ensures_lift (Q := fun cnf _ => parseSystemCnf target = .ok cnf)
      fun _ h => h) fun cnf w₂ hcnf => ensures_return ⟨iso, target, cnf, hiso, hfile, hcnf, rfl⟩

theorem ensures_findPs2CdTrack {gameId : String} {tracks : List CDTrack} :
    ensures (allowing m A) (findPs2CdTrack gameId tracks) (fun number _ =>
      ∃ track ∈ tracks, track.number = number ∧ track.kind ≠ .audio ∧ HoldsGame m gameId track)
      w := by
  induction tracks generalizing w with
  | nil => trivial
  | cons track rest ih =>
    have later : ∀ {w : World}, ensures (allowing m A) (findPs2CdTrack gameId rest) (fun number _ =>
        ∃ t ∈ track :: rest, t.number = number ∧ t.kind ≠ .audio ∧ HoldsGame m gameId t) w :=
      ensures_mono ih fun _ _ ⟨t, ht, h⟩ => ⟨t, List.mem_cons_of_mem _ ht, h⟩
    refine Or.elim (em (track.kind = .audio)) (fun h => ?_) fun h => ?_
    · rw [findPs2CdTrack, if_pos h]
      exact later
    rw [findPs2CdTrack, if_neg h]
    refine ensures_bind (Q := fun found _ => found = true → HoldsGame m gameId track)
      (ensures_tryCatch (ensures_bind ensures_systemCnfId fun found w₁ hf => ensures_return ?_)
        fun e w₁ => ?_) fun found w₁ hfound => ?_
    · intro heq
      exact of_decide_eq_true heq ▸ hf
    · split
      · exact ensures_return (by simp)
      · trivial
    · split
      · exact ensures_return ⟨track, List.mem_cons_self .., rfl, h, hfound ‹_›⟩
      · exact later

/-! ### The destination after the installation -/

/-- The file at `p` has the digest `sha256`. -/
def HasDigest (ext : Externals) (w : World) (p : Path) (sha256 : String) : Prop :=
  ∃ data, w.files p = some data ∧ ext.hexdigest data = sha256

theorem ensures_verifyPublished {r : RipRequest} {destination : Path} {image : ImageResult}
    {destinationHash : String} :
    ensures (allowing m A) (verifyPublished ext r destination image destinationHash)
      (fun hash w' => hash = image.sha256 ∧ HasDigest ext w' destination image.sha256) w := by
  refine ensures_bind ensures_sha256File ?_
  rintro hash w₁ ⟨⟨data, hdata, hhash⟩, rfl⟩
  refine Or.elim (em (hash ≠ image.sha256 ∨ destinationHash ≠ image.sha256))
    (fun h => by rw [if_pos h]; trivial) fun h => ?_
  rw [if_neg h]
  simp only [ne_eq, not_or, not_not] at h
  refine ensures_bind (ensures_frame validatePs2Iso_within (ensures_true allowing_permissive _)) ?_
  rintro _ w₂ ⟨-, hframe⟩
  refine ensures_return ⟨h.1, data, ?_, by rw [← hhash, h.1]⟩
  rw [hframe.files_eq, hdata]

theorem ensures_install {r : RipRequest} {source destination : Path} {image : ImageResult}
    {archive : Option (Path × Path)} :
    ensures (allowing m A) (install ext r source destination image archive) (fun result w' =>
      result.destination = some destination ∧ result.sourceSha256 = image.sha256 ∧
        result.destinationSha256 = some image.sha256 ∧ result.sourceSize = image.size ∧
        HasDigest ext w' destination image.sha256) w := by
  refine ensures_bind (ensures_true allowing_permissive _) fun destinationHash w₁ _ => ?_
  refine ensures_bind ensures_verifyPublished ?_
  rintro hash w₂ ⟨rfl, hdigest⟩
  exact ensures_return ⟨rfl, rfl, rfl, rfl, hdigest⟩

/-- A handler that passes the exception on never returns. -/
theorem ensures_onRaise {p : Program α} {f : Program Unit} {Q : α → World → Prop}
    (h : ensures (allowing m A) p Q w) : ensures (allowing m A) (onRaise p f) Q w :=
  ensures_tryCatch h fun _ _ =>
    ensures_bind (ensures_true allowing_permissive _) fun _ _ _ => trivial

end Ps2Ripper
