import Ps2Ripper.Core.Installation
import Ps2Ripper.Interactive.Aftermath

/-!
# The steps after the rename

A run publishes its image by a rename, and goes on: it removes the temporary name, reads the
published file again, and cleans up.  These last steps go through when nothing fails and no
cancellation is seen, because the file has been checked before under its temporary name.

* `Publishes`: the step that puts an image at the destination;
* `Op.Settled`: operations whose outcome a choice can only spoil, and the programs made of them;
* `VerifiedAt`: what is known of the published file;
* `decidedAfter_ripAndInstall`: after the rename a run returns exactly when all its choices are
  clean.
-/

namespace Ps2Ripper

open Interactive Prog

variable {m : Machine} {A : Op → Choice → Prop} {r : RipRequest} {w : World} {ext : Externals}
  {destination : Path} {α : Type} {p : Program α}

/-- A rename that puts `data` at the destination: it does not fail, and its source is there. -/
def Publishes (destination : Path) (data : Bytes) (s : Step interface Choice World) : Prop :=
  ∃ src, s.op = .replace src destination ∧ s.choice.fault = none ∧ s.before.files src = some data

/-- A rename that puts something at the destination. -/
def Commits (destination : Path) (s : Step interface Choice World) : Prop :=
  ∃ data, Publishes destination data s

/-- One operation puts on record what it publishes. -/
theorem logged_published (m : Machine) (o : Op) (c : Choice) (w : World) :
    Logged World.published (fun s b => Publishes b.1 b.2 s) w [⟨o, c, w⟩] (perform m o c w).2 := by
  by_cases hreplace : ∃ src dst, o = .replace src dst
  · obtain ⟨src, dst, rfl⟩ := hreplace
    have hiff : ∀ b : Path × Bytes, Publishes b.1 b.2 ⟨.replace src dst, c, w⟩ ↔
        b.1 = dst ∧ c.fault = none ∧ w.files src = some b.2 := fun b => by
      constructor
      · rintro ⟨src', hop, h⟩
        cases hop
        exact ⟨rfl, h⟩
      · rintro ⟨hdst, h⟩
        exact ⟨src, by rw [hdst], h⟩
    rcases hfault : c.fault with _ | e
    · rcases hfile : w.files src with _ | data
      · exact logged_silent (by simp [perform, hfault, succeed, hfile])
          fun b hb => by simpa [hfile] using ((hiff b).1 hb).2.2
      · refine logged_single (b := (dst, data)) (by simp [perform, hfault, succeed, hfile])
          fun b => ?_
        rw [hiff]
        constructor
        · rintro ⟨hdst, -, hdata⟩
          exact Prod.ext hdst (Option.some.inj (hdata.symm.trans hfile))
        · rintro rfl
          exact ⟨rfl, hfault, hfile⟩
    · exact logged_silent (by simp [perform, hfault, Op.infallible, fail])
        fun b hb => by simpa [hfault] using ((hiff b).1 hb).2.1
  · refine logged_silent (published_of_not_replace fun src dst ho => hreplace ⟨src, dst, ho⟩) ?_
    rintro b ⟨src, hop, -⟩
    exact hreplace ⟨src, b.1, hop⟩

theorem traced_recorded :
    traced (perform m) p
      (fun _ w' t => Logged World.published (fun s b => Publishes b.1 b.2 s) w t w')
      (fun _ w' t => Logged World.published (fun s b => Publishes b.1 b.2 s) w t w') w :=
  traced_logged (logged_published m)

theorem noncommittal_of_ne {o : Op} (h : ∀ src, o ≠ .replace src destination) :
    Noncommittal (Commits destination) o := by
  rintro c w ⟨data, src, ho, -⟩
  exact h src ho

theorem noncommittal_of_altersOnly {T : Set Path} (hp : p.Uses (Op.AltersOnly T)) :
    p.Uses (Noncommittal (Commits destination)) :=
  hp.mono fun o h => noncommittal_of_ne fun src ho => by
    rw [ho] at h
    exact Bool.noConfusion h.2

theorem noncommittal_of_within {R T : Set Path} (hp : p.Uses (Op.Within R T)) :
    p.Uses (Noncommittal (Commits destination)) :=
  noncommittal_of_altersOnly (altersOnly_of_within hp le_rfl)

/-! ### Operations that a choice can only spoil -/

/-- Under a clean choice the operation does what it does without failures. -/
def Op.Settled (m : Machine) (o : Op) : Prop :=
  ∀ c w, Clean o c → perform m o c w = perform m o {} w

theorem settled_of {o : Op} (h : ∀ c w, succeed m c w o = succeed m {} w o) : o.Settled m :=
  fun c w hc => (perform_of_clean hc).trans (h c w)

/-- What holds without failures holds under clean choices. -/
theorem wp_clean_of_calm {Q : α → World → Prop} {E : PyError → World → Prop}
    (hp : p.Uses (Op.Settled m)) (h : wp (calm m) p Q E w) : wp (allowing m Clean) p Q E w := by
  refine wp_of_uses_le (c := calm m) (fun _ _ _ _ => trivial) ?_ hp h
  rintro w o r w' ho ⟨c, hc, hr⟩
  exact ⟨{}, rfl, (ho c w hc).symm.trans hr⟩

/-- A strict program that returns has been under clean choices only. -/
theorem ensures_of_calm {Q : α → World → Prop} {E : PyError → World → Prop}
    (hstrict : p.Strict Op.Fine) (hp : p.Uses (Op.Settled m)) (h : wp (calm m) p Q E w) :
    ensures (allowing m A) p Q w := by
  induction p generalizing w with
  | pure a => exact h
  | raise e => trivial
  | call o k ih =>
    refine ⟨trivial, ?_⟩
    rintro r w' ⟨c, -, hr⟩
    obtain ⟨hbad, hrest⟩ := hstrict r
    by_cases hfine : o.Fine r
    · have hclean : Clean o c := clean_of_fine (m := m) (w := w) (by rw [hr]; exact hfine)
      exact ih r hrest (hp.2 r) (h.2 r w' ⟨{}, rfl, (hp.1 c w hclean).symm.trans hr⟩)
    · exact wp_mono (wp_of_yields (hbad hfine) (ensures_true allowing_permissive (k r)))
        (fun _ _ h => h.1.elim) fun _ _ _ => trivial

/-- An operation that goes through if its choice is clean. -/
theorem clean_call {o : Op} {Q : o.Answer → World → Prop}
    (h : ∀ c, Clean o c → ∃ a w', succeed m c w o = (.ok a, w') ∧ Q a w') :
    wp (allowing m Clean) (call o) Q (fun _ _ => False) w := by
  refine wp_call_iff.2 fun c hc => ?_
  obtain ⟨a, w', hok, hQ⟩ := h c hc
  rw [perform_of_clean hc, hok]
  refine ⟨fun b w'' hb => ?_, fun e w'' he => ?_⟩
  · cases hb
    exact hQ
  · cases he

theorem clean_checkpointIf {token : Bool} :
    wp (allowing m Clean) (checkpointIf token) (fun _ _ => True) (fun _ _ => False) w := by
  unfold checkpointIf
  split
  · refine wp_seq (clean_call (Q := fun requested _ => requested = false)
      fun c hc => ⟨_, _, rfl, hc.2 rfl⟩) ?_ fun _ _ => id
    rintro _ w₁ rfl
    trivial
  · trivial

/-! ### Reading the published file again -/

theorem strict_hashLoop {path : Path} {token : Bool} {chunkSize : ℕ} {left digest : Bytes} :
    (hashLoop path token chunkSize left digest).Strict Op.Fine := by
  induction left, digest using hashLoop.induct path chunkSize with
  | case1 left digest ih =>
    rw [hashLoop]
    refine .bind (strict_call (by simp)) fun size => ?_
    split
    · exact .bind (.ite strict_checkpoint trivial) fun _ => ih size ‹_›
    · trivial

theorem strict_sha256File {path : Path} {token : Bool} :
    (sha256File ext path token).Strict Op.Fine :=
  .bind (strict_call (by simp)) fun _ => .bind (strict_call (by simp)) fun _ =>
    .bind strict_hashLoop fun _ => trivial

theorem strict_validatePs2Iso {path : Path} {expected : Option String} :
    (validatePs2Iso path expected).Strict Op.Fine := by
  refine .bind (strict_call (by simp)) fun _ => .ite trivial
    (.tryCatch (.bind (strict_call (by simp))
    fun _ => .ite trivial (.bind (strict_call (by simp)) fun _ => .bind (strict_lift _)
      fun cnf => ?_)) fun e => ?_)
  · split
    · exact .ite trivial trivial
    · trivial
  · cases e <;> trivial

theorem settled_validatePs2Iso {path : Path} {expected : Option String} :
    (validatePs2Iso path expected).Uses (Op.Settled m) := by
  refine .bind (uses_of (settled_of fun _ _ => rfl)) fun _ => .ite (fun _ => trivial) fun _ =>
    .tryCatch (.bind (uses_of (settled_of fun _ _ => rfl)) fun _ => .ite (fun _ => trivial) fun _ =>
      .bind (uses_of (settled_of fun _ _ => rfl)) fun _ => .bind (uses_lift _) fun cnf => ?_)
        fun e => ?_
  · split
    · exact .ite (fun _ => trivial) fun _ => trivial
    · trivial
  · cases e <;> trivial

/-- The loop goes on as long as no cancellation is seen. -/
theorem clean_hashLoop {path : Path} {token : Bool} {chunkSize : ℕ} {left digest : Bytes} :
    wp (allowing m Clean) (hashLoop path token chunkSize left digest) (fun _ _ => True)
      (fun _ _ => False) w := by
  induction left, digest using hashLoop.induct path chunkSize generalizing w with
  | case1 left digest ih =>
    rw [hashLoop]
    refine wp_seq (clean_call (Q := fun _ _ => True) fun _ _ => ⟨_, _, rfl, trivial⟩)
      (fun size w₁ _ => ?_) fun _ _ => id
    split
    · exact wp_seq clean_checkpointIf (fun _ _ _ => ih size ‹_›) fun _ _ => id
    · trivial

theorem clean_sha256File {path : Path} {token : Bool} {data : Bytes}
    (h : w.files path = some data) :
    wp (allowing m Clean) (sha256File ext path token)
      (fun hash w' => hash = ext.hexdigest data ∧ w' = w) (fun _ _ => False) w := by
  have hreturns : wp (allowing m Clean) (sha256File ext path token) (fun _ _ => True)
      (fun _ _ => False) w := by
    refine wp_seq (wp_clean_of_calm (uses_of (settled_of fun _ _ => rfl)) (calm_stat h)) ?_
      fun _ _ => id
    rintro _ w₁ ⟨-, rfl⟩
    refine wp_seq (wp_clean_of_calm (uses_of (settled_of fun _ _ => rfl)) (calm_openRead h)) ?_
      fun _ _ => id
    exact fun _ _ _ => wp_seq clean_hashLoop (fun _ _ _ => trivial) fun _ _ => id
  refine wp_mono (wp_and hreturns ensures_sha256File) ?_ fun _ _ h => h.1
  rintro hash w' ⟨-, ⟨data', hdata, rfl⟩, rfl⟩
  rw [h] at hdata
  cases hdata
  exact ⟨rfl, rfl⟩

/-! ### What has been checked before the rename -/

/-- The file holds an image of the game, which has the digest that was returned for the copy. -/
def VerifiedAt (m : Machine) (gameId sha256 : String) (path : Path) (hash : String) (w : World) :
    Prop :=
  ∃ data, w.files path = some data ∧ ChecksOut m.toExternals data gameId ∧
    hash = m.hexdigest data ∧ hash.toLower = sha256.toLower

theorem VerifiedAt.of_files {gameId sha256 hash : String} {path path' : Path} {w w' : World}
    (h : VerifiedAt m gameId sha256 path hash w) (hfile : w'.files path' = w.files path) :
    VerifiedAt m gameId sha256 path' hash w' := by
  obtain ⟨data, hdata, h⟩ := h
  exact ⟨data, hfile.trans hdata, h⟩

theorem ensures_validatePs2Iso {path : Path} {gameId : String} {data : Bytes}
    (h : w.files path = some data) :
    ensures (allowing m A) (validatePs2Iso path (some gameId))
      (fun _ w' => ChecksOut m.toExternals data gameId ∧ Frame ∅ w w') w :=
  ensures_of_calm strict_validatePs2Iso settled_validatePs2Iso (calm_validatePs2Iso h)

/-- A copy that returns has the digest of its bytes, which is the expected one in lower case. -/
theorem ensures_copyAndVerify_digest {source dest : Path} {expected : String}
    {token progress : Bool} :
    ensures (allowing m A) (copyAndVerify ext source dest expected token progress)
      (fun hash w' => ∃ data, w'.files dest = some data ∧ hash = ext.hexdigest data ∧
        hash.toLower = expected.toLower) w := by
  refine ensures_bind ensures_pathExists fun present w₁ _ => ?_
  refine Or.elim (em (present = true)) (fun h => by rw [if_pos h]; trivial) fun h => ?_
  rw [if_neg h]
  refine ensures_bind ensures_mkdir fun _ w₂ _ => ensures_bind ensures_stat fun total w₃ _ => ?_
  refine ensures_tryCatch ?_ fun _ _ => ensures_removeCopy
  refine ensures_bind ensures_openRead fun data w₄ _ => ?_
  refine ensures_bind ensures_openExclusive fun _ w₅ _ => ?_
  refine ensures_bind (ensures_copyLoop (by decide)) fun _ w₆ _ => ?_
  refine ensures_bind ensures_fsync fun _ w₇ _ => ensures_bind ensures_sha256File ?_
  rintro hash w₈ ⟨⟨stored, hstored, rfl⟩, rfl⟩
  split
  · trivial
  · rename_i hsame
    exact ensures_return ⟨stored, hstored, rfl, not_not.1 hsame⟩

theorem ensures_publishBody {source part : Path} {sha256 : String} :
    ensures (allowing m A) (publishBody m.toExternals r source destination part sha256)
      (fun hash w' => VerifiedAt m r.disc.gameId sha256 destination hash w') w := by
  refine ensures_bind ensures_copyAndVerify_digest ?_
  rintro hash w₁ ⟨data, hdata, hhash, hlower⟩
  refine ensures_bind (ensures_validatePs2Iso hdata) ?_
  rintro _ w₂ ⟨hchecks, hframe⟩
  refine ensures_bind ensures_pathExists ?_
  rintro present w₃ ⟨-, rfl⟩
  split
  · trivial
  · refine ensures_bind (ensures_call (Q := fun _ w' => w'.files destination = some data)
      fun c _ a w' hreplace => ?_) fun _ w₄ hfile => ?_
    · have hpart : w₃.files part = some data := by rw [hframe.files_eq, hdata]
      simp only [succeed, hpart] at hreplace
      cases hreplace
      exact World.setFile_files_self ..
    · exact ensures_return ⟨data, hfile, hchecks, hhash, hlower⟩

theorem ensures_publish {source : Path} {image : ImageResult}
    (hhidden : destination.hidden = none) :
    ensures (allowing m A) (publish m.toExternals r source destination image)
      (fun hash w' => VerifiedAt m r.disc.gameId image.sha256 destination hash w') w := by
  unfold publish
  refine Or.elim (em ((!image.complete) = true)) (fun h => by rw [if_pos h]; trivial) fun h => ?_
  rw [if_neg h]
  refine ensures_bind (ensures_true allowing_permissive _) fun _ w₁ _ => ?_
  refine ensures_bind (ensures_true allowing_permissive _) fun _ w₂ _ => ?_
  refine ensures_bind (ensures_true allowing_permissive _) fun uuid w₃ _ => ?_
  refine ensures_tryFinally allowing_permissive ensures_publishBody fun hash w₄ hverified => ?_
  refine ensures_mono (ensures_of_wp (wp_files_of_uses (q := destination) (uses_of ?_)))
    fun _ w₅ hfile => hverified.of_files hfile
  intro hpart
  have hpart : destination = destination.partialOf uuid := hpart
  have hname := congrArg Path.hidden hpart
  simp [hhidden, Path.partialOf] at hname

/-! ### The programs after the rename -/

theorem decided_of_clean (hstrict : p.Strict Op.Fine)
    (hp : wp (allowing m Clean) p (fun _ _ => True) (fun _ _ => False) w) :
    Decided (perform m) Clean p w :=
  decided_of_strict (fun _ _ _ => clean_of_fine) hstrict hp

/-- The published file is read again without surprises. -/
theorem decided_verifyPublished (hlower : ∀ data, (m.hexdigest data).toLower = m.hexdigest data)
    {image : ImageResult} {hash : String} (hsha : image.sha256.toLower = image.sha256)
    (h : VerifiedAt m r.disc.gameId image.sha256 destination hash w) :
    Decided (perform m) Clean (verifyPublished m.toExternals r destination image hash) w := by
  obtain ⟨data, hdata, hchecks, hhash, hsame⟩ := h
  have heq : hash = image.sha256 := by
    rw [hhash, hlower, ← hhash, hsha] at hsame
    exact hsame
  refine decided_of_clean ?_ ?_
  · exact .bind strict_sha256File fun _ => .ite trivial
      (.bind strict_validatePs2Iso fun _ => trivial)
  · refine wp_seq (clean_sha256File hdata) ?_ fun _ _ => id
    rintro _ w₁ ⟨rfl, rfl⟩
    rw [if_neg (by simp [← heq, hhash])]
    exact wp_seq (wp_clean_of_calm settled_validatePs2Iso (calm_validatePs2Iso hdata))
      (fun _ _ _ => trivial) fun _ _ h => absurd hchecks h

theorem settled_retainImage {source : Option Path} :
    (retainImage r source).Uses (Op.Settled m) := by
  unfold retainImage
  split
  · refine .bind (uses_of (settled_of fun _ _ => rfl)) fun _ => .ite (fun _ => ?_) fun _ => trivial
    exact .bind (uses_of (settled_of fun _ _ => rfl)) fun _ =>
      .bind (uses_of (settled_of fun _ _ => rfl))
      fun _ => .ite (fun _ => trivial) fun _ => uses_of (settled_of fun _ _ => rfl)
  · trivial

theorem strict_cleanup {task : Dir} {source : Option Path} :
    (cleanup r task source).Strict Op.Fine := by
  refine .bind ?_ fun _ => strict_call (by simp)
  unfold retainImage
  split
  · exact .bind (strict_call (by simp)) fun _ => .ite (.bind (strict_call (by simp)) fun _ =>
      .bind (strict_call (by simp)) fun _ => .ite trivial (strict_call (by simp))) trivial
  · trivial

theorem decided_cleanup {task : Dir} {source : Option Path} :
    Decided (perform m) Clean (cleanup r task source) w :=
  decided_of_clean strict_cleanup
    (wp_seq (wp_clean_of_calm settled_retainImage succeeds_retainImage)
    (fun _ _ _ => clean_call fun _ _ => ⟨_, _, rfl, trivial⟩) fun _ _ => id)

theorem decided_unlink {path : Path} : Decided (perform m) Clean (call (.unlink path)) w :=
  decided_of_clean (strict_call (by simp)) (clean_call fun _ _ => ⟨_, _, rfl, trivial⟩)

/-! ### The run -/

/-- The digest of an image is one that `hexdigest` has given. -/
def Hexdigested (m : Machine) (image : ImageResult) : Prop :=
    ∃ data, image.sha256 = m.hexdigest data

theorem ensures_hexdigested {p : Program ImageResult} (h : p.Yields (Hexdigested m)) :
    ensures (allowing m A) p (fun image _ => Hexdigested m image) w :=
  wp_mono (wp_of_yields h (ensures_true allowing_permissive p)) (fun _ _ => And.left) fun _ _ => id

theorem hexdigested_ripDvdIso {dest : Path} {total maxRetries : ℕ} {progress continueDamaged : Bool}
    {chunk : ChunkSize} :
    (ripDvdIso m.toExternals dest total progress chunk maxRetries continueDamaged).Yields
      (Hexdigested m) :=
  .bind (yields_true _) fun _ _ => .bind (yields_true _) fun _ _ => .ite trivial <|
    .bind (yields_true _) fun _ _ => .bind (yields_true _) fun _ _ => ⟨_, rfl⟩

theorem hexdigested_convertCdDataTrackToIso {bin iso : Path} {tracks : List CDTrack} {number : ℕ}
    {progress : Bool} :
    (convertCdDataTrackToIso m.toExternals bin iso tracks number progress).Yields
    (Hexdigested m) := by
  unfold convertCdDataTrackToIso
  split
  · exact .ite trivial (.bind (yields_true _) fun _ _ => .bind (yields_true _) fun _ _ =>
      .ite trivial (.bind (yields_true _) fun _ _ => .bind (yields_true _) fun _ _ => ⟨_, rfl⟩))
  · trivial

/-- The rename is the last step of the body, and commits only if it goes through. -/
theorem decidedAfter_publishBody {source part : Path} {sha256 : String} :
    DecidedAfter (perform m) (Commits destination) Clean
      (publishBody ext r source destination part sha256) w := by
  refine .bind (noncommittal_of_within copyAndVerify_within) (ensures_true allowing_permissive _)
    fun hash w₁ _ => .bind (noncommittal_of_within validatePs2Iso_within)
      (ensures_true allowing_permissive _) fun _ w₂ _ =>
        .bind (uses_of (noncommittal_of_ne (by simp)))
        (ensures_true allowing_permissive _) fun present w₃ _ => ?_
  split
  · exact decidedAfter_of_quiet trivial
  · refine .map (decidedAfter_perform fun c e w' he => ?_)
    rintro ⟨data, src, ho, hfault, hdata⟩
    cases ho
    have hok : perform m (.replace part destination) c w₃ =
        succeed m c w₃ (.replace part destination) := by
      unfold perform
      rw [hfault]
    have hpart : w₃.files part = some data := hdata
    rw [hok] at he
    simp only [succeed, hpart] at he
    cases he

theorem decidedAfter_publish {source : Path} {image : ImageResult} :
    DecidedAfter (perform m) (Commits destination) Clean
      (publish ext r source destination image) w := by
  unfold publish
  split
  · exact decidedAfter_of_quiet trivial
  · exact .bind (noncommittal_of_within validatePs2Iso_within) (ensures_true allowing_permissive _)
      fun _ w₁ _ => .bind (noncommittal_of_within (R := ∅) (T := ∅) verifyFreeSpace_within)
        (ensures_true allowing_permissive _) fun _ w₂ _ => .bind
          (uses_of (noncommittal_of_ne (by simp))) (ensures_true allowing_permissive _)
            fun uuid w₃ _ => decidedAfter_publishBody.tryFinally
              (uses_of (noncommittal_of_ne (by simp))) fun _ => decided_unlink

section Run

variable (hlower : ∀ data, (m.hexdigest data).toLower = m.hexdigest data)
include hlower

theorem decidedAfter_install {source : Path} {image : ImageResult} {archive : Option (Path × Path)}
    (hhidden : destination.hidden = none) (hdigest : Hexdigested m image) :
    DecidedAfter (perform m) (Commits destination) Clean
      (install m.toExternals r source destination image archive) w := by
  refine decidedAfter_publish.then (ensures_publish hhidden) (fun hash => ?_) fun hash w₁ h => ?_
  · exact .bind (.bind (noncommittal_of_within sha256File_within) fun _ => .ite (fun _ => trivial)
      fun _ => .bind (noncommittal_of_within validatePs2Iso_within) fun _ => trivial)
        fun _ => trivial
  · obtain ⟨data, hdata⟩ := hdigest
    exact (decided_verifyPublished hlower (by rw [hdata, hlower]) h).map

theorem decidedAfter_ripInTask {name : String} {task : Dir} (htask : task.isLocal = true)
    (hhidden : destination.hidden = none) :
    DecidedAfter (perform m) (Commits destination) Clean
      (ripInTask m.toExternals r name destination task) w := by
  have hcleanup : ∀ source : Option Path, (∀ p ∈ source, p.dir.isLocal = true) →
      (cleanup r task source).Uses (Noncommittal (Commits destination)) := fun source hsource =>
    noncommittal_of_altersOnly (cleanup_altersOnly htask hsource)
  have hraise : ∀ {β : Type} {p : Program β}, p.Uses (Noncommittal (Commits destination)) →
      (onRaise p (cleanup r task none)).Uses (Noncommittal (Commits destination)) := fun hp =>
    hp.tryCatch fun _ => (hcleanup none (by simp)).bind fun _ => trivial
  have hlocal : ∀ {p : Program InstallResult} {source : Option Path} {w : World},
      (∀ p ∈ source, p.dir.isLocal = true) → DecidedAfter (perform m)
        (Commits destination) Clean p w →
      DecidedAfter (perform m) (Commits destination) Clean
        (p.tryFinally (cleanup r task source)) w :=
    fun hsource hp => hp.tryFinally (hcleanup _ hsource) fun _ => decided_cleanup
  refine .bind (hraise (noncommittal_of_within (R := ∅) (T := ∅) reinspect_within))
    (ensures_true allowing_permissive _) fun current w₁ _ => ?_
  have hdvd : DecidedAfter (perform m) (Commits destination) Clean
      ((installDvd m.toExternals r { dir := task, name } destination).tryFinally
        (cleanup r task (some { dir := task, name }))) w₁ :=
    hlocal (by simpa using htask) (.bind (noncommittal_of_within ripDvdIso_within)
      (ensures_hexdigested hexdigested_ripDvdIso) fun image w₂ hdigest =>
        decidedAfter_install hlower hhidden hdigest)
  split
  · exact hdvd
  · exact hdvd
  · have hmoves : ∀ {bin cue : Path},
        (moveToArchive r (removeIsoSuffix name) bin cue).Uses
          (Noncommittal (Commits destination)) :=
      noncommittal_of_altersOnly (moveToArchive_altersOnly (T := Set.univ) trivial trivial
        fun _ => trivial)
    refine .bind (hraise (.bind (noncommittal_of_within ripCdBinCue_within) fun _ =>
      .bind (noncommittal_of_within (R := ∅) (T := ∅) findPs2CdTrack_within) fun _ => trivial))
      (ensures_true allowing_permissive _) ?_
    rintro ⟨rawResult, number⟩ w₂ -
    dsimp only
    split
    · exact hlocal (by simp) (decidedAfter_of_quiet (hmoves.bind fun _ => trivial))
    · refine hlocal (by simpa using htask) (.bind
        (noncommittal_of_within convertCdDataTrackToIso_within)
        (ensures_hexdigested hexdigested_convertCdDataTrackToIso) fun image w₃ hdigest => .bind
          (.ite (fun _ => hmoves.bind fun _ => trivial) fun _ => trivial)
          (ensures_true allowing_permissive _) fun archive w₄ _ =>
            decidedAfter_install hlower hhidden hdigest)
  · exact decidedAfter_of_quiet (hraise trivial)

/-- After the rename a run returns if all its choices are clean, and raises if one of them is
not. -/
theorem decidedAfter_ripAndInstall
    (hdest : destinationForGame r.oplRoot r.disc.mediaType r.disc.gameId r.title =
      .ok destination) :
    DecidedAfter (perform m) (Commits destination) Clean (ripAndInstall m.toExternals r) w := by
  obtain ⟨-, hhidden, -⟩ := destinationForGame_eq_ok hdest
  refine .bind (uses_lift _) (ensures_true allowing_permissive _) fun name w₁ _ => ?_
  refine .bind (Q := fun p _ => p = destination) (uses_lift _) (ensures_lift fun p hp => ?_)
    fun p w₂ hp => ?_
  · rw [hdest] at hp
    exact (Except.ok.inj hp).symm
  subst hp
  refine .bind (uses_of (noncommittal_of_ne (by simp))) (ensures_true allowing_permissive _)
    fun present w₃ _ => ?_
  split
  · exact decidedAfter_of_quiet trivial
  · exact .bind (uses_of (noncommittal_of_ne (by simp))) (ensures_true allowing_permissive _)
      fun _ w₄ _ => .bind (uses_of (noncommittal_of_ne (by simp)))
        (ensures_true allowing_permissive _)
        fun id w₅ _ => decidedAfter_ripInTask hlower rfl hhidden

end Run

end Ps2Ripper
