import Ps2Ripper.Core.WorkflowSpec

/-!
# The discipline of a run

A run of `rip_and_install` puts a file in place only where it has just found none.  This is a
property of the text of the program alone, and it is stated here for an environment about which
nothing is known: other programs may change the files between any two steps.

* `Ledger`: what a run has learnt from its own operations;
* `discipline D`: the contract of a run that respects the files `D`;
* `wp_ripAndInstall_discipline`: every run keeps to it, and a result names files that the run has
  put in place itself;
* `Ledger.Agrees`: what the ledger says about the files, and how a step of the run preserves it.
-/

namespace Ps2Ripper

open Interactive Prog

/-! ### The ledger -/

/-- The numbers in a path are below `k`. -/
structure Path.NamedBelow (p : Path) (k : ℕ) : Prop where
  hidden : ∀ n, p.hidden = some n → n < k
  task : ∀ base id, p.dir = .task base id → id < k

theorem Path.NamedBelow.mono {p : Path} {k k' : ℕ} (h : p.NamedBelow k) (hk : k ≤ k') :
    p.NamedBelow k' :=
  ⟨fun n hn => (h.hidden n hn).trans_le hk, fun base id hd => (h.task base id hd).trans_le hk⟩

/-- The file that an operation puts in place; only an OPL root gets files by `os.replace`. -/
@[simp] def Op.places : Op → Path → Prop
  | .move _ dst, q => q = dst
  | .replace _ dst, q => q = dst ∧ ∃ root folder, dst.dir = .opl root folder
  | _, _ => False

/-- The files that can come into being by an operation. -/
@[simp] def Op.fills : Op → Path → Prop
  | .openExclusive p, q | .write p _, q | .writeText p _, q => q = p
  | .replace _ dst, q | .move _ dst, q => q = dst
  | _, _ => False

theorem Op.alters_of_fills {o : Op} {q : Path} (h : o.fills q) : o.alters q := by
  cases o <;> simp_all

/-- What a run has learnt: the numbers below `named` may have been drawn, the files of `checked`
were absent when they were last looked up, and the files of `placed` were put in place by the
run. -/
structure Ledger where
  named : ℕ
  checked : Set Path
  placed : List (Path × Bytes)

/-- A ledger only grows, except for the paths that are looked up again or filled. -/
structure Ledger.Follows (g' g : Ledger) (o : Op) : Prop where
  named : g.named ≤ g'.named
  placed : g.placed <+: g'.placed
  checked : ∀ q ∈ g.checked, o ≠ .pathExists q → ¬ o.places q → q ∈ g'.checked

/-- What an answer says. -/
def Ledger.Learns (D : Set Path) (g g' : Ledger) : (o : Op) → Except PyError o.Answer → Prop
  | .mkdtemp _, .ok n => n < g'.named
  | .uuid4, .ok n => n < g'.named
  | .pathExists p, .ok present => present = false → p ∈ g'.checked
  | .replace _ dst, .ok _ => ∃ data, (dst, data) ∈ g'.placed
  | .move _ dst, .ok _ => ∃ data, (dst, data) ∈ g'.placed
  | .openRead p, .ok data => p ∈ D → ∀ d, (p, d) ∈ g.placed → data = d
  | _, _ => True

/-- A run may fill files with numbers that have been drawn, and it may alter a file of `D` only by
putting a file in place where none was found. -/
def discipline (D : Set Path) : Contract interface PyError Ledger where
  may g o := (∀ q, o.fills q → q.NamedBelow g.named) ∧
    ∀ q ∈ D, o.alters q → o.places q ∧ q ∈ g.checked
  answers g o r g' := g'.Follows g o ∧ g.Learns D g' o r

/-- The ledger after some operations. -/
structure Ledger.Extends (g' g : Ledger) : Prop where
  named : g.named ≤ g'.named
  placed : g.placed <+: g'.placed

namespace Ledger.Extends

variable {g g' g'' : Ledger}

theorem refl : g.Extends g := ⟨le_rfl, List.prefix_rfl⟩

theorem trans (h : g'.Extends g) (h' : g''.Extends g') : g''.Extends g :=
  ⟨h.named.trans h'.named, h.placed.trans h'.placed⟩

theorem mem (h : g'.Extends g) {x : Path × Bytes} (hx : x ∈ g.placed) : x ∈ g'.placed :=
  h.placed.subset hx

end Ledger.Extends

theorem Ledger.Follows.extends {g g' : Ledger} {o : Op} (h : g'.Follows g o) : g'.Extends g :=
  ⟨h.named, h.placed⟩

variable {D : Set Path} {g : Ledger} {r : RipRequest} {ext : Externals} {α : Type}

/-! ### Programs that put nothing in place -/

/-- An operation that fills only named files and leaves `D` alone. -/
def Op.Ordinary (D : Set Path) (k : ℕ) (o : Op) : Prop :=
  (∀ q, o.fills q → q.NamedBelow k) ∧ ∀ q, o.alters q → q ∉ D

theorem wp_of_ordinary {p : Program α} (hp : p.Uses (Op.Ordinary D g.named)) :
    wp (discipline D) p (fun _ (g' : Ledger) => g'.Extends g)
      (fun _ (g' : Ledger) => g'.Extends g) g := by
  refine wp_of_uses (R := fun g (g' : Ledger) => g'.Extends g) (fun _ => .refl) .trans ?_ ?_ hp
  · intro g' o hg' ho
    exact ⟨fun q hq => (ho.1 q hq).mono hg'.named, fun q hD hq => absurd hD (ho.2 q hq)⟩
  · rintro g₁ o r g₂ - ⟨hfollows, -⟩
    exact hfollows.extends

/-- A program that alters only named files outside `D`. -/
theorem wp_ordinary {T : Set Path} {p : Program α} (hp : p.Uses (Op.AltersOnly T))
    (hT : ∀ q ∈ T, q.NamedBelow g.named ∧ q ∉ D) :
    wp (discipline D) p (fun _ (g' : Ledger) => g'.Extends g)
      (fun _ (g' : Ledger) => g'.Extends g) g :=
  wp_of_ordinary (hp.mono fun _ ho =>
    ⟨fun q hq => (hT q (ho.1 q (Op.alters_of_fills hq))).1, fun q hq => (hT q (ho.1 q hq)).2⟩)

/-- A program that alters nothing. -/
theorem wp_looking {R : Set Path} {p : Program α} (hp : p.Uses (Op.Within R ∅)) :
    wp (discipline D) p (fun _ (g' : Ledger) => g'.Extends g)
      (fun _ (g' : Ledger) => g'.Extends g) g :=
  wp_ordinary (altersOnly_of_within hp le_rfl) (by simp)

/-- One operation. -/
theorem wp_call_discipline {o : Op} {Q : o.Answer → Ledger → Prop}
    {E : PyError → Ledger → Prop} (hmay : (discipline D).may g o)
    (hQ : ∀ a g', g'.Follows g o → g.Learns D g' o (.ok a) → Q a g')
    (hE : ∀ e g', g'.Follows g o → E e g') : wp (discipline D) (call o) Q E g :=
  wp_perform.2 ⟨hmay, fun a g' ⟨hf, hl⟩ => hQ a g' hf hl, fun e g' ⟨hf, _⟩ => hE e g' hf⟩

theorem wp_pathExists_discipline {p : Path} :
    wp (discipline D) (call (.pathExists p))
      (fun present g' => (present = false → p ∈ g'.checked) ∧
        (∀ q ∈ g.checked, q ≠ p → q ∈ g'.checked) ∧ g'.Extends g)
      (fun _ (g' : Ledger) => g'.Extends g) g := by
  refine wp_call_discipline ⟨by simp, by simp⟩ (fun present g' hf hl => ?_)
    fun _ _ hf => hf.extends
  exact ⟨hl, fun q hq hne => hf.checked q hq (fun h => hne (by cases h; rfl)) (by simp), hf.extends⟩

/-- A move onto a path where nothing was found. -/
theorem wp_move_discipline {src dst : Path} (hsrc : src ∉ D)
    (hdst : dst.NamedBelow g.named) (hchecked : dst ∈ D → dst ∈ g.checked) :
    wp (discipline D) (call (.move src dst))
      (fun _ g' => (∃ data, (dst, data) ∈ g'.placed) ∧
        (∀ q ∈ g.checked, q ≠ dst → q ∈ g'.checked) ∧ g'.Extends g)
      (fun _ (g' : Ledger) => g'.Extends g) g := by
  refine wp_call_discipline ⟨?_, ?_⟩ (fun _ g' hf hl => ?_) fun _ _ hf => hf.extends
  · rintro q rfl
    exact hdst
  · rintro q hD (rfl | rfl)
    · exact absurd hD hsrc
    · exact ⟨rfl, hchecked hD⟩
  · exact ⟨hl, fun q hq hne => hf.checked q hq (by simp) (by simpa using hne), hf.extends⟩

/-! ### The steps of the workflow -/

/-- The files that are guarded: no file that belongs to one run alone, and none of the OPL root if
the run may replace what is there. -/
structure Guarded (r : RipRequest) (D : Set Path) : Prop where
  visible : ∀ q ∈ D, q.hidden = none
  shared : ∀ q ∈ D, ∀ base id, q.dir ≠ .task base id
  retained : ∀ q ∈ D, ∀ base, q.dir ≠ .retainedImages base
  replace : r.replaceExisting = true → ∀ q ∈ D, ∀ root folder, q.dir ≠ .opl root folder

/-- A visible file of a task directory, or the place of a retained image. -/
def ownFiles (r : RipRequest) (k : ℕ) : Set Path :=
  { p | (p.dir = .task r.settings.temporaryDirectory k ∨
    p.dir = .retainedImages r.settings.temporaryDirectory) ∧ p.hidden = none }

theorem Guarded.ownFiles {k : ℕ} (h : Guarded r D) (hk : k < g.named) :
    ∀ q ∈ ownFiles r k, q.NamedBelow g.named ∧ q ∉ D := by
  rintro q ⟨hdir, hhidden⟩
  refine ⟨⟨fun n hn => by simp [hhidden] at hn, fun base id hd => ?_⟩, fun hD => ?_⟩
  · obtain hdir | hdir := hdir
    · rw [hdir] at hd
      cases hd
      exact hk
    · simp [hdir] at hd
  · obtain hdir | hdir := hdir
    · exact h.shared q hD _ _ hdir
    · exact h.retained q hD _ hdir

/-- The files that several runs can put in place: those of the OPL roots and of the archives. -/
def sharedFiles : Set Path :=
  { p | p.hidden = none ∧
    ((∃ root folder, p.dir = .opl root folder) ∨ ∃ base stem, p.dir = .archives base stem) }

/-- The run has put a shared file in place. -/
def Ledger.Owns (g : Ledger) (p : Path) : Prop :=
  p ∈ sharedFiles ∧ ∃ data, (p, data) ∈ g.placed

theorem Ledger.Owns.of_extends {g' : Ledger} {p : Path} (h : g.Owns p) (hg : g'.Extends g) :
    g'.Owns p :=
  ⟨h.1, h.2.imp fun _ hx => hg.mem hx⟩

theorem wp_moveToArchive_discipline (h : Guarded r D) {k : ℕ} (hk : k < g.named) {stem : String}
    {bin cue : Path} (hbin : bin ∈ ownFiles r k) (hcue : cue ∈ ownFiles r k)
    (hne : bin.name ≠ cue.name) :
    wp (discipline D) (moveToArchive r stem bin cue)
      (fun archive g' => g'.Owns archive.1 ∧ g'.Owns archive.2 ∧ g'.Extends g)
      (fun _ (g' : Ledger) => g'.Extends g) g := by
  have hnamed : ∀ (name : String) (g' : Ledger), (r.archivePath stem name).NamedBelow g'.named :=
    fun name g' => ⟨nofun, nofun⟩
  have hpaths : r.archivePath stem bin.name ≠ r.archivePath stem cue.name := by
    simpa [RipRequest.archivePath] using hne
  refine wp_seq (wp_looking (R := ∅) (uses_of (by simp))) (fun _ g₁ h₁ => ?_) fun _ _ h => h
  have hboth : wp (discipline D)
      (eitherExists (r.archivePath stem bin.name) (r.archivePath stem cue.name))
      (fun present g' => g'.Extends g ∧ (present = false →
        r.archivePath stem bin.name ∈ g'.checked ∧ r.archivePath stem cue.name ∈ g'.checked))
      (fun _ (g' : Ledger) => g'.Extends g) g₁ := by
    refine wp_seq wp_pathExists_discipline (fun present g₂ h₂ => ?_) fun _ _ h => h₁.trans h
    split
    · exact ⟨h₁.trans h₂.2.2, by simp_all⟩
    · refine wp_mono wp_pathExists_discipline (fun present' g₃ h₃ => ?_)
        fun _ _ h => (h₁.trans h₂.2.2).trans h
      exact ⟨(h₁.trans h₂.2.2).trans h₃.2.2, fun habsent =>
        ⟨h₃.2.1 _ (h₂.1 (by simp_all)) hpaths, h₃.1 habsent⟩⟩
  refine wp_seq hboth (fun present g₂ h₂ => ?_) fun _ _ h => h
  · split
    · exact wp_mono (wp_of_yields (raiseExisting_yields (P := fun _ => False)) (wp_looking
        (R := {r.archivePath stem bin.name}) (raiseExisting_within rfl)))
        (fun _ _ h => h.1.elim) fun _ _ h => h₂.1.trans h
    · have hown := h.ownFiles (hk.trans_le h₂.1.named)
      obtain ⟨hbin₂, hcue₂⟩ := h₂.2 (by simp_all)
      refine wp_seq (wp_move_discipline (hown _ hbin).2 (hnamed _ _) fun _ => hbin₂) ?_
        fun _ _ h => h₂.1.trans h
      rintro _ g₃ ⟨hplaced, hkeep, h₃⟩
      have hown₃ := h.ownFiles (hk.trans_le (h₂.1.trans h₃).named)
      refine wp_seq (wp_move_discipline (hown₃ _ hcue).2 (hnamed _ _)
        fun _ => hkeep _ hcue₂ hpaths.symm) ?_ fun _ _ h => (h₂.1.trans h₃).trans h
      rintro _ g₄ ⟨hplaced', -, h₄⟩
      have hshared : ∀ name, r.archivePath stem name ∈ sharedFiles :=
        fun name => ⟨rfl, .inr ⟨_, _, rfl⟩⟩
      exact ⟨⟨hshared _, hplaced.imp fun _ h => h₄.mem h⟩, ⟨hshared _, hplaced'⟩,
        (h₂.1.trans h₃).trans h₄⟩

/-- The image is published only where nothing was found, unless it may replace what is there. -/
theorem wp_publishBody_discipline (h : Guarded r D) {source destination part : Path}
    {sha256 : String} {root folder : String} (hdir : destination.dir = .opl root folder)
    (hhidden : destination.hidden = none)
    (hpart : part.NamedBelow g.named ∧ part ∉ D) :
    wp (discipline D) (publishBody ext r source destination part sha256)
      (fun _ g' => (∃ data, (destination, data) ∈ g'.placed) ∧ g'.Extends g)
      (fun _ (g' : Ledger) => g'.Extends g) g := by
  refine wp_seq (wp_ordinary (altersOnly_of_within copyAndVerify_within le_rfl)
    (by simpa using hpart))
    (fun hash g₁ h₁ => ?_) fun _ _ h => h
  refine wp_seq (wp_looking validatePs2Iso_within) (fun _ g₂ h₂ => ?_) fun _ _ h => h₁.trans h
  have h₂ := h₁.trans h₂
  refine wp_seq wp_pathExists_discipline (fun present g₃ h₃ => ?_) fun _ _ h => h₂.trans h
  have h₃' := h₂.trans h₃.2.2
  split
  · exact h₃'
  · rename_i hnot
    refine wp_bind.2 (wp_call_discipline ⟨?_, ?_⟩ (fun _ g' hf hl => ⟨hl, h₃'.trans hf.extends⟩)
      fun _ _ hf => h₃'.trans hf.extends)
    · rintro q rfl
      exact ⟨fun n hn => by simp [hhidden] at hn, fun _ _ hd => by simp [hdir] at hd⟩
    · rintro q hD (rfl | rfl)
      · exact absurd hD hpart.2
      · refine ⟨⟨rfl, root, folder, hdir⟩, h₃.1 ?_⟩
        have hreplace : r.replaceExisting = false :=
          Bool.eq_false_iff.2 fun hreplace => h.replace hreplace q hD root folder hdir
        simpa [hreplace] using hnot

theorem wp_publish_discipline (h : Guarded r D) {source destination : Path} {image : ImageResult}
    {root folder : String} (hdir : destination.dir = .opl root folder)
    (hhidden : destination.hidden = none) :
    wp (discipline D) (publish ext r source destination image)
      (fun _ g' => (∃ data, (destination, data) ∈ g'.placed) ∧ g'.Extends g)
      (fun _ (g' : Ledger) => g'.Extends g) g := by
  unfold publish
  split
  · exact .refl
  refine wp_seq (wp_looking validatePs2Iso_within) (fun _ g₁ h₁ => ?_) fun _ _ h => h
  refine wp_seq (wp_looking (R := ∅) verifyFreeSpace_within) (fun _ g₂ h₂ => ?_)
    fun _ _ h => h₁.trans h
  have h₂ := h₁.trans h₂
  refine wp_bind.2 (wp_call_discipline ⟨by simp, by simp⟩ (fun uuid g₃ hf hl => ?_)
    fun _ _ hf => h₂.trans hf.extends)
  have h₃ := h₂.trans hf.extends
  have hpart : (destination.partialOf uuid).NamedBelow g₃.named ∧
      destination.partialOf uuid ∉ D := by
    refine ⟨⟨fun n hn => ?_, fun _ _ hd => ?_⟩, fun hD => ?_⟩
    · cases hn
      exact hl
    · simp [Path.partialOf, hdir] at hd
    · simpa [Path.partialOf] using h.visible _ hD
  have hunlink : ∀ {g₄ : Ledger}, g₄.Extends g₃ →
      wp (discipline D) (call (.unlink (destination.partialOf uuid)))
        (fun _ (g' : Ledger) => g'.Extends g₄) (fun _ (g' : Ledger) => g'.Extends g₄) g₄ :=
    fun h₄ => wp_ordinary (T := {destination.partialOf uuid}) (uses_of (by simp)) (by
      rintro q rfl
      exact ⟨hpart.1.mono h₄.named, hpart.2⟩)
  refine wp_tryFinally.2 (wp_mono (wp_publishBody_discipline h hdir hhidden hpart)
    (fun _ g₄ h₄ => ?_) fun _ g₄ h₄ => ?_)
  · exact wp_mono (hunlink h₄.2) (fun _ _ h₅ => ⟨h₄.1.imp fun _ h => h₅.mem h,
      h₃.trans (h₄.2.trans h₅)⟩) fun _ _ h₅ => h₃.trans (h₄.2.trans h₅)
  · exact wp_mono (hunlink h₄) (fun _ _ h₅ => h₃.trans (h₄.trans h₅))
      fun _ _ h₅ => h₃.trans (h₄.trans h₅)

/-- The published file is read again, and it is still the one that was put in place. -/
theorem wp_verifyPublished_discipline {destination : Path} {image : ImageResult} {hash : String}
    {data : Bytes} (hplaced : (destination, data) ∈ g.placed) :
    wp (discipline D) (verifyPublished ext r destination image hash)
      (fun finalHash g' => (destination ∈ D → finalHash = ext.hexdigest data) ∧ g'.Extends g)
      (fun _ (g' : Ledger) => g'.Extends g) g := by
  have hsha : wp (discipline D) (sha256File ext destination true)
      (fun finalHash g' => (destination ∈ D → finalHash = ext.hexdigest data) ∧ g'.Extends g)
      (fun _ (g' : Ledger) => g'.Extends g) g := by
    refine wp_seq (wp_looking (R := {destination}) (uses_of (by simp))) (fun _ g₁ h₁ => ?_)
      fun _ _ h => h
    refine wp_bind.2 (wp_call_discipline ⟨by simp, by simp⟩ (fun source g₂ hf hl => ?_)
      fun _ _ hf => h₁.trans hf.extends)
    have h₂ := h₁.trans hf.extends
    refine wp_seq (wp_of_yields (hashLoop_yields (by decide)) (wp_looking (R := {destination})
      (hashLoop_within rfl))) (fun digest g₃ h₃ => ?_) fun _ _ h => h₂.trans h
    refine ⟨fun hD => ?_, h₂.trans h₃.2⟩
    rw [h₃.1, List.nil_append, hl hD data (h₁.mem hplaced)]
  refine wp_seq hsha (fun finalHash g₁ h₁ => ?_) fun _ _ h => h
  split
  · exact h₁.2
  · exact wp_seq (wp_looking validatePs2Iso_within) (fun _ g₂ h₂ => ⟨h₁.1, h₁.2.trans h₂⟩)
      fun _ _ h => h₁.2.trans h

/-- A result that names a file tells the truth about it. -/
def Reports (ext : Externals) (D : Set Path) (result : InstallResult) (g : Ledger) : Prop :=
  (∀ p, result.destination = some p → p ∈ sharedFiles ∧ ∃ data, (p, data) ∈ g.placed ∧
    (p ∈ D → result.destinationSha256 = some (ext.hexdigest data))) ∧
  (∀ p, result.archiveBin = some p → g.Owns p) ∧ ∀ p, result.archiveCue = some p → g.Owns p

theorem Reports.of_extends {g' : Ledger} {result : InstallResult} (h : Reports ext D result g)
    (hg : g'.Extends g) : Reports ext D result g' :=
  ⟨fun p hp => ⟨(h.1 p hp).1, (h.1 p hp).2.imp fun _ hx => ⟨hg.mem hx.1, hx.2⟩⟩,
    fun p hp => (h.2.1 p hp).of_extends hg, fun p hp => (h.2.2 p hp).of_extends hg⟩

theorem wp_install_discipline (h : Guarded r D) {source destination : Path} {image : ImageResult}
    {archive : Option (Path × Path)} {root folder : String}
    (hdir : destination.dir = .opl root folder) (hhidden : destination.hidden = none)
    (harchive : ∀ a ∈ archive, g.Owns a.1 ∧ g.Owns a.2) :
    wp (discipline D) (install ext r source destination image archive)
      (fun result g' => Reports ext D result g' ∧ g'.Extends g)
      (fun _ (g' : Ledger) => g'.Extends g) g := by
  refine wp_seq (wp_publish_discipline h hdir hhidden) ?_ fun _ _ h => h
  rintro hash g₁ ⟨⟨data, hdata⟩, h₁⟩
  refine wp_seq (wp_verifyPublished_discipline hdata) ?_ fun _ _ h => h₁.trans h
  rintro finalHash g₂ ⟨hfinal, h₂⟩
  have harchive₂ : ∀ a ∈ archive, g₂.Owns a.1 ∧ g₂.Owns a.2 := fun a ha =>
    ⟨(harchive a ha).1.of_extends (h₁.trans h₂), (harchive a ha).2.of_extends (h₁.trans h₂)⟩
  refine ⟨⟨?_, ?_, ?_⟩, h₁.trans h₂⟩
  · rintro p hp
    cases hp
    exact ⟨⟨hhidden, .inl ⟨root, folder, hdir⟩⟩, data, h₂.mem hdata, fun hD => by rw [hfinal hD]⟩
  · rintro p hp
    obtain ⟨a, ha, rfl⟩ := Option.map_eq_some_iff.1 hp
    exact (harchive₂ a ha).1
  · rintro p hp
    obtain ⟨a, ha, rfl⟩ := Option.map_eq_some_iff.1 hp
    exact (harchive₂ a ha).2

theorem cleanup_ordinary (h : Guarded r D) {base : String} {id k : ℕ} {source : Option Path}
    (hsource : ∀ p ∈ source, p.dir = .task base id) :
    (cleanup r (.task base id) source).Uses (Op.Ordinary D k) := by
  refine .bind ?_ fun _ => uses_of ⟨by simp, fun q hq hD => h.shared q hD _ _ hq⟩
  unfold retainImage
  split
  · have hs := hsource _ rfl
    refine .bind (uses_of (by simp [Op.Ordinary])) fun _ => .ite (fun _ =>
      .bind (uses_of (by simp [Op.Ordinary])) fun _ => .bind (uses_of (by simp [Op.Ordinary]))
        fun _ => .ite (fun _ => trivial) fun _ => uses_of ⟨?_, ?_⟩) fun _ => trivial
    · rintro q rfl
      exact ⟨nofun, nofun⟩
    · rintro q (rfl | rfl) hD
      · exact h.shared _ hD _ _ hs
      · exact h.retained _ hD _ rfl
  · trivial

/-- The `finally` clause keeps what was guaranteed before it. -/
theorem wp_finally_discipline {p : Program α} {f : Program Unit} {Q : α → Ledger → Prop}
    (hf : ∀ k, f.Uses (Op.Ordinary D k)) (hQ : ∀ a g g', Q a g → Ledger.Extends g' g → Q a g')
    (hp : wp (discipline D) p Q (fun _ _ => True) g) :
    wp (discipline D) (p.tryFinally f) Q (fun _ _ => True) g := by
  refine wp_tryFinally.2 (wp_mono hp (fun a g' h => ?_) fun _ g' _ => ?_)
  · exact wp_mono (wp_of_ordinary (hf _)) (fun _ _ h' => hQ a _ _ h h') fun _ _ _ => trivial
  · exact wp_mono (wp_of_ordinary (hf _)) (fun _ _ _ => trivial) fun _ _ _ => trivial

theorem wp_onRaise_discipline {p : Program α} {f : Program Unit} {Q : α → Ledger → Prop}
    (hf : ∀ k, f.Uses (Op.Ordinary D k)) (hp : wp (discipline D) p Q (fun _ _ => True) g) :
    wp (discipline D) (onRaise p f) Q (fun _ _ => True) g := by
  refine wp_tryCatch.2 (wp_mono hp (fun _ _ => id) fun e g' _ => ?_)
  exact wp_bind.2 (wp_mono (wp_of_ordinary (hf _)) (fun _ _ _ => trivial) fun _ _ _ => trivial)

/-- Sequencing after a program that extends the ledger. -/
theorem wp_extends_bind {β : Type} {p : Program α} {f : α → Program β} {Q : β → Ledger → Prop}
    (hp : wp (discipline D) p (fun _ (g' : Ledger) => g'.Extends g) (fun _ _ => True) g)
    (hf : ∀ a g', Ledger.Extends g' g → wp (discipline D) (f a) Q (fun _ _ => True) g') :
    wp (discipline D) (p >>= f) Q (fun _ _ => True) g :=
  wp_seq hp hf fun _ _ => id

theorem wp_ripInTask_discipline (h : Guarded r D) {k : ℕ} (hk : k < g.named) {name : String}
    {destination : Path} {root folder : String} (hdir : destination.dir = .opl root folder)
    (hhidden : destination.hidden = none) :
    wp (discipline D) (ripInTask ext r name destination (.task r.settings.temporaryDirectory k))
      (fun result g' => Reports ext D result g') (fun _ _ => True) g := by
  have hclean : ∀ (s : Option Path) (k' : ℕ),
      (∀ p ∈ s, p.dir = .task r.settings.temporaryDirectory k) →
      (cleanup r (.task r.settings.temporaryDirectory k) s).Uses (Op.Ordinary D k') :=
    fun s k' hs => cleanup_ordinary h hs
  have hown : ∀ {g' : Ledger}, g'.Extends g → ∀ file : String,
      ({ dir := .task r.settings.temporaryDirectory k, name := file } : Path).NamedBelow g'.named ∧
        ({ dir := .task r.settings.temporaryDirectory k, name := file } : Path) ∉ D :=
    fun hg' file => h.ownFiles (hk.trans_le hg'.named) _ ⟨.inl rfl, rfl⟩
  have hreports : ∀ (result : InstallResult) (g g' : Ledger), Reports ext D result g →
      Ledger.Extends g' g → Reports ext D result g' := fun _ _ _ hr hg => hr.of_extends hg
  have ordinary : ∀ {β : Type} {R T : Set Path} {p : Program β} {g : Ledger},
      p.Uses (Op.Within R T) → (∀ q ∈ T, q.NamedBelow g.named ∧ q ∉ D) →
      wp (discipline D) p (fun _ (g' : Ledger) => g'.Extends g) (fun _ _ => True) g :=
    fun hp hT => wp_mono (wp_ordinary (altersOnly_of_within hp le_rfl) hT) (fun _ _ => id)
      fun _ _ _ => trivial
  -- Only the move to the archive and the publication are not ordinary; the cleanup comes behind
  -- both.
  refine wp_extends_bind (wp_onRaise_discipline (hclean none · (by simp))
    (ordinary (R := ∅) (T := ∅) reinspect_within (by simp))) fun current g₁ h₁ => ?_
  have hdvd : wp (discipline D) ((installDvd ext r
      { dir := .task r.settings.temporaryDirectory k, name } destination).tryFinally
        (cleanup r (.task r.settings.temporaryDirectory k)
          (some { dir := .task r.settings.temporaryDirectory k, name })))
      (fun result g' => Reports ext D result g') (fun _ _ => True) g₁ := by
    refine wp_finally_discipline (hclean _ · (by simp)) hreports ?_
    refine wp_extends_bind (ordinary ripDvdIso_within (by simpa using hown h₁ name))
      fun image g₂ h₂ => ?_
    exact wp_mono (wp_install_discipline h hdir hhidden (by simp)) (fun _ _ hr => hr.1)
      fun _ _ _ => trivial
  split
  · exact hdvd
  · exact hdvd
  · have hfiles : ∀ file : String,
        ({ dir := .task r.settings.temporaryDirectory k, name := file } : Path) ∈ ownFiles r k :=
      fun _ => ⟨.inl rfl, rfl⟩
    have hne : removeIsoSuffix name ++ ".bin" ≠ removeIsoSuffix name ++ ".cue" := by simp
    refine wp_extends_bind (wp_onRaise_discipline (hclean none · (by simp)) ?_) ?_
    · refine wp_extends_bind (ordinary ripCdBinCue_within ?_) fun image g₂ h₂ => ?_
      · rintro q (rfl | rfl) <;> exact hown h₁ _
      · exact wp_seq (ordinary (R := ∅) (T := ∅) findPs2CdTrack_within (by simp))
          (fun _ _ h₃ => h₂.trans h₃) fun _ _ _ => trivial
    rintro ⟨rawResult, number⟩ g₂ h₂
    have h₂ := h₁.trans h₂
    have hmove : wp (discipline D) (moveToArchive r (removeIsoSuffix name) _ _) _ _ g₂ :=
      wp_moveToArchive_discipline h (hk.trans_le h₂.named) (hfiles (removeIsoSuffix name ++ ".bin"))
      (hfiles (removeIsoSuffix name ++ ".cue")) hne
    dsimp only
    split
    · refine wp_finally_discipline (hclean none · (by simp)) hreports ?_
      refine wp_seq hmove ?_ fun _ _ _ => trivial
      rintro ⟨archiveBin, archiveCue⟩ g₃ ⟨hbin, hcue, -⟩
      exact ⟨nofun, by rintro p ⟨⟩; exact hbin, by rintro p ⟨⟩; exact hcue⟩
    · refine wp_finally_discipline (hclean _ · (by simp)) hreports ?_
      refine wp_extends_bind (ordinary convertCdDataTrackToIso_within (by simpa using hown h₂ name))
        fun image g₃ h₃ => ?_
      have hown₃ := hk.trans_le (h₂.trans h₃).named
      have harchive : wp (discipline D) (archiveIfRetained r (removeIsoSuffix name)
          { dir := .task r.settings.temporaryDirectory k, name := removeIsoSuffix name ++ ".bin" }
          { dir := .task r.settings.temporaryDirectory k, name := removeIsoSuffix name ++ ".cue" })
          (fun archive g' => ∀ a ∈ archive, g'.Owns a.1 ∧ g'.Owns a.2) (fun _ _ => True) g₃ := by
        unfold archiveIfRetained
        split
        · refine wp_seq (wp_moveToArchive_discipline h hown₃ (hfiles _) (hfiles _) hne) ?_
            fun _ _ _ => trivial
          rintro archive g₄ ⟨hbin, hcue, -⟩ a ⟨⟩
          exact ⟨hbin, hcue⟩
        · exact fun a ha => by cases ha
      refine wp_seq harchive (fun archive g₄ h₄ => ?_) fun _ _ _ => trivial
      exact wp_mono (wp_install_discipline h hdir hhidden h₄) (fun _ _ hr => hr.1)
        fun _ _ _ => trivial
  · exact wp_onRaise_discipline (p := Prog.raise _) (hclean none · (by simp)) trivial

/-- **Discipline.** Every run puts files in place only where it has just found none, and its result
names only files that it has put in place. -/
theorem wp_ripAndInstall_discipline (h : Guarded r D) :
    wp (discipline D) (ripAndInstall ext r) (fun result g' => Reports ext D result g')
      (fun _ _ => True) g := by
  refine wp_bind.2 ((wp_lift _).2 ⟨fun name _ => ?_, fun _ _ => trivial⟩)
  refine wp_bind.2 ((wp_lift _).2 ⟨fun destination hdest => ?_, fun _ _ => trivial⟩)
  obtain ⟨⟨folder, hdir⟩, hhidden, -⟩ := destinationForGame_eq_ok hdest
  have looking : ∀ {o : Op} {g : Ledger}, o.Within Set.univ ∅ →
      wp (discipline D) (call o) (fun _ (g' : Ledger) => g'.Extends g) (fun _ _ => True) g :=
    fun ho => wp_mono (wp_looking (uses_of ho)) (fun _ _ => id) fun _ _ _ => trivial
  refine wp_extends_bind (looking (by simp)) fun present g₁ _ => ?_
  split
  · trivial
  refine wp_extends_bind (looking (by simp)) fun _ g₂ _ => ?_
  refine wp_bind.2 (wp_call_discipline ⟨by simp, by simp⟩ (fun k g₃ hf hl => ?_)
    fun _ _ _ => trivial)
  exact wp_ripInTask_discipline h hl hdir hhidden

/-! ### The ledger and the files -/

/-- What the ledger says about the files, apart from the paths of `S` that others have filled. -/
structure Ledger.Agrees (D S : Set Path) (g : Ledger) (w : World) : Prop where
  named : g.named ≤ w.fresh
  absent : ∀ q ∈ D, q ∈ g.checked → q ∉ S → w.files q = none
  present : ∀ q ∈ D, ∀ data, (q, data) ∈ g.placed → w.files q = some data

variable {m : Machine} {S : Set Path} {w : World} {o : Op} {c : Choice}

/-- A file of `D` is altered only where there is none. -/
theorem Ledger.Agrees.places_of_alters (h : g.Agrees D S w) (hmay : (discipline D).may g o)
    (hfree : ∀ q ∈ D, o.places q → q ∉ S) {q : Path} (hD : q ∈ D) (halters : o.alters q) :
    o.places q ∧ w.files q = none :=
  have ⟨hplaces, hchecked⟩ := hmay.2 q hD halters
  ⟨hplaces, h.absent q hD hchecked (hfree q hD hplaces)⟩

/-- A file of `D` stays as it is, unless a file is put in place where there was none. -/
theorem Ledger.Agrees.files_of_step (h : g.Agrees D S w) (hmay : (discipline D).may g o)
    (hfree : ∀ q ∈ D, o.places q → q ∉ S) {q : Path} (hD : q ∈ D)
    (hq : ¬ o.places q ∨ ∃ data, w.files q = some data) :
    (perform m o c w).2.files q = w.files q := by
  refine files_of_perform fun halters => ?_
  obtain ⟨hplaces, hnone⟩ := h.places_of_alters hmay hfree hD halters
  obtain hq | ⟨data, hdata⟩ := hq
  · exact hq hplaces
  · cases hdata.symm.trans hnone

theorem fresh_le_of_perform : w.fresh ≤ (perform m o c w).2.fresh := by
  by_cases hglobal : o.isGlobal = true
  · unfold perform
    cases o <;> simp only [Op.isGlobal, Bool.false_eq_true] at hglobal <;> split <;>
      simp only [Op.infallible, if_true, Bool.false_eq_true, if_false, succeed, fail] <;>
      (try split) <;> simp [World.setFile]
  · exact (published_and_fresh_of_perform (by simpa using hglobal)).2.ge

/-- The paths that are found absent after an operation. -/
def Ledger.checkedAfter (g : Ledger) : (o : Op) → Except PyError o.Answer → Set Path
  | .pathExists p, .ok false => insert p g.checked
  | .pathExists p, _ => g.checked \ {p}
  | o, _ => { q ∈ g.checked | ¬ o.places q }

/-- The file that an operation has put in place. -/
def placedBy (w' : World) : (o : Op) → Except PyError o.Answer → List (Path × Bytes)
  | .replace _ dst, .ok _ => (w'.files dst).toList.map fun data => (dst, data)
  | .move _ dst, .ok _ => (w'.files dst).toList.map fun data => (dst, data)
  | _, _ => []

/-- The ledger after an operation that led to `w'`. -/
def Ledger.after (g : Ledger) (o : Op) (r : Except PyError o.Answer) (w' : World) : Ledger where
  named := w'.fresh
  checked := g.checkedAfter o r
  placed := g.placed ++ placedBy w' o r

theorem Ledger.mem_checkedAfter {r : Except PyError o.Answer} {q : Path} (hq : q ∈ g.checked)
    (hne : o ≠ .pathExists q) (hplaces : ¬ o.places q) : q ∈ g.checkedAfter o r := by
  cases o with
  | pathExists p =>
    have hqp : q ≠ p := fun h => hne (by rw [h])
    rcases r with e | (_ | _)
    · exact ⟨hq, hqp⟩
    · exact Set.mem_insert_of_mem _ hq
    · exact ⟨hq, hqp⟩
  | _ => exact ⟨hq, hplaces⟩

/-- A path on the list was there before, or has just been found absent. -/
theorem Ledger.of_mem_checkedAfter {r : Except PyError o.Answer} {w' : World} {q : Path}
    (hrun : perform m o c w = (r, w')) (hq : q ∈ g.checkedAfter o r) :
    (q ∈ g.checked ∧ o ≠ .pathExists q ∧ ¬ o.places q) ∨
    (o = .pathExists q ∧ w.files q = none) := by
  cases o with
  | pathExists p =>
    rcases r with e | (_ | _)
    · exact .inl ⟨hq.1, fun h => hq.2 (by cases h; rfl), by simp⟩
    · obtain rfl | hq := hq
      · have hs := succeed_of_perform_ok hrun
        simp only [succeed, Prod.mk.injEq, Except.ok.injEq] at hs
        exact .inr ⟨rfl, by simpa using hs.1⟩
      · by_cases hqp : q = p
        · subst hqp
          have hs := succeed_of_perform_ok hrun
          simp only [succeed, Prod.mk.injEq, Except.ok.injEq] at hs
          exact .inr ⟨rfl, by simpa using hs.1⟩
        · exact .inl ⟨hq, fun h => hqp (by cases h; rfl), by simp⟩
    · exact .inl ⟨hq.1, fun h => hq.2 (by cases h; rfl), by simp⟩
  | _ => exact .inl ⟨hq.1, by simp, hq.2⟩

theorem files_of_mem_placedBy {r : Except PyError o.Answer} {w' : World} {q : Path} {data : Bytes}
    (h : (q, data) ∈ placedBy w' o r) : w'.files q = some data := by
  have key : ∀ dst : Path, (q, data) ∈ (w'.files dst).toList.map (fun data => (dst, data)) →
      w'.files q = some data := by
    intro dst hmem
    obtain ⟨d, hd, heq⟩ := List.mem_map.1 hmem
    cases heq
    simpa using hd
  cases o with
  | replace src dst | move src dst =>
    cases r with
    | ok _ => exact key dst h
    | error e => cases h
  | _ => cases h

/-- What the answer says about the new ledger. -/
theorem Ledger.learns_of_perform {r : Except PyError o.Answer} {w' : World}
    (hrun : perform m o c w = (r, w'))
    (hpresent : ∀ q ∈ D, ∀ data, (q, data) ∈ g.placed → w.files q = some data) :
    g.Learns D (g.after o r w') o r := by
  have placed : ∀ {dst : Path}, (∃ data, w'.files dst = some data) → ∃ data,
      (dst, data) ∈ g.placed ++ (w'.files dst).toList.map (fun data => (dst, data)) := by
    rintro dst ⟨data, hdata⟩
    exact ⟨data, by simp [hdata]⟩
  cases r with
  | error e => cases o <;> trivial
  | ok a =>
    have hs := succeed_of_perform_ok hrun
    cases o with
    | mkdtemp _ | uuid4 =>
      cases hs
      exact Nat.lt_succ_self _
    | pathExists p =>
      intro ha
      rw [Ledger.after, ha]
      exact Set.mem_insert ..
    | replace src dst | move src dst =>
      refine placed ?_
      simp only [succeed] at hs
      split at hs
      · cases hs
        exact ⟨_, World.setFile_files_self ..⟩
      · cases hs
    | openRead p =>
      intro hD data hplaced
      simp only [succeed, hpresent p hD data hplaced] at hs
      cases hs
      rfl
    | _ => trivial

/-- **A step of the run.** The ledger can be kept up to date. -/
theorem Ledger.Agrees.step (h : g.Agrees D S w) (hmay : (discipline D).may g o)
    (hfree : ∀ q ∈ D, o.places q → q ∉ S) :
    (discipline D).answers g o (perform m o c w).1
        (g.after o (perform m o c w).1 (perform m o c w).2) ∧
      (g.after o (perform m o c w).1 (perform m o c w).2).Agrees D (S \ { q | o = .pathExists q })
        (perform m o c w).2 := by
  refine ⟨⟨⟨h.named.trans fresh_le_of_perform, List.prefix_append .., fun q hq hne hplaces =>
    g.mem_checkedAfter hq hne hplaces⟩, g.learns_of_perform rfl h.present⟩, le_rfl, ?_, ?_⟩
  · intro q hD hq hS
    obtain ⟨hq, hne, hplaces⟩ | ⟨rfl, hnone⟩ := Ledger.of_mem_checkedAfter (m := m) (c := c) rfl hq
    · rw [h.files_of_step hmay hfree hD (.inl hplaces)]
      exact h.absent q hD hq fun hqS => hS ⟨hqS, hne⟩
    · rw [h.files_of_step hmay hfree hD (.inl (by simp)), hnone]
  · intro q hD data hq
    obtain hq | hq := List.mem_append.1 hq
    · rw [h.files_of_step hmay hfree hD (.inr ⟨data, h.present q hD data hq⟩),
        h.present q hD data hq]
    · exact files_of_mem_placedBy hq

end Ps2Ripper
