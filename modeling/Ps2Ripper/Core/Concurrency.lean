import Ps2Ripper.Core.Discipline
import Ps2Ripper.Core.Geometry
import Ps2Ripper.Interactive.Weave

/-!
# Several instances at once

Two instances of the program share the file system.  Each looks for a file before it renames or
moves another one to its place, and nothing keeps the other instance from filling the place in
between.

* `LastLooked`, `InTime`: no other run has filled the place since the run looked for it;
* `Accord`: what the ledgers of the runs say about the shared files, and how a step preserves it;
* `nothing_lost`: if every rename and move is in time, no file is lost.
-/

namespace Ps2Ripper

open Interactive Prog

variable {ι : Type} [DecidableEq ι]

/-! ### Runs of several instances -/

/-- The instances at their start, each with its own request. -/
def installs (m : ι → Machine) (r : ι → RipRequest) (w : World) :
    Pool interface PyError InstallResult ι World where
  programs i := ripAndInstall (m i).toExternals (r i)
  world := w

/-- An operation of an instance may turn out in any way. -/
def drive (m : Machine) : World → (o : Op) → Except PyError o.Answer → World → Prop :=
  fun w o r w' => ∃ c, perform m o c w = (r, w')

/-- Every instance has a drive of its own. -/
def drives (m : ι → Machine) : Surroundings interface PyError ι World := fun i => drive (m i)

/-- What has happened so far. -/
abbrev Log (ι : Type) : Type := List (Event interface ι World)

/-- The event has left a renamed or moved file at a path. -/
def Puts (e : Event interface ι World) (q : Path) : Prop :=
  Op.places e.op q ∧ (e.after.files q).isSome = true

/-- An instance has looked for a file, and no other instance has put one there since. -/
def LastLooked (t : Log ι) (i : ι) (q : Path) : Prop :=
  ∃ before e after, t = before ++ e :: after ∧ e.party = i ∧ e.op = Op.pathExists q ∧
    ∀ e' ∈ after, e'.party = i ∨ ¬ Puts e' q

/-- A rename or a move to a shared path that no other instance has filled since the last look. -/
def InTime (t : Log ι) (e : Event interface ι World) : Prop :=
  ∀ q ∈ sharedFiles, Op.places e.op q → LastLooked t e.party q

/-- The files that a result names. -/
def InstallResult.files (result : InstallResult) : Set Path :=
  { p | result.destination = some p ∨ result.archiveBin = some p ∨ result.archiveCue = some p }

/-- No shared file is overwritten, and the files that a result names are the ones that its run has
put in place. -/
structure NothingLost (m : ι → Machine) (w : World) (t : Log ι)
    (s : Pool interface PyError InstallResult ι World) : Prop where
  kept : ∀ q ∈ sharedFiles, ∀ data,
    (w.files q = some data ∨ ∃ e ∈ t, e.after.files q = some data) → s.world.files q = some data
  reported : ∀ i result, s.programs i = .pure result → ∀ p ∈ result.files, ∃ data,
    s.world.files p = some data ∧
    (∃ e ∈ t, e.party = i ∧ Op.places e.op p ∧ e.after.files p = some data) ∧
    (result.destination = some p → result.destinationSha256 = some ((m i).hexdigest data))
  once : ∀ i j result result', s.programs i = .pure result → s.programs j = .pure result' →
    ∀ p ∈ result.files, p ∈ result'.files → i = j

/-! ### One step -/

variable {m : ι → Machine} {r : ι → RipRequest} {w w₀ : World} {t : Log ι} {g : ι → Ledger} {i : ι}
  {o : Op} {c : Choice}

omit [DecidableEq ι] in
theorem LastLooked.of_append {e : Event interface ι World} {j : ι} {q : Path}
    (h : LastLooked (t ++ [e]) j q) :
    (e.party = j ∧ e.op = Op.pathExists q) ∨ (LastLooked t j q ∧ (e.party = j ∨ ¬ Puts e q)) := by
  obtain ⟨before, e', after, ht, hparty, hop, hafter⟩ := h
  obtain ⟨rfl, rfl⟩ | ⟨after', rfl, rfl⟩ := eq_or_of_append_singleton ht
  · exact .inl ⟨hparty, hop⟩
  · exact .inr ⟨⟨before, e', after', rfl, hparty, hop, fun x hx => hafter x (by simp [hx])⟩,
      hafter e (by simp)⟩

theorem Ledger.Agrees.mono {D S S' : Set Path} {g : Ledger} (h : g.Agrees D S w) (hS : S ⊆ S') :
    g.Agrees D S' w :=
  ⟨h.named, fun q hD hq hnot => h.absent q hD hq fun hqS => hnot (hS hqS), h.present⟩

theorem Op.alters_of_mem_placedBy {x : Except PyError o.Answer} {w' : World} {q : Path}
    {data : Bytes} (h : (q, data) ∈ placedBy w' o x) : o.alters q := by
  cases o with
  | replace src dst | move src dst =>
    cases x with
    | ok _ =>
      obtain ⟨d, -, heq⟩ := List.mem_map.1 h
      cases heq
      exact .inr rfl
    | error e => cases h
  | _ => cases h

/-- What holds at every step of the runs that started in `w₀`. -/
structure Accord (w₀ : World) (t : Log ι) (g : ι → Ledger) (w : World) : Prop where
  agrees : ∀ i, (g i).Agrees sharedFiles { q | ¬ LastLooked t i q } w
  logged : ∀ i, ∀ q ∈ sharedFiles, ∀ data, (q, data) ∈ (g i).placed →
    ∃ e ∈ t, e.party = i ∧ Op.places e.op q ∧ e.after.files q = some data
  apart : ∀ i j, i ≠ j → ∀ q ∈ sharedFiles, ∀ data data', (q, data) ∈ (g i).placed →
    (q, data') ∉ (g j).placed
  kept : ∀ q ∈ sharedFiles, ∀ data,
    (w₀.files q = some data ∨ ∃ e ∈ t, e.after.files q = some data) → w.files q = some data

omit [DecidableEq ι] in
/-- The files of one instance's ledger while another one takes a step. -/
theorem Ledger.Agrees.step_other {j : ι} {g₁ g₂ : Ledger} {S : Set Path}
    (h : g₁.Agrees sharedFiles { q | ¬ LastLooked t j q } w) (h' : g₂.Agrees sharedFiles S w)
    (hmay : (discipline sharedFiles).may g₂ o) (hfree : ∀ q ∈ sharedFiles, o.places q → q ∉ S)
    (hj : i ≠ j) :
    g₁.Agrees sharedFiles { q | ¬ LastLooked (t ++ [⟨i, o, (perform (m i) o c w).2⟩]) j q }
      (perform (m i) o c w).2 := by
  refine ⟨h.named.trans fresh_le_of_perform, fun q hD hq hlooked => ?_, fun q hD data hq => ?_⟩
  · obtain ⟨hparty, -⟩ | ⟨hlooked, hputs⟩ := (not_not.1 hlooked).of_append
    · exact absurd hparty hj
    by_cases hplaces : o.places q
    · exact Option.not_isSome_iff_eq_none.1 fun hsome => hputs.resolve_left hj ⟨hplaces, hsome⟩
    · rw [h'.files_of_step hmay hfree hD (.inl hplaces)]
      exact h.absent q hD hq (not_not.2 hlooked)
  · have hdata := h.present q hD data hq
    rw [h'.files_of_step hmay hfree hD (.inr ⟨data, hdata⟩), hdata]

/-- **One step of one of the runs.** -/
theorem Accord.step (h : Accord w₀ t g w) (hmay : (discipline sharedFiles).may (g i) o)
    (hok : InTime t ⟨i, o, (perform (m i) o c w).2⟩) :
    ∃ g', (discipline sharedFiles).answers (g i) o (perform (m i) o c w).1 g' ∧
      Accord w₀ (t ++ [⟨i, o, (perform (m i) o c w).2⟩]) (Function.update g i g')
        (perform (m i) o c w).2 := by
  have hfree : ∀ q ∈ sharedFiles, o.places q → q ∉ { q | ¬ LastLooked t i q } :=
    fun q hD hplaces hnot => hnot (hok q hD hplaces)
  obtain ⟨hanswer, hagrees⟩ := (h.agrees i).step (m := m i) (c := c) hmay hfree
  -- No other run has placed what this step places: there was nothing before it.
  have hnew : ∀ j ≠ i, ∀ q ∈ sharedFiles, ∀ data data',
      (q, data) ∈ placedBy (perform (m i) o c w).2 o (perform (m i) o c w).1 →
        (q, data') ∉ (g j).placed := by
    intro j _ q hD data data' hq hj
    have hnone := ((h.agrees i).places_of_alters hmay hfree hD (Op.alters_of_mem_placedBy hq)).2
    cases ((h.agrees j).present q hD data' hj).symm.trans hnone
  refine ⟨_, hanswer, fun j => ?_, fun j q hD data hq => ?_,
    fun j k hjk q hD data data' hq hq' => ?_, fun q hD data hq => ?_⟩
  · -- The ledgers agree with the world.
    by_cases hj : j = i
    · subst hj
      rw [Function.update_self]
      refine hagrees.mono fun q hq hlooked => ?_
      obtain ⟨-, hop⟩ | ⟨hlooked, -⟩ := hlooked.of_append
      · exact hq.2 hop
      · exact hq.1 hlooked
    · rw [Function.update_of_ne hj]
      exact (h.agrees j).step_other (h.agrees i) hmay hfree fun hij => hj hij.symm
  · -- What a ledger has placed is in the log.
    have hold : (q, data) ∈ (g j).placed →
        ∃ e ∈ t ++ [⟨i, o, (perform (m i) o c w).2⟩], e.party = j ∧ Op.places e.op q ∧
          e.after.files q = some data := fun hq => by
      obtain ⟨e, he, hrest⟩ := h.logged j q hD data hq
      exact ⟨e, List.mem_append_left _ he, hrest⟩
    by_cases hj : j = i
    · subst hj
      rw [Function.update_self] at hq
      obtain hq | hq := List.mem_append.1 hq
      · exact hold hq
      · exact ⟨_, List.mem_append_right _ (List.mem_singleton_self _), rfl,
          (hmay.2 q hD (Op.alters_of_mem_placedBy hq)).1, files_of_mem_placedBy hq⟩
    · rw [Function.update_of_ne hj] at hq
      exact hold hq
  · by_cases hj : j = i
    · subst hj
      rw [Function.update_self] at hq
      rw [Function.update_of_ne hjk.symm] at hq'
      obtain hq | hq := List.mem_append.1 hq
      · exact h.apart j k hjk q hD data data' hq hq'
      · exact hnew k hjk.symm q hD data data' hq hq'
    rw [Function.update_of_ne hj] at hq
    by_cases hk : k = i
    · subst hk
      rw [Function.update_self] at hq'
      obtain hq' | hq' := List.mem_append.1 hq'
      · exact h.apart j k hjk q hD data data' hq hq'
      · exact hnew j hjk q hD data' data hq' hq
    · rw [Function.update_of_ne hk] at hq'
      exact h.apart j k hjk q hD data data' hq hq'
  · -- What was there, or was placed, is there still.
    have hold : w.files q = some data → (perform (m i) o c w).2.files q = some data :=
      fun hdata => by
      rw [(h.agrees i).files_of_step hmay hfree hD (.inr ⟨data, hdata⟩), hdata]
    obtain hq | ⟨e, he, hdata⟩ := hq
    · exact hold (h.kept q hD data (.inl hq))
    · obtain he | he := List.mem_append.1 he
      · exact hold (h.kept q hD data (.inr ⟨e, he, hdata⟩))
      · rw [List.mem_singleton.1 he] at hdata
        exact hdata

/-! ### All runs -/

theorem guarded_sharedFiles {r : RipRequest} (h : r.replaceExisting = false) :
    Guarded r sharedFiles where
  visible q hq := hq.1
  shared q hq base id hdir := by
    obtain ⟨-, ⟨_, _, hq⟩ | ⟨_, _, hq⟩⟩ := hq <;> rw [hq] at hdir <;> cases hdir
  retained q hq base hdir := by
    obtain ⟨-, ⟨_, _, hq⟩ | ⟨_, _, hq⟩⟩ := hq <;> rw [hq] at hdir <;> cases hdir
  replace hreplace := by rw [h] at hreplace; cases hreplace

omit [DecidableEq ι] in
theorem Accord.start : Accord w [] (fun _ : ι => ⟨w.fresh, ∅, []⟩) w where
  agrees _ := ⟨le_rfl, fun _ _ h => h.elim, fun _ _ _ h => nomatch h⟩
  logged _ _ _ _ h := nomatch h
  apart _ _ _ _ _ _ _ h := nomatch h
  kept _ _ _ h := h.elim id fun ⟨_, h, _⟩ => nomatch h

/-! ### One instance alone -/

omit [DecidableEq ι] in
theorem LastLooked.append_own {e : Event interface ι World} {q : Path}
    (h : LastLooked t e.party q) :
    LastLooked (t ++ [e]) e.party q := by
  obtain ⟨before, e', after, rfl, hparty, hop, hafter⟩ := h
  refine ⟨before, e', after ++ [e], by simp, hparty, hop, fun x hx => ?_⟩
  obtain hx | hx := List.mem_append.1 hx
  · exact hafter x hx
  · rw [List.mem_singleton.1 hx]
    exact .inl rfl

theorem Op.alters_of_places {q : Path} (h : o.places q) : o.alters q := by
  cases o <;> simp_all

/-- What a run alone preserves. -/
structure Alone (i : ι) (t : Log ι) (g : Ledger) (w : World) : Prop where
  agrees : g.Agrees sharedFiles ∅ w
  looked : ∀ q ∈ sharedFiles, q ∈ g.checked → LastLooked t i q
  inTime : Meets InTime t

omit [DecidableEq ι] in
theorem Alone.step {m : Machine} {g : Ledger} (h : Alone i t g w)
    (hmay : (discipline sharedFiles).may g o) :
    ∃ g', (discipline sharedFiles).answers g o (perform m o c w).1 g' ∧
      Alone i (t ++ [⟨i, o, (perform m o c w).2⟩]) g' (perform m o c w).2 := by
  obtain ⟨hanswer, hagrees⟩ := h.agrees.step (m := m) (c := c) hmay fun _ _ _ => Set.notMem_empty _
  rw [Set.empty_sdiff] at hagrees
  refine ⟨_, hanswer, hagrees, fun q hD hq => ?_, meets_append_singleton.2 ⟨h.inTime, ?_⟩⟩
  · obtain ⟨hq, -⟩ | ⟨hop, -⟩ := Ledger.of_mem_checkedAfter (m := m) (c := c) (w := w) rfl hq
    · exact (h.looked q hD hq).append_own (e := ⟨i, o, (perform m o c w).2⟩)
    · exact ⟨t, ⟨i, o, (perform m o c w).2⟩, [], rfl, rfl, hop, by simp⟩
  · exact fun q hD hplaces => h.looked q hD (hmay.2 q hD (Op.alters_of_places hplaces)).2

/-- Every rename and every move is in time while no other instance takes a step. -/
theorem inTime_of_alone (hreplace : ∀ i, (r i).replaceExisting = false)
    {s : Pool interface PyError InstallResult ι World}
    (hrun : Weaves (drives m) (installs m r w) t s) (halone : ∀ e ∈ t, e.party = i) :
    Meets InTime t := by
  have hrun' := hrun.invariant (c := fun _ => discipline sharedFiles)
    (R := fun t g w => Alone i t (g i) w) (K := fun _ e => e.party = i)
    (Q := fun i result g' => Reports (m i).toExternals sharedFiles result g')
      (E := fun _ _ _ => True)
    (g := fun _ => ⟨w.fresh, ∅, []⟩)
    (fun t g w j o r w' h hmay ⟨c, hc⟩ hj => by
      obtain ⟨rfl, rfl⟩ := Prod.mk.inj hc.symm
      obtain rfl : j = i := hj
      obtain ⟨g', hanswer, h'⟩ := h.step (m := m j) (c := c) hmay
      exact ⟨g', hanswer, by rwa [Function.update_self]⟩)
    (fun i => wp_ripAndInstall_discipline (guarded_sharedFiles (hreplace i)))
    ⟨⟨le_rfl, fun _ _ h => h.elim, fun _ _ _ h => nomatch h⟩, fun _ _ h => h.elim,
      fun before e after h => by simp at h⟩
    (fun before e after h => halone e (by simp [h]))
  obtain ⟨g, h, -⟩ := hrun'
  exact h.inTime

/-! ### Two instances between the look and the rename -/

/-- Without failures a program that does not raise leads to its result. -/
theorem calm_leads {m : Machine} {α : Type} {p : Program α} {Q : α → World → Prop}
    (h : wp (calm m) p Q (fun _ _ => False) w) :
    ∃ a w', Leads (drive m) p w (.pure a) w' ∧ Q a w' :=
  exists_leads_of_wp (c := calm m) (fun _ _ => ⟨_, _, ⟨{}, rfl⟩, {}, rfl, rfl⟩) h

/-- What follows the publication. -/
def afterPublish (ext : Externals) (r : RipRequest) (destination : Path) (image : ImageResult)
    (archive : Option (Path × Path)) (destinationHash : String) : Program InstallResult := do
  let finalHash ← verifyPublished ext r destination image destinationHash
  return { destination := some destination, sourceSha256 := image.sha256
           destinationSha256 := some finalHash, sourceSize := image.size, retries := image.retries
           archiveBin := archive.map Prod.fst, archiveCue := archive.map Prod.snd }

/-- The rename, and the digest that was computed before it. -/
def renamePart (part destination : Path) (hash : String) : Program String := do
  call (.replace part destination)
  return hash

/-- What is left of the run of a DVD when it is about to rename the partial file. -/
def aboutToRename (ext : Externals) (r : RipRequest) (source destination part : Path)
    (image : ImageResult) (hash : String) : Program InstallResult :=
  ((renamePart part destination hash).tryFinally (call (.unlink part)) >>=
    afterPublish ext r destination image none).tryFinally (cleanup r source.dir (some source))

section Dvd

variable {m : Machine} {r : RipRequest} {source destination : Path} {current : DiscIdentity}

/-- A partial copy of the image is there, and nothing else has changed but the image itself. -/
structure Copied (m : Machine) (r : RipRequest) (source destination : Path) (w : World)
    (part : Path) (image : ImageResult) (data : Bytes) (w' : World) : Prop where
  part_eq : ∃ n, w.fresh ≤ n ∧ n < w'.fresh ∧ part = destination.partialOf n
  copy : w'.files part = some data
  checks : ChecksOut m.toExternals data r.disc.gameId
  sha : image.sha256 = m.hexdigest data
  others : ∀ q, q ≠ source → q ≠ part → w'.files q = w.files q
  fresh : w.fresh ≤ w'.fresh

theorem leads_publishBody {part : Path} {data : Bytes} (hreplace : r.replaceExisting = false)
    (hsource : w.files source = some data) (hpart : w.files part = none)
    (hne : destination ≠ part) (habsent : w.files destination = none)
    (hchecks : ChecksOut m.toExternals data r.disc.gameId) :
    ∃ w', Leads (drive m)
        (publishBody m.toExternals r source destination part (m.hexdigest data)) w
        (renamePart part destination (m.hexdigest data)) w' ∧
      w'.files part = some data ∧ Frame {part} w w' := by
  have hcopying : wp (calm m) (copyAndVerify m.toExternals source part (m.hexdigest data) true
    r.progress) _ _ w := calm_copyAndVerify hsource hpart
  obtain ⟨hash, w₁, h₁, rfl, hcopy, hframe⟩ := calm_leads hcopying
  have hvalidate : wp (calm m) (validatePs2Iso part (some r.disc.gameId)) _ _ w₁ :=
    calm_validatePs2Iso hcopy
  obtain ⟨_, w₂, h₂, -, hframe₂⟩ := calm_leads (wp_mono hvalidate (fun _ _ => id)
    fun _ _ h => h hchecks)
  obtain ⟨present, w₃, h₃, rfl, rfl⟩ := calm_leads (m := m) (w := w₂)
    (calm_pathExists (p := destination))
  have hnone : w₃.files destination = none := by
    rw [hframe₂.files_eq, hframe.files _ hne, habsent]
  refine ⟨w₃, h₁.bind_of_pure (h₂.bind_of_pure (h₃.bind_of_pure ?_)), by
    rw [hframe₂.files_eq, hcopy],
    hframe.trans (hframe₂.mono (by simp))⟩
  rw [hnone, hreplace, if_neg (by simp)]
  exact .refl

theorem leads_install {image : ImageResult} {data : Bytes} (hreplace : r.replaceExisting = false)
    (hsource : w.files source = some data) (hfresh : HiddenFresh w)
    (hhidden : destination.hidden = none) (habsent : w.files destination = none)
    (hcomplete : image.complete = true) (hsha : image.sha256 = m.hexdigest data)
    (hsize : image.size = data.length) (hinst : Installable m r data false) :
    ∃ part w', Leads (drive m) (install m.toExternals r source destination image none) w
        ((renamePart part destination (m.hexdigest data)).tryFinally (call (.unlink part)) >>=
          afterPublish m.toExternals r destination image none) w' ∧
      Copied m r source destination w part image data w' := by
  have hvalidate : wp (calm m) (validatePs2Iso source (some r.disc.gameId)) _ _ w :=
    calm_validatePs2Iso hsource
  obtain ⟨_, w₁, h₁, -, hframe₁⟩ := calm_leads (wp_mono hvalidate (fun _ _ => id)
    fun _ _ h => h hinst.1)
  have hspace : wp (calm m) (verifyFreeSpace r.oplRoot data.length) _ _ w₁ := calm_verifyFreeSpace
  obtain ⟨_, w₂, h₂, -, rfl⟩ := calm_leads (wp_mono hspace (fun _ _ => id) fun _ _ h => h hinst.2.1)
  obtain ⟨uuid, w₃, h₃, rfl, rfl⟩ := calm_leads (m := m) (w := w₂)
    (calm_call (o := .uuid4) (Q := fun n w' => n = w₂.fresh ∧
      w' = { w₂ with fresh := w₂.fresh + 1 }) rfl ⟨rfl, rfl⟩)
  have hfiles := hframe₁.files_eq
  have hne : destination ≠ destination.partialOf w₂.fresh := fun h => by
    have := congrArg Path.hidden h
    simp [hhidden, Path.partialOf] at this
  have hsource₂ : w₂.files source = some data := by rw [hfiles, hsource]
  -- The copy and its check are made before the rename; at the destination nothing is there yet.
  obtain ⟨w₄, h₄, hcopy, hframe₄⟩ := leads_publishBody (m := m) (r := r)
    (w := { w₂ with fresh := w₂.fresh + 1 }) hreplace hsource₂
    (show w₂.files (destination.partialOf w₂.fresh) = none by
      rw [hfiles]
      exact hfresh _ _ rfl (by rw [hframe₁.fresh]))
    hne (by simpa [hfiles] using habsent) hinst.1
  have hpublish : Leads (drive m) (publish m.toExternals r source destination image) w
      ((renamePart (destination.partialOf w₂.fresh) destination (m.hexdigest data)).tryFinally
        (call (.unlink (destination.partialOf w₂.fresh)))) w₄ := by
    unfold publish
    rw [hcomplete, if_neg (by simp), hsha, hsize]
    exact h₁.bind_of_pure (h₂.bind_of_pure (h₃.bind_of_pure h₄.tryFinally))
  refine ⟨_, w₄, hpublish.bind, ⟨w₂.fresh, hframe₁.fresh.ge, ?_, rfl⟩, hcopy, hinst.1, hsha, ?_, ?_⟩
  · rw [hframe₄.fresh]
    exact Nat.lt_succ_self _
  · intro q _ hq
    rw [hframe₄.files q hq]
    exact congrFun hfiles q
  · rw [hframe₄.fresh]
    exact hframe₁.fresh.ge.trans (Nat.le_succ _)

/-- A DVD that is ready gets to the rename. -/
theorem leads_aboutToRename (hmedia : r.disc.mediaType = .ps2Dvd5)
    (hreplace : r.replaceExisting = false)
    (hdest : destinationForGame r.oplRoot r.disc.mediaType r.disc.gameId r.title = .ok destination)
    (hfresh : HiddenFresh w) (htasks : TasksFresh w) (habsent : w.files destination = none)
    (hcurrent : consult m (reinspect r) = .ok current) (hready : ReadyDvd m r false) :
    ∃ part image data w', Leads (drive m) (ripAndInstall m.toExternals r) w
        (aboutToRename m.toExternals r { dir := taskOf r w.fresh, name := destination.name }
          destination part image (m.hexdigest data)) w' ∧
      Copied m r { dir := taskOf r w.fresh, name := destination.name } destination w part image data
        w' := by
  obtain ⟨⟨folder, hfolder⟩, hhidden, hname⟩ := destinationForGame_eq_ok hdest
  obtain ⟨places, w₁, h₁, rfl, hfiles, hfresh₁⟩ :=
    calm_leads (calm_prepare (m := m) hname hdest habsent)
  obtain ⟨_, w₂, h₂, -, hframe₂⟩ := calm_leads (w := w₁) (wp_mono
    (calm_consult (m := m) reinspect_within) (fun _ _ => id) fun _ _ h => h current hcurrent)
  have hnew : w₂.files { dir := taskOf r w.fresh, name := destination.name } = none := by
    rw [hframe₂.files_eq, hfiles]
    exact htasks _ _ _ rfl le_rfl
  have hrip : wp (calm m) (ripDvdIso m.toExternals _ r.disc.totalSectors r.progress
    r.settings.readChunkSectors r.settings.maximumRetries) _ _ w₂ := calm_ripDvdIso hnew
  obtain ⟨image, w₃, h₃, -, hcomplete, hsha, hsize, hfile, hframe₃⟩ := calm_leads
    (wp_mono hrip (fun _ _ => id) fun _ _ h => h hready.1)
  have hne : destination ≠ { dir := taskOf r w.fresh, name := destination.name } := fun h => by
    have := congrArg Path.dir h
    simp [hfolder] at this
  -- All that the run has changed so far is its image.
  have hsame : ∀ q : Path, q ≠ { dir := taskOf r w.fresh, name := destination.name } →
      w₃.files q = w.files q := fun q hq => by rw [hframe₃.files q hq, hframe₂.files_eq, hfiles]
  have hle : w₃.fresh = w.fresh + 1 := by rw [hframe₃.fresh, hframe₂.fresh, hfresh₁]
  have hhidden₃ : HiddenFresh w₃ := fun p n hp hn => by
    rw [hsame p fun h => by simp [h] at hp]
    exact hfresh p n hp (by omega)
  obtain ⟨part, w₄, h₄, hcopied⟩ := leads_install hreplace hfile hhidden₃ hhidden
    (by rw [hsame _ hne, habsent]) hcomplete hsha hsize hready.2
  refine ⟨part, image, _, w₄, ?_, ⟨?_, hcopied.copy, hcopied.checks, hcopied.sha, ?_, ?_⟩⟩
  · rw [ripAndInstall_eq]
    refine h₁.bind_of_pure (h₂.tryCatch.bind_of_pure ?_)
    dsimp only
    rw [hmedia]
    exact (h₃.bind_of_pure h₄).tryFinally
  · obtain ⟨n, hn, hlt, hpart⟩ := hcopied.part_eq
    exact ⟨n, by omega, hlt, hpart⟩
  · exact fun q hq hpart => by rw [hcopied.others q hq hpart, hsame q hq]
  · have := hcopied.fresh
    omega

/-- From there on the run returns, whatever is at the destination. -/
theorem calm_aboutToRename {part : Path} {image : ImageResult} {data : Bytes}
    (hne : destination ≠ part) (hcopy : w.files part = some data)
    (hchecks : ChecksOut m.toExternals data r.disc.gameId)
    (hsha : image.sha256 = m.hexdigest data) :
    wp (calm m) (aboutToRename m.toExternals r source destination part image (m.hexdigest data))
      (fun result _ => result.destination = some destination) (fun _ _ => False) w := by
  refine wp_tryFinally.2 (wp_mono (Q := fun result _ => result.destination = some destination)
    (E := fun _ _ => False) ?_
    (fun _ _ h => wp_mono succeeds_cleanup (fun _ _ _ => h) fun _ _ => id)
    fun _ _ => False.elim)
  have hrename : wp (calm m) ((renamePart part destination (m.hexdigest data)).tryFinally
      (call (.unlink part)))
      (fun hash w' => hash = m.hexdigest data ∧ w'.files destination = some data)
      (fun _ _ => False) w := by
    refine wp_tryFinally.2 (wp_bind.2 (calm_call (o := .replace part destination) (a := ())
      (v := { (w.setFile part none).setFile destination (some data) with
        published := w.published ++ [(destination, data)] }) (by simp [succeed, hcopy]) ?_))
    refine calm_call (o := .unlink part) rfl ⟨rfl, ?_⟩
    rw [World.setFile_files_of_ne _ _ hne]
    exact World.setFile_files_self ..
  refine wp_seq hrename ?_ fun _ _ => id
  rintro _ w₁ ⟨rfl, hfile⟩
  exact wp_seq (succeeds_verifyPublished hfile hsha hchecks) (fun _ _ _ => rfl) fun _ _ => id

/-- The rest of the run leaves the partial files of the other instances alone. -/
theorem aboutToRename_uses {part q : Path} {image : ImageResult} {hash : String}
    (hpart : q ≠ part) (hdest : q ≠ destination) (hdir : q.dir ≠ source.dir)
    (hretained : q ≠ r.retainedPath source.name) :
    (aboutToRename m.toExternals r source destination part image hash).Uses
      fun (o : Op) => ¬ o.alters q := by
  have hsource : q ≠ source := fun h => hdir (by rw [h])
  have hclean : (cleanup r source.dir (some source)).Uses fun (o : Op) => ¬ o.alters q := by
    refine (cleanup_alters (T := {p | p.dir = source.dir} ∪ {r.retainedPath source.name})
      ?_ ?_).mono fun (o : Op) ho halters => ?_
    · exact fun p hp => .inl hp
    · rintro p ⟨⟩
      exact ⟨.inl rfl, .inr rfl⟩
    · exact (ho.1 q halters).elim hdir hretained
  have hverify : ∀ hash, (verifyPublished m.toExternals r destination image hash).Uses
      fun (o : Op) => ¬ o.alters q := fun hash =>
    .bind (sha256File_within.mono fun (o : Op) ho halters =>
      (ho.2.1 q halters : q ∈ (∅ : Set Path))) fun _ =>
      .ite (fun _ => trivial) fun _ => .bind (validatePs2Iso_within.mono fun (o : Op) ho halters =>
        (ho.2.1 q halters : q ∈ (∅ : Set Path))) fun _ => trivial
  refine .tryFinally (.bind (.tryFinally (.bind (uses_of ?_) fun _ => trivial) (uses_of ?_))
    fun hash => .bind (hverify hash) fun _ => trivial) hclean
  · simp [hpart, hdest]
  · simpa using hpart

section Copied

variable {part : Path} {image : ImageResult} {data : Bytes} {w' : World} {root folder : String}

theorem Copied.hiddenFresh (h : Copied m r source destination w part image data w')
    (hfresh : HiddenFresh w) (hsource : source.hidden = none) : HiddenFresh w' := by
  obtain ⟨n₀, -, hlt, hpart⟩ := h.part_eq
  intro p n hp hn
  rw [h.others p]
  · exact hfresh p n hp (h.fresh.trans hn)
  · exact fun hps => by simp [hps, hsource] at hp
  · rintro rfl
    rw [hpart] at hp
    cases hp
    omega

theorem Copied.tasksFresh (h : Copied m r source destination w part image data w')
    (htasks : TasksFresh w) (hsource : source.dir = taskOf r w.fresh)
    (hdir : destination.dir = .opl root folder) : TasksFresh w' := by
  obtain ⟨n₀, hle, hlt, hpart⟩ := h.part_eq
  intro p base id hp hid
  rw [h.others p]
  · exact htasks p base id hp (h.fresh.trans hid)
  · rintro rfl
    rw [hsource] at hp
    cases hp
    omega
  · rintro rfl
    simp [hpart, Path.partialOf, hdir] at hp

end Copied

/-- Two instances that both get to the rename before one of them carries it out both return. -/
theorem exists_two_results (hmedia : r.disc.mediaType = .ps2Dvd5)
    (hreplace : r.replaceExisting = false)
    (hdest : destinationForGame r.oplRoot r.disc.mediaType r.disc.gameId r.title = .ok destination)
    (hfresh : HiddenFresh w) (htasks : TasksFresh w) (habsent : w.files destination = none)
    (hcurrent : consult m (reinspect r) = .ok current) (hready : ReadyDvd m r false) :
    ∃ t s, Weaves (drives fun _ : Bool => m) (installs (fun _ => m) (fun _ => r) w) t s ∧
      ∀ i, ∃ result, s.programs i = .pure result ∧ result.destination = some destination := by
  obtain ⟨⟨folder, hdir⟩, hhidden, -⟩ := destinationForGame_eq_ok hdest
  obtain ⟨part₁, image₁, data₁, w₁, h₁, hcopied₁⟩ :=
    leads_aboutToRename hmedia hreplace hdest hfresh htasks habsent hcurrent hready
  obtain ⟨n₁, hle₁, hlt₁, hpart₁⟩ := hcopied₁.part_eq
  have habsent₁ : w₁.files destination = none := by
    rw [hcopied₁.others, habsent]
    · exact fun h => by simpa [hdir] using congrArg Path.dir h
    · exact fun h => by simpa [hhidden, hpart₁, Path.partialOf] using congrArg Path.hidden h
  obtain ⟨part₂, image₂, data₂, w₂, h₂, hcopied₂⟩ :=
    leads_aboutToRename hmedia hreplace hdest (hcopied₁.hiddenFresh hfresh rfl)
      (hcopied₁.tasksFresh htasks rfl hdir) habsent₁ hcurrent hready
  obtain ⟨n₂, hle₂, -, hpart₂⟩ := hcopied₂.part_eq
  have hhidden₁ : part₁.hidden = some n₁ := by rw [hpart₁]; rfl
  have hhidden₂ : part₂.hidden = some n₂ := by rw [hpart₂]; rfl
  have hne : part₂ ≠ part₁ := fun h => by
    rw [h, hhidden₁] at hhidden₂
    cases hhidden₂
    omega
  have hvisible : ∀ {p : Path} {n : ℕ}, p.hidden = some n → destination ≠ p := fun hp h => by
    simp [← h, hhidden] at hp
  have hcopy₁ : w₂.files part₁ = some data₁ := by
    rw [hcopied₂.others part₁ (fun h => by simp [h] at hhidden₁) hne.symm, hcopied₁.copy]
  have hother : part₂.dir ≠ taskOf r w.fresh := by
    simp [hpart₂, Path.partialOf, hdir]
  have hretained : part₂ ≠ r.retainedPath destination.name := fun h => by
    simp [h, RipRequest.retainedPath] at hhidden₂
  -- the first instance renames its file while the second one is about to
  have hrest₁ : wp (calm m) (aboutToRename m.toExternals r
    { dir := taskOf r w.fresh, name := destination.name } destination part₁ image₁
    (m.hexdigest data₁)) _ _ w₂ :=
    calm_aboutToRename (hvisible hhidden₁) hcopy₁ hcopied₁.checks hcopied₁.sha
  obtain ⟨result₁, w₃, h₃, hresult₁, hcopy₂⟩ := calm_leads (wp_mono (wp_and hrest₁
    (wp_files_of_uses (A := fun _ c => c = {}) (aboutToRename_uses hne (hvisible hhidden₂).symm
      hother hretained))) (fun _ _ => id) fun _ _ => And.left)
  rw [hcopied₂.copy] at hcopy₂
  have hrest₂ : wp (calm m) (aboutToRename m.toExternals r
    { dir := taskOf r w₁.fresh, name := destination.name } destination part₂ image₂
    (m.hexdigest data₂)) _ _ w₃ :=
    calm_aboutToRename (hvisible hhidden₂) hcopy₂ hcopied₂.checks hcopied₂.sha
  obtain ⟨result₂, w₄, h₄, hresult₂⟩ := calm_leads hrest₂
  have hstart : Weaves (drives fun _ : Bool => m) (installs (fun _ => m) (fun _ => r) w) [] _ :=
    .start
  obtain ⟨t₁, hrun₁, -⟩ := hstart.leads (i := false) rfl h₁
  obtain ⟨t₂, hrun₂, -⟩ := hrun₁.leads (i := true) (by simp [installs]) h₂
  obtain ⟨t₃, hrun₃, -⟩ := hrun₂.leads (i := false) (by simp) h₃
  obtain ⟨t₄, hrun₄, -⟩ := hrun₃.leads (i := true) (by simp) h₄
  refine ⟨_, _, hrun₄, fun i => ?_⟩
  cases i
  · exact ⟨result₁, by simp, hresult₁⟩
  · exact ⟨result₂, by simp, hresult₂⟩

end Dvd

/-- One of two instances can run to its end alone. -/
theorem exists_alone {m : Machine} {r : RipRequest} (hfresh : HiddenFresh w) (htasks : TasksFresh w)
    (hready : Ready m r w) :
    ∃ t s, Weaves (drives fun _ : Bool => m) (installs (fun _ => m) (fun _ => r) w) t s ∧
      (∃ result, s.programs false = .pure result) ∧
      s.programs true = ripAndInstall m.toExternals r ∧ ∀ e ∈ t, e.party = false := by
  obtain ⟨result, w', hleads, -⟩ := calm_leads (wp_mono
    (calm_ripAndInstall (m := m) (r := r) hfresh htasks) (fun _ _ => id) fun _ _ h => h hready)
  have hstart : Weaves (drives fun _ : Bool => m) (installs (fun _ => m) (fun _ => r) w) [] _ :=
    .start
  obtain ⟨t, hrun, halone⟩ := hstart.leads (i := false) rfl hleads
  exact ⟨_, _, hrun, ⟨result, by simp⟩, by simp [installs], halone⟩

/-- **No lost game.** If every rename and every move to a shared path happens before another run has
filled it since the last look, then no run of several instances loses a file. -/
theorem nothing_lost (hreplace : ∀ i, (r i).replaceExisting = false)
    {s : Pool interface PyError InstallResult ι World}
    (hrun : Weaves (drives m) (installs m r w) t s) (hok : Meets InTime t) :
    NothingLost m w t s := by
  have hrun' := hrun.invariant (c := fun _ => discipline sharedFiles) (R := Accord w) (K := InTime)
    (Q := fun i result g' => Reports (m i).toExternals sharedFiles result g')
      (E := fun _ _ _ => True)
    (fun t g w i o r w' h hmay ⟨c, hc⟩ hok => by
      obtain ⟨rfl, rfl⟩ := Prod.mk.inj hc.symm
      exact h.step hmay hok)
    (fun i => wp_ripAndInstall_discipline (guarded_sharedFiles (hreplace i))) Accord.start hok
  obtain ⟨g, haccord, hwp⟩ := hrun'
  have owned : ∀ i result, s.programs i = .pure result → ∀ p ∈ result.files,
      p ∈ sharedFiles ∧ ∃ data, (p, data) ∈ (g i).placed ∧
        (result.destination = some p → result.destinationSha256 = some ((m i).hexdigest data)) := by
    intro i result hresult p hp
    have hreports := hwp i
    rw [hresult] at hreports
    obtain ⟨hdest, hbin, hcue⟩ := hreports
    by_cases hpd : result.destination = some p
    · obtain ⟨hshared, data, hplaced, hsha⟩ := hdest p hpd
      exact ⟨hshared, data, hplaced, fun _ => hsha hshared⟩
    · obtain ⟨hshared, data, hplaced⟩ : (g i).Owns p :=
        (hp.resolve_left hpd).elim (hbin p) (hcue p)
      exact ⟨hshared, data, hplaced, fun h => absurd h hpd⟩
  refine ⟨haccord.kept, fun i result hresult p hp => ?_,
    fun i j result result' hresult hresult' p hp hp' => ?_⟩
  · obtain ⟨hshared, data, hplaced, hsha⟩ := owned i result hresult p hp
    exact ⟨data, (haccord.agrees i).present p hshared data hplaced,
      haccord.logged i p hshared data hplaced, hsha⟩
  · by_contra hij
    obtain ⟨hshared, data, hplaced, -⟩ := owned i result hresult p hp
    obtain ⟨-, data', hplaced', -⟩ := owned j result' hresult' p hp'
    exact haccord.apart i j hij p hshared data data' hplaced hplaced'

/-- The first operation of the sample run. -/
theorem exists_ripAndInstall_sample : ∃ k, ripAndInstall (sampleMachine 0x10).toExternals
    (sampleRequest sampleDvd) = .call (.pathExists sampleDestination) k :=
  ⟨_, rfl⟩

/-- The theorem for two instances, of which one looks at the destination when the other one has run
to its end. -/
theorem nothing_lost_sample : ∃ t s, (∃ result, s.programs false = .pure result) ∧
    (∃ e ∈ t, e.party = true) ∧ NothingLost (fun _ : Bool => sampleMachine 0x10)
    World.blank t s := by
  obtain ⟨t, s, hrun, ⟨result, hresult⟩, hother, halone⟩ := exists_alone (m := sampleMachine 0x10)
    (r := sampleRequest sampleDvd) (w := World.blank) hiddenFresh_blank tasksFresh_blank
    ready_sampleDvd
  obtain ⟨k, hk⟩ := exists_ripAndInstall_sample
  have hlook := hrun.step (i := true) (hother.trans hk) ⟨{}, rfl⟩
  have htime : Meets InTime t := inTime_of_alone (m := fun _ => sampleMachine 0x10)
    (r := fun _ => sampleRequest sampleDvd) (fun _ => rfl) hrun halone
  refine ⟨_, _, ⟨result, ?_⟩, ⟨_, List.mem_append_right _ (List.mem_singleton_self _), rfl⟩,
    nothing_lost (m := fun _ => sampleMachine 0x10) (r := fun _ => sampleRequest sampleDvd)
      (fun _ => rfl) hlook (meets_append_singleton.2 ⟨htime, fun q _ h => h.elim⟩)⟩
  simp [hresult]

/-- Two instances can both report that they have installed the same game. -/
theorem not_nothing_lost : ¬ ∀ (m : Bool → Machine) (r : Bool → RipRequest) (w : World)
    (t : Log Bool) (s : Pool interface PyError InstallResult Bool World),
    (∀ i, (r i).replaceExisting = false) → Weaves (drives m) (installs m r w) t s →
    NothingLost m w t s := by
  intro hall
  obtain ⟨t, s, hrun, hresults⟩ := exists_two_results (m := sampleMachine 0x10)
    (r := sampleRequest sampleDvd) (w := World.blank) rfl rfl destinationForGame_sample
    hiddenFresh_blank tasksFresh_blank rfl
    (show consult (sampleMachine 0x10) (reinspect (sampleRequest sampleDvd)) =
      .ok sampleDvd from rfl)
    readyDvd_sample
  obtain ⟨result₁, h₁, hdest₁⟩ := hresults false
  obtain ⟨result₂, h₂, hdest₂⟩ := hresults true
  exact Bool.false_ne_true ((hall _ _ _ t s (fun _ => rfl) hrun).once false true _ _ h₁ h₂ _
    (.inl hdest₁) (.inl hdest₂))

end Ps2Ripper
