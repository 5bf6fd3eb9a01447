import Ps2Ripper.Core.Returns
import Ps2Ripper.Imaging.CueReader

/-!
# Which extent is ripped

`rip_and_install` inspects the disc again and compares the game and the type of the medium; what it
then rips is the extent of the identity it was given.  So the extent is the one of the disc in the
drive exactly when the two identities agree on it.

* `Rips`: the run got to the end of the step that reads the disc;
* `RippedExtent`: what was read, and what the CUE sheet says about it;
* `SameGeometry`: the condition.
-/

namespace Ps2Ripper

open Interactive Prog

/-! ### The stages of a run -/

/-- Where a run puts its files. -/
structure Places where
  name : String
  destination : Path
  task : Dir

namespace Places

variable (p : Places)

def source : Path := { dir := p.task, name := p.name }

def bin : Path := { dir := p.task, name := removeIsoSuffix p.name ++ ".bin" }

def cue : Path := { dir := p.task, name := removeIsoSuffix p.name ++ ".cue" }

end Places

/-- What `rip_and_install` does before its `try` statement. -/
def prepare (r : RipRequest) : Program Places := do
  let name ← Prog.lift (oplIsoFilename r.disc.gameId r.title)
  let destination ← Prog.lift
    (destinationForGame r.oplRoot r.disc.mediaType r.disc.gameId r.title)
  let present ← call (.pathExists destination)
  if present && !r.replaceExisting && !r.archiveOnly then Prog.raise (.fileExistsError destination)
  else
    call (.mkdir (.temporary r.settings.temporaryDirectory))
    let id ← call (.mkdtemp r.settings.temporaryDirectory)
    return { name, destination, task := .task r.settings.temporaryDirectory id }

/-- The step that reads the disc. -/
def ripStep (ext : Externals) (r : RipRequest) (p : Places) : Program ImageResult :=
  match r.disc.mediaType with
  | .ps2Dvd5 | .ps2Dvd9 =>
    ripDvdIso ext p.source r.disc.totalSectors r.progress r.settings.readChunkSectors
      r.settings.maximumRetries
  | .ps2Cd =>
    ripCdBinCue ext p.bin p.cue r.disc.tracks r.progress r.cdChunk r.settings.maximumRetries
  | _ => Prog.raise (.validationError "The selected media is not a recognized PS2 CD/DVD.")

/-- What follows the step that reads the disc. -/
def afterRip (ext : Externals) (r : RipRequest) (p : Places) (image : ImageResult) :
    Program InstallResult :=
  match r.disc.mediaType with
  | .ps2Dvd5 | .ps2Dvd9 =>
    (install ext r p.source p.destination image none).tryFinally (cleanup r p.task (some p.source))
  | .ps2Cd => do
    let (rawResult, trackNumber) ← onRaise (do
      let trackNumber ← findPs2CdTrack r.disc.gameId r.disc.tracks
      return (image, trackNumber)) (cleanup r p.task none)
    if r.archiveOnly then
      (archiveCd r (removeIsoSuffix p.name) p.bin p.cue rawResult).tryFinally
        (cleanup r p.task none)
    else
      (installCd ext r (removeIsoSuffix p.name) p.bin p.cue p.source p.destination
        trackNumber).tryFinally (cleanup r p.task (some p.source))
  | _ => Prog.raise (.validationError "The selected media is not a recognized PS2 CD/DVD.")

theorem ripAndInstall_eq (ext : Externals) (r : RipRequest) :
    ripAndInstall ext r = prepare r >>= fun p => ripInTask ext r p.name p.destination p.task := by
  simp only [ripAndInstall, prepare, Prog.bind_assoc]
  congr! 6 with name destination present
  split
  · rfl
  · simp only [Prog.bind_assoc, return_bind]

/-- The run gets to the end of the step that reads the disc: the second inspection returned
`current`, and the step led from `w₁` to `w₂`. -/
structure Rips (m : Machine) (σ : Oracle) (r : RipRequest) (w : World) (current : DiscIdentity)
    (w₁ w₂ : World) where
  places : Places
  image : ImageResult
  start : World
  times : ℕ × ℕ × ℕ
  prepared : run (handlers m σ) (prepare r) 0 w = ⟨.ok places, start, times.1⟩
  inspected : run (handlers m σ) (reinspect r) times.1 start = ⟨.ok current, w₁, times.2.1⟩
  ripped : run (handlers m σ) (ripStep m.toExternals r places) times.2.1 w₁ =
    ⟨.ok image, w₂, times.2.2⟩

variable {m : Machine} {A : Op → Choice → Prop} {σ : Oracle} {r : RipRequest}
  {current : DiscIdentity} {w w₁ w₂ : World}

/-- The three stages are the beginning of the run. -/
theorem Rips.execute_eq (h : Rips m σ r w current w₁ w₂) :
    execute m σ (ripAndInstall m.toExternals r) w =
      run (handlers m σ) (afterRip m.toExternals r h.places h.image) h.times.2.2 w₂ := by
  have hinspected : run (handlers m σ) (onRaise (reinspect r) (cleanup r h.places.task none))
      h.times.1 h.start = ⟨.ok current, w₁, h.times.2.1⟩ := run_tryCatch_of_ok h.inspected
  rw [execute, ripAndInstall_eq, run_bind_of_ok h.prepared, ripInTask, run_bind_of_ok hinspected]
  have hripped := h.ripped
  unfold ripStep at hripped
  unfold afterRip
  cases hmedia : r.disc.mediaType <;> simp only [hmedia] at hripped ⊢
  case ps2Dvd5 => exact run_bind_tryFinally_of_ok hripped
  case ps2Dvd9 => exact run_bind_tryFinally_of_ok hripped
  case ps2Cd =>
    have hcd : run (handlers m σ) (onRaise (ripCd m.toExternals r h.places.bin h.places.cue)
        (cleanup r h.places.task none)) h.times.2.1 w₁ = _ := run_bind_tryCatch_of_ok hripped
    exact run_bind_congr hcd
  all_goals cases hripped

/-! ### What the two inspections agree on -/

theorem Contiguous.tail {track : CDTrack} {tracks : List CDTrack}
    (h : Contiguous (track :: tracks)) :
    Contiguous tracks :=
  List.IsChain.tail h

theorem length_sectorsFrom (kind : Option TrackKind) (lba count : ℕ) :
    (sectorsFrom kind lba count).length = count := by
  simp [sectorsFrom]

theorem trackSectors_cons (track : CDTrack) (tracks : List CDTrack) :
    trackSectors (track :: tracks) =
      sectorsFrom (some track.kind) track.startLba track.sectors ++ trackSectors tracks :=
  List.flatMap_cons

theorem CDTrack.eq_of {a b : CDTrack} (number : a.number = b.number) (kind : a.kind = b.kind)
    (start : a.startLba = b.startLba) (last : a.endLba = b.endLba)
    (index : a.fileIndexLba = b.fileIndexLba) (pregap : a.pregapFrames = b.pregapFrames) :
    a = b := by
  cases a
  cases b
  simp_all

/-- Contiguous tracks are determined by their starts and their sectors. -/
theorem eq_of_trackSectors {tracks tracks' : List CDTrack} (h : Contiguous tracks)
    (h' : Contiguous tracks')
    (hstarts : tracks.map
      (fun t => (t.number, t.kind, t.startLba, t.fileIndexLba, t.pregapFrames)) =
      tracks'.map fun t => (t.number, t.kind, t.startLba, t.fileIndexLba, t.pregapFrames))
    (hsectors : trackSectors tracks = trackSectors tracks') : tracks = tracks' := by
  induction tracks generalizing tracks' with
  | nil => exact (List.map_eq_nil_iff.1 hstarts.symm).symm
  | cons track rest ih =>
    cases tracks' with
    | nil => cases hstarts
    | cons track' rest' =>
      simp only [List.map_cons, List.cons.injEq, Prod.mk.injEq] at hstarts
      obtain ⟨⟨hnumber, hkind, hstart, hindex, hpregap⟩, hrest⟩ := hstarts
      -- A track ends where the next one starts; the last one ends with the sectors.
      have hend : track.endLba = track'.endLba := by
        have hle := track.start_le_end
        have hle' := track'.start_le_end
        cases rest with
        | nil =>
          have hnil : rest' = [] := List.map_eq_nil_iff.1 hrest.symm
          subst hnil
          have hlength := congrArg List.length hsectors
          simp only [trackSectors_cons, List.length_append, length_sectorsFrom,
            CDTrack.sectors] at hlength
          omega
        | cons next others =>
          cases rest' with
          | nil => cases hrest
          | cons next' others' =>
            have hnext := (List.isChain_cons_cons.1 h).1
            have hnext' := (List.isChain_cons_cons.1 h').1
            simp only [List.map_cons, List.cons.injEq, Prod.mk.injEq] at hrest
            omega
      have htrack : track = track' := CDTrack.eq_of hnumber hkind hstart hend hindex hpregap
      subst htrack
      rw [trackSectors_cons, trackSectors_cons] at hsectors
      rw [ih h.tail h'.tail hrest (List.append_cancel_left hsectors)]

/-- The entries of a sheet for these tracks. -/
def cueEntries (tracks : List CDTrack) : List CueTrack :=
  tracks.map fun track => {
    number := track.number
    kind := track.kind
    pregap := none
    index := .ofFrames (track.startLba - (tracks.head?.map (·.startLba)).getD 0) }

/-- What was read between two worlds is the extent of a disc, and the sheet of a CD says so. -/
def RippedExtent (current : DiscIdentity) (w w' : World) : Prop :=
  match current.mediaType with
  | .ps2Dvd5 | .ps2Dvd9 =>
    w'.sectorsRead = w.sectorsRead ++ sectorsFrom none 0 current.totalSectors
  | .ps2Cd =>
    w'.sectorsRead = w.sectorsRead ++ trackSectors current.tracks ∧
      ∃ cue data sheet, w'.texts = w.texts ++ [(cue, data)] ∧ readCue data = some sheet ∧
        sheet.tracks = cueEntries current.tracks
  | _ => False

/-- The two inspections agree on the extent. -/
def SameGeometry (old current : DiscIdentity) : Prop :=
  match current.mediaType with
  | .ps2Dvd5 | .ps2Dvd9 => old.totalSectors = current.totalSectors
  | .ps2Cd => old.tracks = current.tracks
  | _ => False

theorem TrackLayout.map_ofTrack {tracks : List CDTrack} (h : TrackLayout tracks) {first : CDTrack}
    (hfirst : tracks.head? = some first) :
    (adjustTracks first.startLba tracks).map CueTrack.ofTrack = cueEntries tracks := by
  rw [adjustTracks, cueEntries, List.map_map]
  refine List.map_congr_left fun track htrack => ?_
  simp only [Function.comp_apply, CueTrack.ofTrack, hfirst, Option.map_some, Option.getD_some,
    h.pregap track htrack, ne_eq, not_true_eq_false, if_false]
  congr
  omega

theorem Msf.ofFrames_injective : Function.Injective Msf.ofFrames := fun a b h => by
  have hoffset := congrArg Msf.byteOffset h
  rw [Msf.byteOffset_ofFrames, Msf.byteOffset_ofFrames] at hoffset
  omega

theorem head?_trackSectors (track : CDTrack) (tracks : List CDTrack) :
    (trackSectors (track :: tracks)).head? = some (track.startLba, some track.kind) := by
  rw [trackSectors_cons, CDTrack.sectors, sectorsFrom, List.range'_succ]
  rfl

/-- The sectors and the entries of a sheet determine the tracks. -/
theorem TrackLayout.eq_of_entries {tracks tracks' : List CDTrack} (h : TrackLayout tracks)
    (h' : TrackLayout tracks') (hsectors : trackSectors tracks = trackSectors tracks')
    (hentries : cueEntries tracks = cueEntries tracks') : tracks = tracks' := by
  cases tracks with
  | nil => exact (List.map_eq_nil_iff.1 hentries.symm).symm
  | cons first rest =>
    cases tracks' with
    | nil => cases hentries
    | cons first' rest' =>
      -- The entries give the positions from the first sector on, and that is the first one of the
      -- list.
      have hfirst : first.startLba = first'.startLba := by
        have hhead := congrArg List.head? hsectors
        rw [head?_trackSectors, head?_trackSectors] at hhead
        exact congrArg Prod.fst (Option.some.inj hhead)
      refine eq_of_trackSectors h.contiguous h'.contiguous (List.ext_getElem? fun i => ?_) hsectors
      have hi := congrArg (fun entries => entries[i]?) hentries
      simp only [cueEntries, List.head?_cons, Option.map_some, Option.getD_some,
        List.getElem?_map] at hi ⊢
      cases htrack : (first :: rest)[i]? with
      | none =>
        rw [htrack, Option.map_none] at hi
        rw [Option.map_eq_none_iff.1 hi.symm]
      | some track =>
        rw [htrack, Option.map_some] at hi
        obtain ⟨track', htrack', hentry⟩ := Option.map_eq_some_iff.1 hi.symm
        simp only [CueTrack.mk.injEq, true_and] at hentry
        obtain ⟨hnumber, hkind, hindex⟩ := hentry
        have hle := h.first_le rfl (List.mem_of_getElem? htrack)
        have hle' := h'.first_le rfl (List.mem_of_getElem? htrack')
        have hdiff := Msf.ofFrames_injective hindex
        have hstart : track.startLba = track'.startLba := by omega
        rw [htrack', Option.map_some, Option.map_some,
          h.fileIndex first rfl track (List.mem_of_getElem? htrack),
          h'.fileIndex first' rfl track' (List.mem_of_getElem? htrack'),
          h.pregap track (List.mem_of_getElem? htrack),
          h'.pregap track' (List.mem_of_getElem? htrack'), hnumber, hkind, hstart, hfirst]

/-! ### The extent of a run -/

theorem ensures_reinspect :
    ensures (allowing m A) (reinspect r) (fun current _ =>
      TrackLayout current.tracks ∧ current.mediaType = r.disc.mediaType) w := by
  refine ensures_bind (ensures_true allowing_permissive _) fun _ _ _ =>
    ensures_bind ensures_inspectDisc fun current w₁ hlayout => ?_
  split
  · trivial
  · rename_i hsame
    exact ensures_return ⟨hlayout, by simp_all⟩

theorem Rips.inspectedAgain (h : Rips m σ r w current w₁ w₂) :
    TrackLayout current.tracks ∧ current.mediaType = r.disc.mediaType :=
  of_run_eq_ok ensures_reinspect h.inspected

/-- The step that reads the disc rips the extent that the given identity asks for. -/
theorem Rips.extent (hlayout : TrackLayout r.disc.tracks) (h : Rips m σ r w current w₁ w₂) :
    RippedExtent r.disc w₁ w₂ := by
  have hrun := h.ripped
  unfold ripStep at hrun
  unfold RippedExtent
  cases hmedia : r.disc.mediaType <;> simp only [hmedia] at hrun ⊢
  case ps2Dvd5 => exact (of_run_eq_ok ensures_ripDvdIso hrun).2.2.1
  case ps2Dvd9 => exact (of_run_eq_ok ensures_ripDvdIso hrun).2.2.1
  case ps2Cd =>
    have hne : h.places.bin ≠ h.places.cue := by simp [Places.bin, Places.cue]
    obtain ⟨-, -, hsectors, -, first, text, hfirst, htext, htexts, -⟩ :=
      of_run_eq_ok (ensures_ripCdBinCue hne) hrun
    exact ⟨hsectors, _, _, _, htexts, readCue_generateCue htext, hlayout.map_ofTrack hfirst⟩
  all_goals cases hrun

/-- Two identities of one kind of disc agree on what was ripped exactly when they agree on its
geometry. -/
theorem rippedExtent_iff {old : DiscIdentity} (hold : TrackLayout old.tracks)
    (hcurrent : TrackLayout current.tracks) (hmedia : current.mediaType = old.mediaType)
    (h : RippedExtent old w₁ w₂) : RippedExtent current w₁ w₂ ↔ SameGeometry old current := by
  -- For a DVD the extent is the number of the sectors.
  have hdvd : ∀ {a b : ℕ}, w₂.sectorsRead = w₁.sectorsRead ++ sectorsFrom none 0 a →
      (w₂.sectorsRead = w₁.sectorsRead ++ sectorsFrom none 0 b ↔ a = b) := by
    intro a b ha
    constructor
    · intro hb
      have hlength := congrArg List.length (List.append_cancel_left (ha.symm.trans hb))
      rwa [length_sectorsFrom, length_sectorsFrom] at hlength
    · rintro rfl
      exact ha
  unfold RippedExtent at h ⊢
  unfold SameGeometry
  rw [hmedia]
  cases hkind : old.mediaType <;> simp only [hkind] at h ⊢
  case ps2Dvd5 => exact hdvd h
  case ps2Dvd9 => exact hdvd h
  case ps2Cd =>
    obtain ⟨hsectors, cue, data, sheet, htexts, hread, hentries⟩ := h
    constructor
    · rintro ⟨hsectors', cue', data', sheet', htexts', hread', hentries'⟩
      have heq := List.append_cancel_left (htexts.symm.trans htexts')
      simp only [List.cons.injEq, Prod.mk.injEq, and_true] at heq
      obtain ⟨-, rfl⟩ := heq
      rw [hread] at hread'
      cases hread'
      exact hold.eq_of_entries hcurrent
        (List.append_cancel_left (hsectors.symm.trans hsectors'))
        (hentries.symm.trans hentries')
    · intro htracks
      rw [← htracks]
      exact ⟨hsectors, cue, data, sheet, htexts, hread, hentries⟩

/-! ### A disc that was changed -/

theorem calm_prepare {name : String} {destination : Path}
    (hname : oplIsoFilename r.disc.gameId r.title = .ok name)
    (hdest : destinationForGame r.oplRoot r.disc.mediaType r.disc.gameId r.title = .ok destination)
    (habsent : w.files destination = none) :
    wp (calm m) (prepare r) (fun p w' => p = ⟨name, destination, taskOf r w.fresh⟩ ∧
      w'.files = w.files ∧ w'.fresh = w.fresh + 1) (fun _ _ => False) w := by
  rw [prepare, hname, hdest, lift_ok, pure_bind, lift_ok, pure_bind]
  refine wp_seq calm_pathExists ?_ fun _ _ => id
  rintro present w₁ ⟨rfl, rfl⟩
  rw [habsent, if_neg (by simp)]
  refine wp_seq (calm_call (Q := fun _ w' => w' = w₁) rfl rfl) ?_ fun _ _ => id
  rintro _ w₂ rfl
  refine wp_seq (calm_call (Q := fun k w' => k = w₂.fresh ∧ w'.files = w₂.files ∧
    w'.fresh = w₂.fresh + 1) rfl ⟨rfl, rfl, rfl⟩) ?_ fun _ _ => id
  rintro id w₃ ⟨rfl, hfiles⟩
  exact ⟨rfl, hfiles⟩

/-- A DVD is ripped as soon as the second inspection finds the game on it. -/
theorem exists_rips_dvd {destination : Path} (hmedia : r.disc.mediaType = .ps2Dvd5)
    (hdest : destinationForGame r.oplRoot r.disc.mediaType r.disc.gameId r.title = .ok destination)
    (habsent : w.files destination = none) (htasks : TasksFresh w)
    (hcurrent : consult m (reinspect r) = .ok current)
    (hfree : r.disc.totalSectors * 2048 ≤ m.free (.temporary r.settings.temporaryDirectory)) :
    ∃ w₁ w₂, Nonempty (Rips m noFaults r w current w₁ w₂) := by
  obtain ⟨-, -, hname⟩ := destinationForGame_eq_ok hdest
  obtain ⟨places, start, n₀, hprepared, rfl, hfiles, -⟩ :=
    exists_run_eq_ok (n := 0) (calm_prepare (m := m) hname hdest habsent)
  have hreinspect : wp (calm m) (reinspect r) (fun a w' => a = current ∧ w'.files = w.files)
      (fun _ _ => False) start := by
    refine wp_mono (calm_consult reinspect_within) ?_ fun _ _ h => h current hcurrent
    rintro a w' ⟨ha, hframe⟩
    rw [hcurrent] at ha
    cases ha
    exact ⟨rfl, hframe.files_eq.trans hfiles⟩
  obtain ⟨a, w₁, n₁, hinspected, rfl, hfiles₁⟩ := exists_run_eq_ok (n := n₀) hreinspect
  have hstep : wp (calm m)
      (ripStep m.toExternals r ⟨destination.name, destination, taskOf r w.fresh⟩)
      (fun _ _ => True) (fun _ _ => False) w₁ := by
    unfold ripStep
    rw [hmedia]
    refine wp_mono (calm_ripDvdIso ?_) (fun _ _ _ => trivial) fun _ _ h => h hfree
    rw [hfiles₁]
    exact htasks _ _ _ rfl le_rfl
  obtain ⟨image, w₂, n₂, hripped, -⟩ := exists_run_eq_ok (n := n₁) hstep
  exact ⟨w₁, w₂, ⟨_, image, start, (n₀, n₁, n₂), hprepared, hinspected, hripped⟩⟩

/-- An earlier pressing of the sample DVD, with 32 sectors. -/
def oldDvd : DiscIdentity := { sampleDvd with totalSectors := 32 }

def oldMachine : Machine :=
  { sampleMachine 0x10 with
    disc := { sampleDisc 0x10 with capacity := [0, 0, 0, 31, 0, 0, 8, 0] } }

theorem consult_inspectDisc_old : consult oldMachine inspectDisc = .ok oldDvd := by
  decide +kernel

theorem inspected_oldDvd : Inspected oldDvd :=
  ⟨oldMachine, noFaults, World.blank, result_of_consult inspectDisc_within consult_inspectDisc_old⟩

theorem exists_rips_oldDvd : ∃ w₁ w₂, Nonempty
    (Rips (sampleMachine 0x10) noFaults (sampleRequest oldDvd) World.blank sampleDvd w₁ w₂) :=
  exists_rips_dvd rfl destinationForGame_sample rfl tasksFresh_blank rfl
    (by show 32 * 2048 ≤ 1000000; decide)

/-- **Which disc's geometry is used.** The extent that a run rips is the one of the disc in the
drive exactly when the earlier inspection found the same extent. -/
theorem ripped_extent_iff (hold : Inspected r.disc) (h : Rips m σ r w current w₁ w₂) :
    RippedExtent current w₁ w₂ ↔ SameGeometry r.disc current :=
  have ⟨hcurrent, hmedia⟩ := h.inspectedAgain
  rippedExtent_iff hold.layout hcurrent hmedia (h.extent hold.layout)

/-- The theorem for the earlier pressing. -/
theorem ripped_extent_iff_sample : ∃ w₁ w₂,
    RippedExtent sampleDvd w₁ w₂ ↔ SameGeometry oldDvd sampleDvd := by
  obtain ⟨w₁, w₂, ⟨h⟩⟩ := exists_rips_oldDvd
  exact ⟨w₁, w₂, ripped_extent_iff inspected_oldDvd h⟩

/-- A disc with another number of sectors is ripped with the old number. -/
theorem not_current_geometry : ¬ ∀ (m : Machine) (σ : Oracle) (r : RipRequest) (w : World)
    (current : DiscIdentity) (w₁ w₂ : World), Inspected r.disc → Rips m σ r w current w₁ w₂ →
    RippedExtent current w₁ w₂ := by
  intro hall
  obtain ⟨w₁, w₂, ⟨h⟩⟩ := exists_rips_oldDvd
  have hextent := hall _ _ _ _ _ w₁ w₂ inspected_oldDvd h
  obtain ⟨hcurrent, hmedia⟩ := h.inspectedAgain
  have hsame : 32 = 24 := (rippedExtent_iff inspected_oldDvd.layout hcurrent hmedia
    (h.extent inspected_oldDvd.layout)).1 hextent
  exact absurd hsame (by decide)

end Ps2Ripper
