import Ps2Ripper.Core.Returns

/-!
# A reported success is a success

A run of `rip_and_install` that returns a destination has put the image of the disc there, whatever
the destination drive did with the bytes.  Two things carry the proof: the digest that the ripping
step computes is the digest of what the drive delivered, because the local files store what is
written to them, and the last step compares that digest with a digest of the published file.
-/

namespace Ps2Ripper

open Interactive Prog

/-- Writes below the temporary directory store all bytes or raise. -/
def StoresLocally (o : Op) (c : Choice) : Prop :=
  match o with
  | .write p _ | .writeText p _ => p.dir.isLocal = true → c.fault = none → c.stored = none
  | _ => True

theorem stores_of_isLocal {p : Path} (h : p.dir.isLocal = true) : Stores StoresLocally p := by
  rintro data c (hc | hc) hfault
  · exact hc h hfault
  · exact hc h hfault

/-- The track that is converted: the first one with the number of a track that holds the game. -/
def ChosenTrack (m : Machine) (disc : DiscIdentity) (track : CDTrack) : Prop :=
  ∃ found ∈ disc.tracks, found.kind ≠ .audio ∧ HoldsGame m disc.gameId found ∧
    disc.tracks.find? (·.number = found.number) = some track ∧ track.kind ≠ .audio

/-- The 2048-byte image of the inserted disc, as far as the identity asks for it. -/
def IsImage (m : Machine) (disc : DiscIdentity) (image : Bytes) : Prop :=
  match disc.mediaType with
  | .ps2Dvd5 | .ps2Dvd9 => image = m.disc.blocks 0 disc.totalSectors
  | .ps2Cd => ∃ track, ChosenTrack m disc track ∧
      m.disc.userData track.startLba track.sectors = some image
  | _ => False

/-- The result tells the truth about the file at `destination`. -/
def Installed (m : Machine) (disc : DiscIdentity) (destination : Path) (result : InstallResult)
    (w : World) : Prop :=
  ∃ image, IsImage m disc image ∧ w.files destination = some image ∧
    result.sourceSha256 = m.hexdigest image ∧
    result.destinationSha256 = some (m.hexdigest image) ∧ result.sourceSize = image.length

variable {m : Machine} {r : RipRequest} {w : World}

theorem Installed.of_files {destination : Path} {result : InstallResult} {w' : World}
    (h : Installed m r.disc destination result w)
    (hw : w'.files destination = w.files destination) :
    Installed m r.disc destination result w' := by
  obtain ⟨image, himage, hfile, h⟩ := h
  exact ⟨image, himage, hw.trans hfile, h⟩

/-- The comparison of digests makes up for everything between the image and the destination. -/
theorem ensures_install_installed (collision : Function.Injective m.hexdigest) {source : Path}
    {destination : Path} {image : ImageResult} {archive : Option (Path × Path)} {data : Bytes}
    (hdata : IsImage m r.disc data) (hsha : image.sha256 = m.hexdigest data)
    (hsize : image.size = data.length) :
    ensures (allowing m StoresLocally) (install m.toExternals r source destination image archive)
      (fun result w' => result.destination = some destination ∧
        Installed m r.disc destination result w') w := by
  refine ensures_mono ensures_install ?_
  rintro result w' ⟨hdest, hsource, hdestination, hresult, stored, hstored, hdigest⟩
  have heq : stored = data := collision (hdigest.trans hsha)
  subst heq
  exact ⟨hdest, stored, hdata, hstored, hsource.trans hsha, by rw [hdestination, hsha],
    hresult.trans hsize⟩

theorem ensures_installDvd (collision : Function.Injective m.hexdigest) {source destination : Path}
    (hsource : source.dir.isLocal = true)
    (hmedia : ∀ data, data = m.disc.blocks 0 r.disc.totalSectors → IsImage m r.disc data) :
    ensures (allowing m StoresLocally) (installDvd m.toExternals r source destination)
      (fun result w' => result.destination = some destination ∧
        Installed m r.disc destination result w') w := by
  refine ensures_bind ensures_ripDvdIso ?_
  rintro image w₁ ⟨-, hsha, -, hstored⟩
  obtain ⟨-, hsize⟩ := hstored (stores_of_isLocal hsource)
  exact ensures_install_installed collision (hmedia _ rfl) hsha hsize

theorem ensures_ripCd {bin cue : Path} (hbin : bin.dir.isLocal = true) (hne : bin ≠ cue) :
    ensures (allowing m StoresLocally) (ripCd m.toExternals r bin cue) (fun x w' =>
      w'.files bin = some (m.disc.trackBytes r.disc.tracks) ∧
        ∃ found ∈ r.disc.tracks, found.number = x.2 ∧ found.kind ≠ .audio ∧
          HoldsGame m r.disc.gameId found) w := by
  refine ensures_bind (ensures_ripCdBinCue hne) ?_
  rintro image w₁ ⟨-, -, -, hstored, -⟩
  obtain ⟨hfile, -⟩ := hstored (stores_of_isLocal hbin)
  refine ensures_bind (ensures_frame (R := ∅) (T := ∅) findPs2CdTrack_within
    ensures_findPs2CdTrack) ?_
  rintro number w₂ ⟨hfound, hframe⟩
  exact ensures_return ⟨by rw [hframe.files_eq, hfile], hfound⟩

theorem ensures_installCd (collision : Function.Injective m.hexdigest)
    (hlayout : TrackLayout r.disc.tracks) (hmedia : r.disc.mediaType = .ps2Cd) {stem : String}
    {bin cue source destination : Path} {number : ℕ} (hsource : source.dir.isLocal = true)
    (hbin : w.files bin = some (m.disc.trackBytes r.disc.tracks))
    (hfound : ∃ found ∈ r.disc.tracks, found.number = number ∧ found.kind ≠ .audio ∧
      HoldsGame m r.disc.gameId found) :
    ensures (allowing m StoresLocally)
      (installCd m.toExternals r stem bin cue source destination number)
      (fun result w' => result.destination = some destination ∧
        Installed m r.disc destination result w') w := by
  refine ensures_bind (ensures_convertCdDataTrackToIso hbin) ?_
  rintro image w₁ ⟨-, track, first, data, htrack, hfirst, hkind, -, hdata, hsha, hstored⟩
  obtain ⟨-, hsize⟩ := hstored (stores_of_isLocal hsource)
  obtain ⟨rest, hrest⟩ := m.disc.drop_trackBytes hlayout.contiguous hfirst
    (List.mem_of_find?_eq_some htrack)
  rw [hrest, convertBytes_raws] at hdata
  obtain ⟨found, hmem, rfl, haudio, hholds⟩ := hfound
  have himage : IsImage m r.disc data := by
    simp only [IsImage, hmedia]
    exact ⟨track, ⟨found, hmem, haudio, hholds, htrack, hkind⟩, hdata⟩
  refine ensures_bind (ensures_true allowing_permissive _) fun archive w₂ _ => ?_
  exact ensures_install_installed collision himage hsha hsize

theorem ensures_ripInTask (collision : Function.Injective m.hexdigest)
    (hlayout : TrackLayout r.disc.tracks) {name : String} {destination : Path} {task : Dir}
    (htask : task.isLocal = true) (hdest : destination.dir.isLocal = false) :
    ensures (allowing m StoresLocally) (ripInTask m.toExternals r name destination task)
      (fun result w' => (result.destination = some destination ∧
          Installed m r.disc destination result w') ∨
        (result.destination = none ∧ r.archiveOnly = true)) w := by
  -- The cleanup does not touch what was installed.
  have finish : ∀ {w : World} {result : InstallResult} {source : Option Path},
      (∀ p ∈ source, p.dir.isLocal = true) →
      (result.destination = some destination ∧ Installed m r.disc destination result w) →
      ensures (allowing m StoresLocally) (cleanup r task source) (fun _ w' =>
        (result.destination = some destination ∧ Installed m r.disc destination result w') ∨
        (result.destination = none ∧ r.archiveOnly = true)) w := by
    rintro w result source hsource ⟨hresult, hinstalled⟩
    refine ensures_mono (ensures_of_wp (wp_kept (cleanup_altersOnly htask hsource))) ?_
    intro _ w' hw
    have hfile := hw.files destination fun h => by simp_all [localFiles]
    exact .inl ⟨hresult, hinstalled.of_files hfile⟩
  refine ensures_bind (ensures_onRaise (ensures_true allowing_permissive _)) fun current w₁ _ => ?_
  have hdvd : (∀ data, data = m.disc.blocks 0 r.disc.totalSectors → IsImage m r.disc data) →
      ensures (allowing m StoresLocally)
        ((installDvd m.toExternals r { dir := task, name } destination).tryFinally
          (cleanup r task (some { dir := task, name }))) (fun result w' =>
        (result.destination = some destination ∧ Installed m r.disc destination result w') ∨
        (result.destination = none ∧ r.archiveOnly = true))
        w₁ := fun hmedia =>
    ensures_tryFinally allowing_permissive (ensures_installDvd collision htask hmedia)
      fun result w₂ h => finish (by simpa using htask) h
  cases hmedia : r.disc.mediaType with
  | ps2Dvd5 => exact hdvd fun data hdata => by simpa [IsImage, hmedia] using hdata
  | ps2Dvd9 => exact hdvd fun data hdata => by simpa [IsImage, hmedia] using hdata
  | ps2Cd =>
    have hne : (⟨task, removeIsoSuffix name ++ ".bin", none⟩ : Path) ≠
        ⟨task, removeIsoSuffix name ++ ".cue", none⟩ := by simp
    refine ensures_bind (ensures_onRaise (ensures_ripCd htask hne)) ?_
    rintro ⟨rawResult, number⟩ w₂ ⟨hbin, hfound⟩
    dsimp only
    split
    · rename_i honly
      refine ensures_tryFinally (Q := fun result _ => result.destination = none)
        allowing_permissive ?_ fun result w₃ h => ?_
      · exact ensures_bind (ensures_true allowing_permissive _) fun _ _ _ => ensures_return rfl
      · exact ensures_mono (ensures_true allowing_permissive _) fun _ _ _ => .inr ⟨h, honly⟩
    · exact ensures_tryFinally allowing_permissive
        (ensures_installCd collision hlayout hmedia htask hbin hfound)
        fun result w₃ h => finish (by simpa using htask) h
  | _ => exact ensures_onRaise trivial

theorem ensures_ripAndInstall (collision : Function.Injective m.hexdigest)
    (hlayout : TrackLayout r.disc.tracks) :
    ensures (allowing m StoresLocally) (ripAndInstall m.toExternals r) (fun result w' =>
      (∃ destination, result.destination = some destination ∧
        destinationForGame r.oplRoot r.disc.mediaType r.disc.gameId r.title = .ok destination ∧
        Installed m r.disc destination result w') ∨
      (result.destination = none ∧ r.archiveOnly = true)) w := by
  refine ensures_bind (ensures_true allowing_permissive _) fun name w₁ _ => ?_
  refine ensures_bind (Q := fun p _ => destinationForGame r.oplRoot r.disc.mediaType r.disc.gameId
    r.title = .ok p) (ensures_lift fun p hp => hp) fun p w₂ hp => ?_
  have hlocal : p.dir.isLocal = false := by
    obtain ⟨⟨folder, hdir⟩, -, -⟩ := destinationForGame_eq_ok hp
    rw [hdir]
    rfl
  refine ensures_bind (ensures_true allowing_permissive _) fun present w₃ _ => ?_
  refine Or.elim (em ((present && !r.replaceExisting && !r.archiveOnly) = true))
    (fun h => by rw [if_pos h]; trivial) fun h => ?_
  rw [if_neg h]
  refine ensures_bind (ensures_true allowing_permissive _) fun _ w₄ _ => ?_
  refine ensures_bind (ensures_true allowing_permissive _) fun id w₅ _ => ?_
  refine ensures_mono (ensures_ripInTask collision hlayout rfl hlocal) ?_
  rintro result w' (⟨hresult, h⟩ | h)
  · exact .inl ⟨p, hresult, hp, h⟩
  · exact .inr h

/-- **No false success.**  If a run returns a destination, the file there is the image of the disc,
and the result carries its digest and its length. -/
theorem installed_of_result (collision : Function.Injective m.hexdigest) (hdisc : Inspected r.disc)
    {σ : Oracle} (hσ : ∀ n o, StoresLocally o (σ n o)) {result : InstallResult} {destination : Path}
    (hrun : (execute m σ (ripAndInstall m.toExternals r) w).result = .ok result)
    (hdest : result.destination = some destination) :
    Installed m r.disc destination result
      (execute m σ (ripAndInstall m.toExternals r) w).world := by
  have h := (run_of_wp (allowing_admits hσ)
    (ensures_ripAndInstall collision hdisc.layout)).1 result hrun
  obtain ⟨p, hp, -, h⟩ | ⟨hnone, -⟩ := h
  · rw [hdest] at hp
    cases hp
    exact h
  · rw [hdest] at hnone
    cases hnone

theorem storesLocally_noFaults (n : ℕ) (o : Op) : StoresLocally o (noFaults n o) := by
  cases o <;> first | trivial | exact fun _ _ => rfl

/-- The sample DVD is installed. -/
theorem installed_of_result_sample : ∃ result destination,
    result.destination = some destination ∧
      Installed (sampleMachine 0x10) sampleDvd destination result
        (execute (sampleMachine 0x10) noFaults (ripAndInstall (sampleMachine 0x10).toExternals
          (sampleRequest sampleDvd)) World.blank).world := by
  obtain ⟨result, hrun⟩ :=
    (returns_iff_ready hiddenFresh_blank tasksFresh_blank).2 ready_sampleDvd
  have hinjective : Function.Injective (sampleMachine 0x10).hexdigest := sampleDigest_injective _
  obtain ⟨destination, hdest, -, -⟩ | ⟨-, honly⟩ :=
    (run_of_wp (allowing_admits storesLocally_noFaults) (ensures_ripAndInstall
      (m := sampleMachine 0x10) (r := sampleRequest sampleDvd) (w := World.blank) hinjective
      inspected_sampleDvd.layout)).1 result hrun
  · exact ⟨result, destination, hdest, installed_of_result (r := sampleRequest sampleDvd) hinjective
      inspected_sampleDvd storesLocally_noFaults hrun hdest⟩
  · cases honly

end Ps2Ripper
