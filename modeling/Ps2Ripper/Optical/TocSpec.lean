import Ps2Ripper.Core.Returns

/-!
# The table of contents as a partition

* `lt_length_tocEntries`: exactly the complete descriptors within the declared length are read;
* `TocPartition`: the tracks that `read_toc` returns correspond to the descriptors and cut the disc
  into consecutive pieces, from the first track to the lead-out.
-/

namespace Ps2Ripper

open Interactive Prog

variable {m : Machine} {A : Op → Choice → Prop} {w : World}

/-- A descriptor is read exactly when all of it lies in the response and in its declared length. -/
theorem lt_length_tocEntries (data : Bytes) (i : ℕ) :
    i < (tocEntries data).length ↔
      4 + 8 * i + 8 ≤ bigEndian (slice data 0 2) + 2 ∧ 4 + 8 * i + 8 ≤ data.length := by
  simp only [tocEntries, List.length_map, List.length_range]
  omega

/-- The track of a descriptor. -/
structure OfEntry (base : ℕ) (entry : TocEntry) (track : CDTrack) : Prop where
  number : track.number = entry.number
  start : track.startLba = entry.lba
  kind : track.kind = .audio ↔ entry.isData = false
  index : track.fileIndexLba = (track.startLba : ℤ) - base

/-- The tracks of a response: one for each descriptor that is not the lead-out, one after the other
up to the lead-out. -/
structure TocPartition (data : Bytes) (tracks : List CDTrack) : Prop where
  nonempty : tracks ≠ []
  entries : ∀ first ∈ tracks.head?, List.Forall₂ (OfEntry first.startLba)
    ((tocEntries data).filter (·.number ≠ leadOutNumber)) tracks
  positive : ∀ t ∈ tracks, t.startLba ≤ t.endLba
  contiguous : Contiguous tracks
  leadout : ∃ entry, (tocEntries data).find? (·.number = leadOutNumber) = some entry ∧
    ∀ last ∈ tracks.getLast?, last.endLba + 1 = entry.lba

theorem ensures_entryKind {entry : TocEntry} :
    ensures (allowing m A) (entryKind entry) (fun kind _ => kind = .audio ↔ entry.isData = false)
      w := by
  unfold entryKind
  split
  · rename_i hdata
    refine ensures_bind (ensures_true allowing_permissive _) fun raw _ _ => ?_
    refine ensures_bind (ensures_true allowing_permissive _) fun form _ _ => ensures_return ?_
    split <;> simp [hdata]
  · rename_i hdata
    exact ensures_return (by simpa using hdata)

/-- The last track of the loop ends right before the lead-out. -/
theorem ensures_tocTracks_entries {base leadout : ℕ} {entries : List TocEntry} :
    ensures (allowing m A) (tocTracks base leadout entries) (fun tracks _ =>
      List.Forall₂ (OfEntry base) entries tracks ∧
        ∀ last ∈ tracks.getLast?, last.endLba + 1 = leadout) w := by
  induction entries generalizing w with
  | nil => exact ensures_return ⟨.nil, by simp⟩
  | cons entry rest ih =>
    refine ensures_bind ensures_entryKind fun kind w₁ hkind => ?_
    refine ensures_bind (Q := fun track _ => mkTrack entry.number kind entry.lba _ base = .ok track)
      (ensures_lift fun _ h => h) fun track w₂ htrack => ?_
    obtain ⟨hnumber, htk, hstart, hend, hindex, -⟩ := mkTrack_eq_ok htrack
    refine ensures_bind ih ?_
    rintro tracks w₃ ⟨hall, hlast⟩
    refine ensures_return ⟨.cons ⟨hnumber, hstart, by rw [htk, hkind], by rw [hindex, hstart]⟩ hall,
      fun last hl => ?_⟩
    cases hall with
    | nil =>
      obtain rfl : track = last := by simpa using hl
      simp only at hend
      omega
    | cons _ _ =>
      rw [List.getLast?_cons_cons] at hl
      exact hlast last hl

theorem ensures_readToc_partition :
    ensures (allowing m A) readToc (fun tracks _ => TocPartition m.disc.toc tracks) w := by
  refine ensures_bind (ensures_true allowing_permissive _) fun sessions w₁ _ => ?_
  split
  · trivial
  refine ensures_bind (Q := fun data _ => data = m.disc.toc)
    (ensures_call fun c _ data w' h => by cases h; rfl) fun data w₂ hdata => ?_
  subst hdata
  split
  · trivial
  dsimp only
  split
  case h_2 => trivial
  case h_1 first rest leadout htracks hleadout =>
  refine ensures_mono (ensures_and ensures_tocTracks ensures_tocTracks_entries) ?_
  rintro tracks w₃ ⟨⟨hhead, hchain, -⟩, hall, hlast⟩
  rw [htracks] at hhead hall
  refine ⟨?_, fun t ht => ?_, fun t _ => t.start_le_end, hchain, leadout, hleadout, hlast⟩
  · rintro rfl
    cases hall
  · rw [ht] at hhead
    simp only [List.head?_cons, Option.map_some, Option.some.injEq] at hhead
    rw [htracks, hhead]
    exact hall

/-- The lengths of consecutive tracks add up to the distance between their ends. -/
theorem Contiguous.sum_sectors {tracks : List CDTrack} (h : Contiguous tracks)
    {first last : CDTrack}
    (hfirst : tracks.head? = some first) (hlast : tracks.getLast? = some last) :
    first.startLba + (tracks.map CDTrack.sectors).sum = last.endLba + 1 := by
  induction tracks generalizing first with
  | nil => cases hfirst
  | cons track rest ih =>
    cases hfirst
    have hle := track.start_le_end
    cases rest with
    | nil =>
      obtain rfl : track = last := by simpa using hlast
      simp only [List.map_cons, List.map_nil, List.sum_cons, List.sum_nil, CDTrack.sectors]
      omega
    | cons next others =>
      rw [List.getLast?_cons_cons] at hlast
      obtain ⟨hnext, hchain⟩ := List.isChain_cons_cons.1 h
      have := ih hchain rfl hlast
      rw [List.map_cons, List.sum_cons, ← this, hnext]
      simp only [CDTrack.sectors]
      omega

/-- **The table of contents.** Only complete descriptors are read, and the tracks that are returned
partition the disc from the first track to the lead-out. -/
theorem readToc_partition {σ : Oracle} :
    (∀ i, i < (tocEntries m.disc.toc).length ↔
      4 + 8 * i + 8 ≤ bigEndian (slice m.disc.toc 0 2) + 2 ∧ 4 + 8 * i + 8 ≤ m.disc.toc.length) ∧
    ∀ tracks, (execute m σ readToc w).result = .ok tracks → TocPartition m.disc.toc tracks ∧
      ∀ first ∈ tracks.head?, ∀ last ∈ tracks.getLast?,
        (tracks.map CDTrack.sectors).sum = last.endLba + 1 - first.startLba ∧
        ∀ entry, (tocEntries m.disc.toc).find? (·.number = leadOutNumber) = some entry →
          first.startLba + (tracks.map CDTrack.sectors).sum = entry.lba := by
  refine ⟨lt_length_tocEntries _, fun tracks htracks => ?_⟩
  have h := (execute_of_wp (A := fun _ _ => True) (fun _ _ => trivial)
    ensures_readToc_partition).1 tracks htracks
  refine ⟨h, fun first hfirst last hlast => ?_⟩
  have hsum := h.contiguous.sum_sectors hfirst hlast
  obtain ⟨leadout, hleadout, hend⟩ := h.leadout
  refine ⟨by omega, fun entry hentry => ?_⟩
  rw [hleadout] at hentry
  cases hentry
  rw [hsum, hend last hlast]

/-- A machine with a CD of a data track and an audio track, whose descriptor of the lead-out comes
between the two. -/
def mixedMachine : Machine :=
  { sampleMachine 0x08 with
    disc := { sampleDisc 0x08 with
      toc := [0, 26, 1, 2, 0, 0x14, 1, 0, 0, 0, 0, 0, 0, 0x14, 0xAA, 0, 0, 0, 0, 24,
        0, 0x10, 2, 0, 0, 0, 0, 10] } }

def mixedTracks : List CDTrack :=
  [{ sampleTrack with endLba := 9, start_le_end := by decide },
    { number := 2, kind := .audio, startLba := 10, endLba := 23, fileIndexLba := 10,
      number_pos := by decide, start_le_end := by decide }]

theorem consult_readToc_mixed : consult mixedMachine readToc = .ok mixedTracks := by
  decide +kernel

/-- The theorem for these tracks. -/
theorem readToc_partition_sample : TocPartition mixedMachine.disc.toc mixedTracks ∧
    (mixedTracks.map CDTrack.sectors).sum = 24 := by
  obtain ⟨hpartition, hsum⟩ := (readToc_partition (m := mixedMachine) (w := World.blank)
    (σ := noFaults)).2 mixedTracks (result_of_consult readToc_within consult_readToc_mixed)
  exact ⟨hpartition, (hsum _ rfl _ rfl).1⟩

end Ps2Ripper
