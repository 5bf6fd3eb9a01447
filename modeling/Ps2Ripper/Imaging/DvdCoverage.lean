import Ps2Ripper.Core.Returns

/-!
# A DVD rip covers every sector once

`Span` says what the rip has done between two sectors: which of them it gave up, what it read,
reported and stored.  One turn of the loop is a span of the sectors it read, spans compose, and the
loop is a span of the whole disc.  `ripDvdIso_covers` adds how the function ends.
-/

namespace Ps2Ripper

open Interactive Prog

variable {m : Machine} {A : Op → Choice → Prop} {w : World}

/-- What stands for a damaged sector, `bytes(2048)`. -/
def zeroSector : Bytes := List.replicate 2048 0

/-- The sectors `lba, …, lba + count - 1` with zeros in place of the damaged ones. -/
def Disc.image (d : Disc) (damaged : List ℕ) (lba count : ℕ) : Bytes :=
  (List.range' lba count).flatMap fun n => if n ∈ damaged then zeroSector else d.block n

theorem Disc.length_image (d : Disc) (damaged : List ℕ) (lba count : ℕ) :
    (d.image damaged lba count).length = count * 2048 := by
  have hlen : ∀ n, (if n ∈ damaged then zeroSector else d.block n).length = 2048 := by
    intro n
    split
    · exact List.length_replicate
    · exact d.block_length n
  simp [Disc.image, List.length_flatMap, hlen]

theorem Disc.image_nil (d : Disc) (lba count : ℕ) : d.image [] lba count = d.blocks lba count := by
  simp [Disc.image, Disc.blocks]

theorem Disc.image_singleton (d : Disc) (lba : ℕ) : d.image [lba] lba 1 = zeroSector := by
  simp [Disc.image]

/-- The image of two stretches, each with its own damaged sectors. -/
theorem Disc.image_append (d : Disc) {damaged damaged' : List ℕ} {lo mid hi : ℕ} (hlo : lo ≤ mid)
    (hhi : mid ≤ hi) (h : ∀ n ∈ damaged, n < mid) (h' : ∀ n ∈ damaged', mid ≤ n) :
    d.image damaged lo (mid - lo) ++ d.image damaged' mid (hi - mid) =
      d.image (damaged ++ damaged') lo (hi - lo) := by
  have hsplit : hi - lo = (mid - lo) + (hi - mid) := by omega
  have hmid : lo + (mid - lo) = mid := by omega
  rw [hsplit, Disc.image, Disc.image, Disc.image, ← List.range'_append_1, List.flatMap_append, hmid]
  congr 1
  · refine List.flatMap_congr fun n hn => ?_
    have hlt : n ∉ damaged' := fun hd => by
      have := h' n hd
      have := (List.mem_range'_1.1 hn).2
      omega
    simp [hlt]
  · refine List.flatMap_congr fun n hn => ?_
    have hge : n ∉ damaged := fun hd => by
      have := h n hd
      have := (List.mem_range'_1.1 hn).1
      omega
    simp [hge]

/-- The number of failed reads. -/
def failures (log : List ReadCall) : ℕ := log.countP (!·.ok)

/-- From the sector `lo` up to the sector `hi` the rip has given up `damaged`, sent the reads `log`
and reported `snaps`; it has hashed and stored the image of these sectors. -/
structure Span (d : Disc) (dest : Path) (progress continueDamaged : Bool) (lo hi : ℕ)
    (damaged : List ℕ) (log : List ReadCall) (snaps : List ProgressSnapshot)
    (s : DvdState) (w : World) (s' : DvdState) (w' : World) : Prop where
  le : lo ≤ hi
  gaveUp : s'.damaged = s.damaged ++ damaged
  bounds : ∀ n ∈ damaged, lo ≤ n ∧ n < hi
  failed : ∀ n ∈ damaged, ⟨n, 1, none, false⟩ ∈ log
  increasing : damaged.Pairwise (· < ·)
  strict : continueDamaged = false → damaged = []
  digest : s'.digest = s.digest ++ d.image damaged lo (hi - lo)
  retries : s'.retries = s.retries + failures log
  reads : w'.reads = w.reads ++ log
  reported : w'.reported = w.reported ++ snaps
  rising : (snaps.map (·.completedBytes)).Pairwise (· < ·)
  between : ∀ snap ∈ snaps, lo * 2048 < snap.completedBytes ∧ snap.completedBytes ≤ hi * 2048
  last : progress = true → lo < hi → ∃ snap ∈ snaps.getLast?, snap.completedBytes = hi * 2048
  silent : progress = false → snaps = []
  stored : ∀ old, w.files dest = some old →
    w'.files dest = some (old ++ d.image damaged lo (hi - lo))

namespace Span

variable {d : Disc} {dest : Path} {progress continueDamaged : Bool} {lo mid hi : ℕ}
  {damaged damaged' : List ℕ} {log log' : List ReadCall} {snaps snaps' : List ProgressSnapshot}
  {s s' s'' : DvdState} {w w' w'' : World}

theorem refl : Span d dest progress continueDamaged lo lo [] [] [] s w s w where
  le := le_rfl
  gaveUp := by simp
  bounds := by simp
  failed := by simp
  increasing := .nil
  strict _ := rfl
  digest := by simp [Disc.image]
  retries := by simp [failures]
  reads := by simp
  reported := by simp
  rising := .nil
  between := by simp
  last _ h := by omega
  silent _ := rfl
  stored old h := by simp [h, Disc.image]

/-- Two spans that meet are one. -/
theorem trans (h : Span d dest progress continueDamaged lo mid damaged log snaps s w s' w')
    (h' : Span d dest progress continueDamaged mid hi damaged' log' snaps' s' w' s'' w'') :
    Span d dest progress continueDamaged lo hi (damaged ++ damaged') (log ++ log') (snaps ++ snaps')
      s w s'' w'' := by
  have himage := d.image_append h.le h'.le (fun n hn => (h.bounds n hn).2)
    fun n hn => (h'.bounds n hn).1
  have hle := h.le
  have hle' := h'.le
  refine
    { le := hle.trans hle'
      gaveUp := by rw [h'.gaveUp, h.gaveUp, List.append_assoc]
      bounds := fun n hn => ?_
      failed := fun n hn => ?_
      increasing := List.pairwise_append.2 ⟨h.increasing, h'.increasing, fun a ha b hb =>
        lt_of_lt_of_le (h.bounds a ha).2 (h'.bounds b hb).1⟩
      strict := fun hc => by rw [h.strict hc, h'.strict hc, List.append_nil]
      digest := by rw [h'.digest, h.digest, List.append_assoc, himage]
      retries := by
        rw [h'.retries, h.retries, failures, failures, failures, List.countP_append, Nat.add_assoc]
      reads := by rw [h'.reads, h.reads, List.append_assoc]
      reported := by rw [h'.reported, h.reported, List.append_assoc]
      rising := ?_
      between := fun snap hsnap => ?_
      last := fun hp hlt => ?_
      silent := fun hp => by rw [h.silent hp, h'.silent hp, List.append_nil]
      stored := fun old hold => by
        rw [h'.stored _ (h.stored old hold), List.append_assoc, himage] }
  · obtain hn | hn := List.mem_append.1 hn
    · have := h.bounds n hn
      omega
    · have := h'.bounds n hn
      omega
  · obtain hn | hn := List.mem_append.1 hn
    · exact List.mem_append_left _ (h.failed n hn)
    · exact List.mem_append_right _ (h'.failed n hn)
  · rw [List.map_append]
    refine List.pairwise_append.2 ⟨h.rising, h'.rising, ?_⟩
    rintro _ ha _ hb
    obtain ⟨a, hin, rfl⟩ := List.mem_map.1 ha
    obtain ⟨b, hin', rfl⟩ := List.mem_map.1 hb
    exact lt_of_le_of_lt (h.between a hin).2 (h'.between b hin').1
  · obtain hsnap | hsnap := List.mem_append.1 hsnap
    · have hb := h.between snap hsnap
      exact ⟨hb.1, hb.2.trans (Nat.mul_le_mul_right _ hle')⟩
    · have hb := h'.between snap hsnap
      exact ⟨lt_of_le_of_lt (Nat.mul_le_mul_right _ hle) hb.1, hb.2⟩
  · -- The last report is one of the second span, unless that is empty.
    obtain hlt' | rfl := hle'.lt_or_eq
    · obtain ⟨snap, hsnap, hbytes⟩ := h'.last hp hlt'
      exact ⟨snap, by rw [List.getLast?_append, hsnap]; rfl, hbytes⟩
    · have hnil : snaps' = [] := List.eq_nil_iff_forall_not_mem.2 fun snap hsnap => by
        have := h'.between snap hsnap
        omega
      obtain ⟨snap, hsnap, hbytes⟩ := h.last hp hlt
      exact ⟨snap, by rwa [hnil, List.append_nil], hbytes⟩

end Span

/-! ### The loop -/

/-- The retry loop at `lba` asked for at most `bound` sectors and sent the reads `log`; it returns
the sectors that it finally asked for, or gives up a single one after a failed read. -/
structure Fetched (d : Disc) (continueDamaged : Bool) (lba bound retries : ℕ) (log : List ReadCall)
    (w : World) (r : DvdRead) (w' : World) : Prop where
  size : r.size ≤ bound
  gaveUp : r.damaged = true → continueDamaged = true ∧ r.size = 1 ∧ ⟨lba, 1, none, false⟩ ∈ log
  data : r.data = d.image (if r.damaged then [lba] else []) lba r.size
  retries : r.retries = retries + failures log
  reads : w'.reads = w.reads ++ log
  files : w'.files = w.files
  reported : w'.reported = w.reported

/-- A failed read comes before the reads that follow it. -/
theorem Fetched.of_failed {d : Disc} {continueDamaged : Bool} {lba count bound retries : ℕ}
    {log : List ReadCall} {r : DvdRead} {w' : World} (hcount : count ≤ bound)
    (h : Fetched d continueDamaged lba count (retries + 1) log
      (w.logRead lba bound none false) r w') :
    Fetched d continueDamaged lba bound retries (⟨lba, bound, none, false⟩ :: log) w r w' where
  size := h.size.trans hcount
  gaveUp hd :=
    have ⟨hc, hs, hmem⟩ := h.gaveUp hd
    ⟨hc, hs, List.mem_cons_of_mem _ hmem⟩
  data := h.data
  retries := by
    rw [h.retries, failures, failures, List.countP_cons_of_pos (by simp)]
    omega
  reads := by
    rw [h.reads]
    simp [World.logRead]
  files := h.files
  reported := h.reported

theorem ensures_readDvd_fetched {maxRetries lba attempts retries : ℕ} {continueDamaged : Bool}
    {size : ChunkSize} :
    ensures (allowing m A) (readDvd maxRetries continueDamaged lba size attempts retries)
      (fun r w' => ∃ log, Fetched m.disc continueDamaged lba size.1 retries log w r w') w := by
  induction size, attempts, retries using readDvd.induct maxRetries generalizing w with
  | case1 size attempts retries halved again =>
    rw [readDvd]
    refine ⟨trivial, ?_⟩
    have hpos := size.2
    rintro (exc | data) w' ⟨c, -, hc⟩
    · obtain rfl := perform_readBlocks_error hc
      dsimp only
      split
      · split
        · refine ensures_mono (halved ‹_›) ?_
          rintro r w'' ⟨log, h⟩
          exact ⟨_, h.of_failed (by simp only; omega)⟩
        split
        · refine ensures_mono (again ‹_›) ?_
          rintro r w'' ⟨log, h⟩
          exact ⟨_, h.of_failed le_rfl⟩
        · split
          · -- the single sector failed once more than it is retried
            have hone : size.1 = 1 := by omega
            obtain ⟨n, hn⟩ := size
            obtain rfl : n = 1 := hone
            exact ⟨[⟨lba, 1, none, false⟩],
              { size := le_rfl
                gaveUp := fun _ => ⟨‹_›, rfl, List.mem_singleton_self _⟩
                data := (m.disc.image_singleton lba).symm
                retries := by simp [failures]
                reads := rfl
                files := rfl
                reported := rfl }⟩
          · trivial
      · trivial
    · obtain ⟨rfl, rfl⟩ := perform_readBlocks_ok hc
      exact ⟨[⟨lba, size.1, none, true⟩],
        { size := le_rfl
          gaveUp := fun h => absurd h Bool.false_ne_true
          data := (m.disc.image_nil lba size.1).symm
          retries := by simp [failures]
          reads := rfl
          files := rfl
          reported := rfl }⟩

/-- Every write to the file that goes through stores all bytes. -/
theorem ensures_write_stored {p : Path} {data : Bytes} (hp : Stores A p) :
    ensures (allowing m A) (call (.write p data)) (fun _ w' => w'.reads = w.reads ∧
      w'.reported = w.reported ∧ ∀ old, w.files p = some old → w'.files p = some (old ++ data))
        w := by
  refine wp_call_iff.2 fun c hc => ⟨fun a w' h => ?_, fun _ _ _ => trivial⟩
  have hs := succeed_of_perform_ok h
  have hfault := fault_of_perform_ok rfl h
  cases hs
  refine ⟨rfl, rfl, fun old hold => ?_⟩
  simp [World.setFile, hold, hp data c (.inl hc) hfault]

theorem ensures_emitProgress_reported {progress : Bool} {snapshot : ProgressSnapshot} :
    ensures (allowing m A) (emitProgress progress snapshot) (fun _ w' => w'.reads = w.reads ∧
      w'.files = w.files ∧ w'.reported = w.reported ++ if progress then [snapshot] else []) w := by
  unfold emitProgress
  split
  · refine ensures_call fun c _ a w' h => ?_
    cases h
    exact ⟨rfl, rfl, rfl⟩
  · exact ⟨rfl, rfl, by simp⟩

/-- One turn of the loop is a span of the sectors that were read. -/
theorem Fetched.span {d : Disc} {dest : Path} {progress continueDamaged : Bool} {lba bound : ℕ}
    {log : List ReadCall} {s : DvdState} {r : DvdRead} {snap : ProgressSnapshot} {w' w'' : World}
    (h : Fetched d continueDamaged lba bound s.retries log w r w')
    (hsnap : snap.completedBytes = (lba + r.size) * 2048) (hreads : w''.reads = w'.reads)
    (hreported : w''.reported = w'.reported ++ if progress then [snap] else [])
    (hstored : ∀ old, w'.files dest = some old → w''.files dest = some (old ++ r.data)) :
    Span d dest progress continueDamaged lba (lba + r.size) (if r.damaged then [lba] else []) log
      (if progress then [snap] else []) s w (s.next lba r) w'' := by
  have hpos := r.size_pos
  have hcount : lba + r.size - lba = r.size := Nat.add_sub_cancel_left ..
  refine
    { le := Nat.le_add_right ..
      gaveUp := ?_
      bounds := fun n hn => ?_
      failed := fun n hn => ?_
      increasing := ?_
      strict := fun hc => ?_
      digest := by rw [hcount, ← h.data, DvdState.next]
      retries := h.retries
      reads := by rw [hreads, h.reads]
      reported := by rw [hreported, h.reported]
      rising := ?_
      between := fun snap' hs => ?_
      last := fun hp _ => ⟨snap, by simp [hp], hsnap⟩
      silent := fun hp => by simp [hp]
      stored := fun old hold => by rw [hcount, ← h.data, hstored old (by rw [h.files, hold])] }
  · rw [DvdState.next]
    split <;> simp
  · split at hn
    · obtain rfl := List.mem_singleton.1 hn
      omega
    · cases hn
  · split at hn
    · obtain rfl := List.mem_singleton.1 hn
      exact (h.gaveUp ‹_›).2.2
    · cases hn
  · split
    · exact List.pairwise_singleton ..
    · exact .nil
  · split
    · have := (h.gaveUp ‹_›).1
      simp [hc] at this
    · rfl
  · split
    · exact List.pairwise_singleton ..
    · exact .nil
  · split at hs
    · obtain rfl := List.mem_singleton.1 hs
      rw [hsnap]
      omega
    · cases hs

/-- The loop covers what is left of the disc. -/
theorem ensures_ripDvdLoop_span {dest : Path} (hdest : Stores A dest) {total maxRetries lba : ℕ}
    {progress continueDamaged : Bool} {chunk : ChunkSize} {s : DvdState} (hlba : lba ≤ total) :
    ensures (allowing m A) (ripDvdLoop dest total progress chunk maxRetries continueDamaged lba s)
      (fun s' w' => ∃ damaged log snaps,
        Span m.disc dest progress continueDamaged lba total damaged log snaps s w s' w') w := by
  induction lba, s using ripDvdLoop.induct total chunk generalizing w with
  | case1 lba s hlt ih =>
    rw [ripDvdLoop, dif_pos hlt]
    refine ensures_bind ensures_checkpoint fun _ w₁ h₁ => ?_
    subst h₁
    refine ensures_bind ensures_readDvd_fetched ?_
    rintro r w₂ ⟨log, hr⟩
    have hpos := r.size_pos
    have hle : lba + r.size ≤ total := by
      have := hr.size
      simp only at this
      omega
    refine ensures_bind (ensures_write_stored hdest) ?_
    rintro _ w₃ ⟨hreads₃, hrep₃, hfile₃⟩
    refine ensures_bind ensures_emitProgress_reported ?_
    rintro _ w₄ ⟨hreads₄, hfiles₄, hrep₄⟩
    refine ensures_mono (ih r hle) ?_
    rintro s' w₅ ⟨damaged, log', snaps, hrest⟩
    exact ⟨_, _, _, (hr.span rfl (hreads₄.trans hreads₃) (by rw [hrep₄, hrep₃])
      fun old hold => by rw [hfiles₄, hfile₃ old hold]).trans hrest⟩
  | case2 lba s hge =>
    rw [ripDvdLoop, dif_neg hge]
    obtain rfl : lba = total := by omega
    exact ensures_return ⟨[], [], [], .refl⟩

/-! ### The function -/

/-- What a returned DVD image is: every sector of the disc once, zeros where a sector was given
up. -/
structure RippedDvd (m : Machine) (dest : Path) (total : ℕ) (progress continueDamaged : Bool)
    (w : World) (image : ImageResult) (w' : World) : Prop where
  path : image.path = dest
  file : w'.files dest = some (m.disc.image image.damagedLbas 0 total)
  size : image.size = total * 2048
  sha256 : image.sha256 = m.hexdigest (m.disc.image image.damagedLbas 0 total)
  increasing : image.damagedLbas.Pairwise (· < ·)
  bounds : ∀ n ∈ image.damagedLbas, n < total
  strict : continueDamaged = false → image.damagedLbas = []
  reads : ∃ log, w'.reads = w.reads ++ log ∧ image.retries = failures log ∧
    ∀ n ∈ image.damagedLbas, ⟨n, 1, none, false⟩ ∈ log
  reported : ∃ snaps, w'.reported = w.reported ++ snaps ∧
    (snaps.map (·.completedBytes)).Pairwise (· < ·) ∧
    (∀ snap ∈ snaps, snap.completedBytes ≤ total * 2048) ∧
    (progress = true → 0 < total → ∃ snap ∈ snaps.getLast?, snap.completedBytes = total * 2048)

theorem ensures_ripDvdBody_span {dest : Path} (hdest : Stores A dest) {total maxRetries : ℕ}
    {progress continueDamaged : Bool} {chunk : ChunkSize} :
    ensures (allowing m A) (ripDvdBody dest total progress chunk maxRetries continueDamaged)
      (fun s w' => ∃ damaged log snaps,
        Span m.disc dest progress continueDamaged 0 total damaged log snaps {}
          (w.setFile dest (some [])) s w') w := by
  refine ensures_bind ensures_openExclusive ?_
  rintro _ w₁ ⟨-, rfl⟩
  refine ensures_bind (ensures_ripDvdLoop_span hdest (Nat.zero_le _)) fun s w₂ h => ?_
  refine ensures_bind ensures_fsync fun _ w₃ h₃ => ?_
  subst h₃
  exact ensures_return h

/-- A step that changes no file keeps the destination away, also when it raises. -/
theorem wp_absent {α : Type} {R : Set Path} {p : Program α} {Q : α → World → Prop} {dest : Path}
    (hp : p.Uses (Op.Within R ∅)) (hnew : w.files dest = none) (h : ensures (allowing m A) p Q w) :
    wp (allowing m A) p Q (fun _ w' => w'.files dest = none) w :=
  wp_mono (wp_and h (wp_frame hp)) (fun _ _ => And.left) fun _ _ h' => by
    rw [h'.2.files_eq, hnew]

/-- The handler removes the output. -/
theorem wp_removeOutput {α : Type} {dest : Path} {e : PyError} {Q : α → World → Prop}
    (hremove : ∀ c, A (.unlink dest) c → c.fault = none) :
    wp (allowing m A) (removeAndRaise [dest] e) Q (fun _ w' => w'.files dest = none) w := by
  refine wp_bind.2 (wp_call_iff.2 fun c hc => ⟨fun _ w' h => ?_, fun e w' h => ?_⟩)
  · cases succeed_of_perform_ok h
    exact w.setFile_files_self dest none
  · rw [perform, hremove c hc] at h
    cases h

theorem wp_measure {dest : Path} {data : Bytes} {E : PyError → World → Prop}
    (hstat : ∀ c, A (.stat dest) c → c.fault = none) (hdata : w.files dest = some data) :
    wp (allowing m A) (call (.stat dest)) (fun n w' => n = data.length ∧ w' = w) E w := by
  refine wp_call_iff.2 fun c hc => ⟨fun n w' h => ?_, fun e w' h => ?_⟩ <;>
    rw [perform, hstat c hc] at h <;> simp only [succeed, hdata] at h <;> cases h
  exact ⟨rfl, rfl⟩

theorem wp_ripDvdIso {dest : Path} {total maxRetries : ℕ} {progress continueDamaged : Bool}
    {chunk : ChunkSize} (hdest : Stores A dest)
    (hremove : ∀ c, A (.unlink dest) c → c.fault = none)
    (hstat : ∀ c, A (.stat dest) c → c.fault = none) (hnew : w.files dest = none) :
    wp (allowing m A)
      (ripDvdIso m.toExternals dest total progress chunk maxRetries continueDamaged)
      (fun image w' => RippedDvd m dest total progress continueDamaged w image w')
      (fun _ w' => w'.files dest = none) w := by
  refine wp_seq (wp_absent (R := ∅) ensureTemporarySpace_within hnew ensures_ensureTemporarySpace)
    ?_ fun _ _ => id
  rintro _ w₁ rfl
  refine wp_seq (wp_absent (R := {dest}) (uses_of (by simp)) hnew ensures_pathExists) ?_
    fun _ _ => id
  rintro present w₂ ⟨rfl, rfl⟩
  rw [hnew, if_neg (by simp)]
  refine wp_bind.2 (wp_tryCatch.2 (wp_mono (ensures_ripDvdBody_span hdest) ?_
    fun _ _ _ => wp_removeOutput hremove))
  rintro s w₃ ⟨damaged, log, snaps, h⟩
  have hfile := h.stored [] (w₂.setFile_files_self dest (some []))
  rw [List.nil_append, Nat.sub_zero] at hfile
  refine wp_seq (wp_measure hstat hfile) ?_ fun _ _ => id
  rintro _ w₄ ⟨rfl, rfl⟩
  have hgave : s.damaged = damaged := h.gaveUp
  have hdigest := h.digest
  rw [Nat.sub_zero, List.nil_append] at hdigest
  have hretries : s.retries = failures log := by
    rw [h.retries]
    exact Nat.zero_add _
  exact
    { path := rfl
      file := by rw [hfile, hgave]
      size := m.disc.length_image damaged 0 total
      sha256 := by rw [hgave, hdigest]
      increasing := by rw [hgave]; exact h.increasing
      bounds := fun n hn => (h.bounds n (hgave ▸ hn)).2
      strict := fun hc => by rw [hgave]; exact h.strict hc
      reads := ⟨log, h.reads, hretries, fun n hn => h.failed n (hgave ▸ hn)⟩
      reported :=
        ⟨snaps, h.reported, h.rising, fun snap hsnap => (h.between snap hsnap).2, h.last⟩ }

/-- **Coverage of a DVD.** If writes store all bytes or raise, a rip that returns holds every sector
once; if it raises, nothing is left at the destination, provided that its removal goes through and
that the finished file can be measured. -/
theorem ripDvdIso_covers {σ : Oracle} {dest : Path} {total maxRetries : ℕ}
    {progress continueDamaged : Bool} {chunk : ChunkSize} (hnew : w.files dest = none) :
    let rip := ripDvdIso m.toExternals dest total progress chunk maxRetries continueDamaged
    let outcome := execute m σ rip w
    Stores (made (issued m σ rip w)) dest →
    (∀ s ∈ issued m σ rip w, s.op = .unlink dest ∨ s.op = .stat dest → s.choice.fault = none) →
    (∀ image, outcome.result = .ok image →
      RippedDvd m dest total progress continueDamaged w image outcome.world) ∧
    (∀ e, outcome.result = .error e → outcome.world.files dest = none) := by
  intro rip outcome hwrite hclean
  refine execute_of_wp_issued forall_made (wp_ripDvdIso hwrite ?_ ?_ hnew)
  · rintro c ⟨s, hs, hop, rfl⟩
    exact hclean s hs (.inl hop)
  · rintro c ⟨s, hs, hop, rfl⟩
    exact hclean s hs (.inr hop)

/-! ### A finished file that cannot be measured -/

def sampleImage : Path := { dir := .task "C:\\Temp" 0, name := "SLUS_123.45.Sample.iso" }

/-- Without failures all choices that are made are the same. -/
theorem choice_of_mem_issued {α : Type} {p : Program α}
    {s : Step interface Choice World} (hs : s ∈ issued m noFaults p w) : s.choice = {} :=
  forall_issued (A := fun _ c => c = {}) (fun _ _ => rfl) s hs

theorem stores_issued {α : Type} {p : Program α} (dest : Path) :
    Stores (made (issued m noFaults p w)) dest := by
  rintro data c (⟨s, hs, -, rfl⟩ | ⟨s, hs, -, rfl⟩) - <;> rw [choice_of_mem_issued hs]

/-- The theorem for the sample DVD. -/
theorem ripDvdIso_covers_sample :
    let outcome := execute (sampleMachine 0x10) noFaults
      (ripDvdIso (sampleMachine 0x10).toExternals sampleImage 24 true ⟨32, by decide⟩ 8 true)
      World.blank
    (∀ image, outcome.result = .ok image → RippedDvd (sampleMachine 0x10) sampleImage 24 true true
      World.blank image outcome.world) ∧
    (∀ e, outcome.result = .error e → outcome.world.files sampleImage = none) :=
  ripDvdIso_covers (m := sampleMachine 0x10) (σ := noFaults) (w := World.blank) rfl
    (stores_issued sampleImage) fun _ hs _ => by rw [choice_of_mem_issued hs]

/-- Every step goes through, except that no file can be measured. -/
def statFails : Oracle := fun _ o =>
  match o with
  | .stat _ => { fault := some (.osError "The device is not ready") }
  | _ => {}

/-- The operations that `statFails` lets through. -/
def Op.NotStat (o : Op) : Prop := ∀ p, o ≠ .stat p

theorem Op.Within.notStat {T : Set Path} {o : Op} (h : o.Within ∅ T) : o.NotStat := by
  rintro p rfl
  exact h.1 p rfl

theorem wp_of_notStat {α : Type} {p : Program α} {Q : α → World → Prop} {E : PyError → World → Prop}
    (hp : p.Uses Op.NotStat) (h : wp (calm m) p Q E w) :
    wp (allowing m fun o c => c = statFails 0 o) p Q E w := by
  refine wp_of_calm (fun o ho => ?_) hp h
  cases o with
  | stat p => exact absurd rfl (ho p)
  | _ => rfl

theorem ripDvdBody_notStat {dest : Path} {total maxRetries : ℕ} {progress continueDamaged : Bool}
    {chunk : ChunkSize} :
    (ripDvdBody dest total progress chunk maxRetries continueDamaged).Uses Op.NotStat := by
  refine .bind (uses_of nofun) fun _ => .bind (.mono (P := Op.Within ∅ {dest}) ?_ ?_) fun _ =>
    .bind (uses_of nofun) fun _ => trivial
  · exact ripDvdLoop_within rfl
  · exact fun _ => Op.Within.notStat

/-- A complete image stays when it cannot be measured. -/
theorem wp_ripDvdIso_statFails {dest : Path} {total maxRetries : ℕ} {progress : Bool}
    {chunk : ChunkSize} (hnew : w.files dest = none)
    (hfree : total * 2048 ≤ m.free dest.dir.volume) :
    wp (allowing m fun o c => c = statFails 0 o)
      (ripDvdIso m.toExternals dest total progress chunk maxRetries) (fun _ _ => False)
      (fun _ w' => (w'.files dest).isSome) w := by
  refine wp_seq (wp_of_notStat ?_ calm_ensureTemporarySpace) ?_ fun _ _ h => absurd hfree h
  · exact .bind (uses_of nofun) fun _ => .bind (uses_of nofun) fun _ =>
      .ite (fun _ => trivial) fun _ => trivial
  rintro _ w₁ ⟨-, rfl⟩
  refine wp_seq (wp_of_notStat (uses_of nofun) calm_pathExists) ?_ fun _ _ => False.elim
  rintro b w₂ ⟨rfl, rfl⟩
  rw [hnew, if_neg (by simp)]
  have hrun := (show Succeeds m (ripDvdBody dest total progress chunk maxRetries false) w₂ from
    succeeds_ripDvdBody hnew).and (ensures_ripDvdBody (A := fun _ c => c = {}))
  refine wp_bind.2 (wp_tryCatch.2 (wp_mono (wp_of_notStat ripDvdBody_notStat hrun) ?_
    fun _ _ => False.elim))
  rintro s w₃ ⟨-, -, -, hstored⟩
  have hfile := hstored (stores_calm dest)
  refine wp_bind.2 (wp_call_iff.2 fun c hc => ⟨fun a w' h => ?_, fun e w' h => ?_⟩)
  · rw [hc] at h
    cases h
  · rw [hc] at h
    cases h
    simp [fail, hfile]

/-- A rip that raises because the finished file cannot be measured leaves the file behind. -/
theorem not_ripDvdIso_covers :
    ¬ ∀ (m : Machine) (σ : Oracle) (w : World) (dest : Path) (total maxRetries : ℕ)
      (progress continueDamaged : Bool) (chunk : ChunkSize), w.files dest = none →
      Stores σ.choices dest →
      let outcome := execute m σ
        (ripDvdIso m.toExternals dest total progress chunk maxRetries continueDamaged) w
      (∀ image, outcome.result = .ok image →
        RippedDvd m dest total progress continueDamaged w image outcome.world) ∧
      (∀ e, outcome.result = .error e → outcome.world.files dest = none) := by
  intro h
  have hfree : 24 * 2048 ≤ (sampleMachine 0x10).free sampleImage.dir.volume := by decide
  have hfails : wp (allowing (sampleMachine 0x10) fun o c => c = statFails 0 o)
    (ripDvdIso (sampleMachine 0x10).toExternals sampleImage 24 true ⟨32, by decide⟩ 8) _ _
    World.blank := wp_ripDvdIso_statFails rfl hfree
  obtain ⟨e, he, hfile⟩ := execute_error_of_wp (σ := statFails) (fun _ _ => rfl) hfails
  have hstores : Stores statFails.choices sampleImage := by
    rintro data c (⟨n, rfl⟩ | ⟨n, rfl⟩) - <;> rfl
  have habsent := (h (sampleMachine 0x10) statFails World.blank sampleImage 24 8 true false
    ⟨32, by decide⟩ rfl hstores).2 e he
  rw [habsent] at hfile
  cases hfile

end Ps2Ripper
