import Ps2Ripper.Imaging.Ripper

/-!
# What ripping and converting do

What the functions of `Ps2Ripper.Imaging.Ripper` touch, and what is known when they return.

* `ripDvdIso_within`, `ripCdBinCue_within`, `convertCdDataTrackToIso_within`: the files they touch;
* `Stores`, `Ripped`: which bytes a loop has stored, and which sectors it has read;
* `ensures_ripDvdIso`, `ensures_ripCdBinCue`, `ensures_convertCdDataTrackToIso`: their results.
-/

namespace Ps2Ripper

open Interactive Prog

variable {m : Machine} {A : Op → Choice → Prop} {w : World}

/-! ### Footprints -/

section Footprints

variable {R T : Set Path} {α : Type}

theorem checkpoint_within : checkpoint.Uses (Op.Within R T) :=
  .bind (uses_of (by simp)) fun _ => .ite (fun _ => trivial) fun _ => trivial

theorem emitProgress_within {progress : Bool} {snapshot : ProgressSnapshot} :
    (emitProgress progress snapshot).Uses (Op.Within R T) :=
  .ite (fun _ => uses_of (by simp)) fun _ => trivial

theorem ensureTemporarySpace_within {d : Dir} {n : ℕ} :
    (ensureTemporarySpace d n).Uses (Op.Within R T) :=
  .bind (uses_of (by simp)) fun _ => .bind (uses_of (by simp)) fun _ => .ite (fun _ => trivial)
    fun _ => trivial

theorem removeAndRaise_within {outputs : List Path} (h : ∀ p ∈ outputs, p ∈ T) (e : PyError) :
    (removeAndRaise outputs e : Program α).Uses (Op.Within R T) := by
  induction outputs with
  | nil => trivial
  | cons p rest ih =>
    exact .bind (uses_of (by simpa using h p (by simp))) fun _ => ih fun q hq => h q (by simp [hq])

theorem readDvd_within {maxRetries lba attempts retries : ℕ} {continueDamaged : Bool}
    {size : ChunkSize} :
    (readDvd maxRetries continueDamaged lba size attempts retries).Uses (Op.Within R T) := by
  induction size, attempts, retries using readDvd.induct maxRetries with
  | case1 size attempts retries halved again =>
    rw [readDvd]
    refine ⟨by simp, ?_⟩
    rintro (exc | data)
    · exact .ite (fun _ => .ite halved fun _ => .ite again fun _ => .ite (fun _ => trivial)
        fun _ => trivial) fun _ => trivial
    · trivial

theorem ripDvdLoop_within {dest : Path} {total maxRetries lba : ℕ} {progress continueDamaged : Bool}
    {chunk : ChunkSize} {s : DvdState} (h : dest ∈ T) :
    (ripDvdLoop dest total progress chunk maxRetries continueDamaged lba s).Uses
      (Op.Within R T) := by
  induction lba, s using ripDvdLoop.induct total chunk with
  | case1 lba s hlba ih =>
    rw [ripDvdLoop, dif_pos hlba]
    exact .bind checkpoint_within fun _ => .bind readDvd_within fun r =>
      .bind (uses_of (by simpa using h)) fun _ => .bind emitProgress_within fun _ => ih r
  | case2 lba s hlba =>
    rw [ripDvdLoop, dif_neg hlba]
    trivial

theorem ripDvdIso_within {dest : Path} {total maxRetries : ℕ} {progress continueDamaged : Bool}
    {chunk : ChunkSize} {ext : Externals} :
    (ripDvdIso ext dest total progress chunk maxRetries continueDamaged).Uses
      (Op.Within {dest} {dest}) := by
  refine .bind ensureTemporarySpace_within fun _ => .bind (uses_of (by simp)) fun _ =>
    .ite (fun _ => trivial) fun _ => .bind (.tryCatch ?_ (removeAndRaise_within (by simp))) fun _ =>
      .bind (uses_of (by simp)) fun _ => trivial
  exact .bind (uses_of (by simp)) fun _ => .bind (ripDvdLoop_within rfl) fun _ =>
    .bind (uses_of (by simp)) fun _ => trivial

theorem readCd_within {maxRetries lba attempt retries : ℕ} {kind : TrackKind} {count : ChunkSize} :
    (readCd maxRetries kind lba count attempt retries).Uses (Op.Within R T) := by
  induction count, attempt, retries using readCd.induct maxRetries with
  | case1 count attempt retries halved again =>
    rw [readCd]
    refine ⟨by simp, ?_⟩
    rintro (exc | data)
    · exact .ite (fun _ => .ite halved fun _ => .ite (fun _ => trivial) again) fun _ => trivial
    · trivial

theorem ripCdTrack_within {bin : Path} {total maxRetries lba : ℕ} {progress : Bool}
    {chunk : ChunkSize} {track : CDTrack} {s : CdState} (h : bin ∈ T) :
    (ripCdTrack bin total progress chunk maxRetries track lba s).Uses (Op.Within R T) := by
  induction lba, s using ripCdTrack.induct chunk track with
  | case1 lba s hlba ih =>
    rw [ripCdTrack, dif_pos hlba]
    exact .bind checkpoint_within fun _ => .bind readCd_within fun r =>
      .bind (uses_of (by simpa using h)) fun _ => .bind emitProgress_within fun _ => ih r
  | case2 lba s hlba =>
    rw [ripCdTrack, dif_neg hlba]
    trivial

theorem ripCdTracks_within {bin : Path} {total maxRetries : ℕ} {progress : Bool}
    {chunk : ChunkSize} {tracks : List CDTrack} {s : CdState} (h : bin ∈ T) :
    (ripCdTracks bin total progress chunk maxRetries tracks s).Uses (Op.Within R T) := by
  induction tracks generalizing s with
  | nil => trivial
  | cons track tracks ih => exact .bind (ripCdTrack_within h) fun _ => ih

theorem eitherExists_within {a b : Path} (ha : a ∈ R) (hb : b ∈ R) :
    (eitherExists a b).Uses (Op.Within R T) :=
  .bind (uses_of (by simpa using ha)) fun _ =>
    .ite (fun _ => trivial) fun _ => uses_of (by simpa using hb)

theorem raiseExisting_within {a b : Path} (ha : a ∈ R) :
    (raiseExisting a b : Program α).Uses (Op.Within R T) :=
  .bind (uses_of (by simpa using ha)) fun _ => trivial

theorem raiseExisting_yields {a b : Path} {P : α → Prop} :
    (raiseExisting a b : Program α).Yields P :=
  .bind (yields_true _) fun _ _ => trivial

theorem ripCdBinCue_within {bin cue : Path} {tracks : List CDTrack} {maxRetries : ℕ}
    {progress : Bool} {chunk : ChunkSize} {ext : Externals} :
    (ripCdBinCue ext bin cue tracks progress chunk maxRetries).Uses
      (Op.Within {bin, cue} {bin, cue}) := by
  unfold ripCdBinCue
  split
  · refine .bind ensureTemporarySpace_within fun _ =>
      .bind (eitherExists_within (by simp) (by simp)) fun _ =>
        .ite (fun _ => raiseExisting_within (by simp)) fun _ =>
          .bind (.tryCatch ?_ (removeAndRaise_within (by simp))) fun _ =>
            .bind (uses_of (by simp)) fun _ => trivial
    exact .bind (uses_of (by simp)) fun _ => .bind (ripCdTracks_within (by simp)) fun _ =>
      .bind (uses_of (by simp)) fun _ => .bind (uses_lift _) fun _ =>
        .bind (uses_of (by simp)) fun _ => trivial
  · trivial

theorem convertLoop_within {bin iso : Path} {track : CDTrack} {progress : Bool} {remaining : ℕ}
    {left digest : Bytes} (hbin : bin ∈ R) (hiso : iso ∈ T) :
    (convertLoop bin iso track progress remaining left digest).Uses (Op.Within R T) := by
  induction remaining generalizing left digest with
  | zero => trivial
  | succ remaining ih =>
    exact .bind checkpoint_within fun _ => .bind (uses_of (by simpa using hbin)) fun _ =>
      .ite (fun _ => trivial) fun _ => .bind (uses_lift _) fun _ =>
        .bind (uses_of (by simpa using hiso)) fun _ => .bind emitProgress_within fun _ => ih

theorem convertCdDataTrackToIso_within {bin iso : Path} {tracks : List CDTrack} {number : ℕ}
    {progress : Bool} {ext : Externals} :
    (convertCdDataTrackToIso ext bin iso tracks number progress).Uses
      (Op.Within {bin, iso} {iso}) := by
  unfold convertCdDataTrackToIso
  split
  · refine .ite (fun _ => trivial) fun _ => .bind ensureTemporarySpace_within fun _ =>
      .bind (uses_of (by simp)) fun _ => .ite (fun _ => trivial) fun _ =>
        .bind (.tryCatch ?_ (removeAndRaise_within (by simp))) fun _ =>
          .bind (uses_of (by simp)) fun _ => trivial
    exact .bind (uses_of (by simp)) fun _ => .bind (uses_of (by simp)) fun _ =>
      .ite (fun _ => trivial) fun _ => .bind (convertLoop_within (by simp) rfl) fun _ =>
        .bind (uses_of (by simp)) fun _ => trivial
  · trivial

end Footprints

/-! ### What the loops read and store -/

/-- Every write to the file that goes through stores all bytes. -/
def Stores (A : Op → Choice → Prop) (p : Path) : Prop :=
  ∀ data c, A (.write p data) c ∨ A (.writeText p data) c → c.fault = none → c.stored = none

/-- The sectors of a logical or raw read. -/
def sectorsFrom (kind : Option TrackKind) (lba count : ℕ) : List (ℕ × Option TrackKind) :=
  (List.range' lba count).map fun lba => (lba, kind)

theorem sectorsFrom_append (kind : Option TrackKind) (lba i j : ℕ) :
    sectorsFrom kind lba i ++ sectorsFrom kind (lba + i) j = sectorsFrom kind lba (i + j) := by
  rw [sectorsFrom, sectorsFrom, ← List.map_append, List.range'_append_1, sectorsFrom]

theorem sectorsRead_logRead (lba count : ℕ) (kind : Option TrackKind) (ok : Bool) :
    (w.logRead lba count kind ok).sectorsRead =
      w.sectorsRead ++ if ok then sectorsFrom kind lba count else [] := by
  simp [World.sectorsRead, World.logRead, ReadCall.sectors, sectorsFrom]

/-- `sectors` were read from the disc, no text was written, and `data` was appended to the file `p`
if writes to it store all bytes. -/
structure Ripped (A : Op → Choice → Prop) (p : Path) (data : Bytes)
    (sectors : List (ℕ × Option TrackKind)) (w w' : World) : Prop where
  reads : w'.sectorsRead = w.sectorsRead ++ sectors
  texts : w'.texts = w.texts
  stored : Stores A p → ∀ old, w.files p = some old → w'.files p = some (old ++ data)

namespace Ripped

variable {p : Path} {data data' : Bytes} {sectors sectors' : List (ℕ × Option TrackKind)}
  {w' w'' : World}

theorem of_eq (hreads : w'.reads = w.reads) (htexts : w'.texts = w.texts)
    (hfiles : w'.files = w.files) : Ripped A p [] [] w w' :=
  ⟨by simp [World.sectorsRead, hreads], htexts, fun _ old h => by simp [hfiles, h]⟩

theorem trans (h : Ripped A p data sectors w w') (h' : Ripped A p data' sectors' w' w'') :
    Ripped A p (data ++ data') (sectors ++ sectors') w w'' :=
  ⟨by rw [h'.reads, h.reads, List.append_assoc], h'.texts.trans h.texts, fun hp old hold => by
    rw [h'.stored hp _ (h.stored hp old hold), List.append_assoc]⟩

theorem logRead_failed {lba count : ℕ} {kind : Option TrackKind} :
    Ripped A p [] [] w (w.logRead lba count kind false) :=
  ⟨by simp [sectorsRead_logRead], rfl, fun _ old h => by simp [World.logRead, h]⟩

theorem logRead_delivered {lba count : ℕ} {kind : Option TrackKind} :
    Ripped A p [] (sectorsFrom kind lba count) w (w.logRead lba count kind true) :=
  ⟨by simp [sectorsRead_logRead], rfl, fun _ old h => by simp [World.logRead, h]⟩

end Ripped

theorem strict_checkpoint : checkpoint.Strict Op.Fine := by
  rintro (e | requested)
  · exact ⟨fun _ => trivial, trivial⟩
  · cases requested with
    | true => exact ⟨fun _ => trivial, trivial⟩
    | false => exact ⟨fun hbad => absurd rfl hbad, trivial⟩

theorem ensures_checkpoint : ensures (allowing m A) checkpoint (fun _ w' => w' = w) w := by
  refine ensures_bind (Q := fun _ w' => w' = w) (ensures_call fun c _ a w' h => ?_) fun b w' h => ?_
  · cases h
    rfl
  · cases b
    · exact h
    · trivial

theorem ensures_emitProgress {progress : Bool} {snapshot : ProgressSnapshot} :
    ensures (allowing m A) (emitProgress progress snapshot)
      (fun _ w' => w'.reads = w.reads ∧ w'.texts = w.texts ∧ w'.files = w.files) w := by
  unfold emitProgress
  split
  · refine ensures_call fun c _ a w' h => ?_
    cases h
    exact ⟨rfl, rfl, rfl⟩
  · exact ⟨rfl, rfl, rfl⟩

theorem ensures_write {p : Path} {data : Bytes} :
    ensures (allowing m A) (call (.write p data)) (fun _ w' => Ripped A p data [] w w') w := by
  refine wp_call_iff.2 fun c hc => ⟨fun a w' h => ?_, fun _ _ _ => trivial⟩
  have hs := succeed_of_perform_ok h
  have hfault := fault_of_perform_ok rfl h
  cases hs
  refine ⟨by simp [World.sectorsRead, World.setFile], rfl, fun hp old hold => ?_⟩
  simp [World.setFile, hold, hp data c (.inl hc) hfault]

/-- The retry loop returns the sectors that it finally asked for. -/
theorem ensures_readDvd (p : Path) {maxRetries lba attempts retries : ℕ} {size : ChunkSize} :
    ensures (allowing m A) (readDvd maxRetries false lba size attempts retries) (fun r w' =>
      r.size ≤ size.1 ∧ r.damaged = false ∧ r.data = m.disc.blocks lba r.size ∧
        Ripped A p [] (sectorsFrom none lba r.size) w w') w := by
  induction size, attempts, retries using readDvd.induct maxRetries generalizing w with
  | case1 size attempts retries halved again =>
    rw [readDvd]
    refine ⟨trivial, ?_⟩
    rintro (exc | data) w' ⟨c, -, hc⟩
    · have hfail : Ripped A p [] [] w w' := by
        rw [perform_readBlocks_error hc]
        exact .logRead_failed
      dsimp only
      split
      · split
        · refine ensures_mono (halved ‹_›) ?_
          rintro r w'' ⟨hsize, hdam, hdata, hrip⟩
          refine ⟨?_, hdam, hdata, hfail.trans hrip⟩
          have := size.2
          simp only at hsize
          omega
        · split
          · refine ensures_mono (again ‹_›) ?_
            rintro r w'' ⟨hsize, hdam, hdata, hrip⟩
            exact ⟨hsize, hdam, hdata, hfail.trans hrip⟩
          · trivial
      · trivial
    · obtain ⟨rfl, rfl⟩ := perform_readBlocks_ok hc
      exact ⟨le_rfl, rfl, rfl, .logRead_delivered⟩

/-- The loop over a DVD reads and stores what is left of it. -/
theorem ensures_ripDvdLoop {dest : Path} {total maxRetries lba : ℕ} {progress : Bool}
    {chunk : ChunkSize} {s : DvdState} (hlba : lba ≤ total) :
    ensures (allowing m A) (ripDvdLoop dest total progress chunk maxRetries false lba s)
      (fun s' w' => s'.damaged = s.damaged ∧
        s'.digest = s.digest ++ m.disc.blocks lba (total - lba) ∧
        Ripped A dest (m.disc.blocks lba (total - lba)) (sectorsFrom none lba (total - lba)) w w')
      w := by
  induction lba, s using ripDvdLoop.induct total chunk generalizing w with
  | case1 lba s hlt ih =>
    rw [ripDvdLoop, dif_pos hlt]
    refine ensures_bind ensures_checkpoint fun _ w₁ h₁ => ?_
    subst h₁
    refine ensures_bind (ensures_readDvd dest) ?_
    rintro r w₂ ⟨hsize, hdam, hdata, h₂⟩
    have hle : r.size ≤ total - lba := by simp only at hsize; omega
    refine ensures_bind ensures_write fun _ w₃ h₃ => ensures_bind ensures_emitProgress ?_
    rintro _ w₄ ⟨hr₄, ht₄, hf₄⟩
    refine ensures_mono (ih r (by omega)) ?_
    rintro s' w₅ ⟨hdam', hdig', h₅⟩
    have hsplit : r.size + (total - (lba + r.size)) = total - lba := by omega
    have h₄ : Ripped A dest [] [] w₃ w₄ := .of_eq hr₄ ht₄ hf₄
    refine ⟨by simp [hdam', DvdState.next, hdam], ?_, ?_⟩
    · rw [hdig', DvdState.next, List.append_assoc, hdata, Disc.blocks_append, hsplit]
    · have h := ((h₂.trans h₃).trans h₄).trans h₅
      simpa [hdata, Disc.blocks_append, sectorsFrom_append, hsplit] using h
  | case2 lba s hge =>
    rw [ripDvdLoop, dif_neg hge]
    have hz : total - lba = 0 := by omega
    refine ensures_return ⟨rfl, ?_, ?_⟩
    · simp [hz, Disc.blocks]
    · simpa [hz, Disc.blocks, sectorsFrom] using Ripped.of_eq (A := A) (p := dest)
        (w := w) rfl rfl rfl

theorem ensures_ensureTemporarySpace {d : Dir} {n : ℕ} :
    ensures (allowing m A) (ensureTemporarySpace d n) (fun _ w' => w' = w) w := by
  refine ensures_bind (Q := fun _ w' => w' = w) (ensures_call fun c _ a w' h => ?_) fun _ w₁ h₁ =>
    ensures_bind (Q := fun _ w' => w' = w) (ensures_call fun c _ a w' h => ?_) fun _ w₂ h₂ => ?_
  · cases h
    rfl
  · cases h
    exact h₁
  · split
    · trivial
    · exact h₂

/-- The handlers that remove the outputs never return. -/
theorem ensures_removeAndRaise {α : Type} {outputs : List Path} {e : PyError}
    {Q : α → World → Prop} : ensures (allowing m A) (removeAndRaise outputs e) Q w := by
  induction outputs generalizing w with
  | nil => trivial
  | cons p rest ih => exact ensures_bind (ensures_true allowing_permissive _) fun _ _ _ => ih

theorem ensures_ripDvdBody {dest : Path} {total maxRetries : ℕ} {progress : Bool}
    {chunk : ChunkSize} :
    ensures (allowing m A) (ripDvdBody dest total progress chunk maxRetries false)
      (fun s w' => s.damaged = [] ∧ s.digest = m.disc.blocks 0 total ∧
        w'.sectorsRead = w.sectorsRead ++ sectorsFrom none 0 total ∧
        (Stores A dest → w'.files dest = some (m.disc.blocks 0 total))) w := by
  refine ensures_bind ensures_openExclusive ?_
  rintro _ w₁ ⟨-, rfl⟩
  refine ensures_bind (ensures_ripDvdLoop (Nat.zero_le _)) ?_
  rintro s w₂ ⟨hdam, hdig, hrip⟩
  refine ensures_bind ensures_fsync fun _ w₃ h₃ => ?_
  subst h₃
  refine ensures_return ⟨hdam, hdig, hrip.reads, fun hst => ?_⟩
  exact hrip.stored hst [] (by simp [World.setFile])

/-- A returned DVD image is complete and holds the sectors `0, …, total - 1`. -/
theorem ensures_ripDvdIso {ext : Externals} {dest : Path} {total maxRetries : ℕ} {progress : Bool}
    {chunk : ChunkSize} :
    ensures (allowing m A) (ripDvdIso ext dest total progress chunk maxRetries)
      (fun image w' => image.complete = true ∧
        image.sha256 = ext.hexdigest (m.disc.blocks 0 total) ∧
        w'.sectorsRead = w.sectorsRead ++ sectorsFrom none 0 total ∧
        (Stores A dest → w'.files dest = some (m.disc.blocks 0 total) ∧
          image.size = (m.disc.blocks 0 total).length)) w := by
  refine ensures_bind ensures_ensureTemporarySpace fun _ w₁ h₁ => ?_
  subst h₁
  refine ensures_bind ensures_pathExists ?_
  rintro b w₂ ⟨-, rfl⟩
  refine Or.elim (em (b = true)) (fun hb => by rw [if_pos hb]; trivial) fun hb => ?_
  rw [if_neg hb]
  refine ensures_bind (ensures_tryCatch ensures_ripDvdBody fun _ _ => ensures_removeAndRaise) ?_
  rintro s w₃ ⟨hdam, hdig, hreads, hfile⟩
  refine ensures_bind ensures_stat ?_
  rintro n w₄ ⟨⟨data, hdata, rfl⟩, rfl⟩
  refine ensures_return ⟨by simp [ImageResult.complete, hdam], by rw [hdig], hreads, fun hst => ?_⟩
  have hd := hfile hst
  rw [hdata] at hd
  cases hd
  exact ⟨hdata, rfl⟩

/-! ### The CD archive -/

theorem ensures_readCd (p : Path) {maxRetries lba attempt retries : ℕ} {kind : TrackKind}
    {count : ChunkSize} :
    ensures (allowing m A) (readCd maxRetries kind lba count attempt retries) (fun r w' =>
      r.count ≤ count.1 ∧ r.data = m.disc.raws lba r.count ∧
        Ripped A p [] (sectorsFrom (some kind) lba r.count) w w') w := by
  induction count, attempt, retries using readCd.induct maxRetries generalizing w with
  | case1 count attempt retries halved again =>
    rw [readCd]
    refine ⟨trivial, ?_⟩
    rintro (exc | data) w' ⟨c, -, hc⟩
    · have hfail : Ripped A p [] [] w w' := by
        rw [perform_readCdRaw_error hc]
        exact .logRead_failed
      dsimp only
      split
      · split
        · refine ensures_mono (halved ‹_›) ?_
          rintro r w'' ⟨hcount, hdata, hrip⟩
          refine ⟨?_, hdata, hfail.trans hrip⟩
          have := count.2
          simp only at hcount
          omega
        · split
          · trivial
          · refine ensures_mono (again ‹_›) ?_
            rintro r w'' ⟨hcount, hdata, hrip⟩
            exact ⟨hcount, hdata, hfail.trans hrip⟩
      · trivial
    · obtain ⟨rfl, rfl⟩ := perform_readCdRaw_ok hc
      exact ⟨le_rfl, rfl, .logRead_delivered⟩

theorem ensures_ripCdTrack {bin : Path} {total maxRetries lba : ℕ} {progress : Bool}
    {chunk : ChunkSize} {track : CDTrack} {s : CdState} (hlba : lba ≤ track.endLba + 1) :
    ensures (allowing m A) (ripCdTrack bin total progress chunk maxRetries track lba s)
      (fun s' w' => s'.digest = s.digest ++ m.disc.raws lba (track.endLba + 1 - lba) ∧
        Ripped A bin (m.disc.raws lba (track.endLba + 1 - lba))
          (sectorsFrom (some track.kind) lba (track.endLba + 1 - lba)) w w') w := by
  induction lba, s using ripCdTrack.induct chunk track generalizing w with
  | case1 lba s hle ih =>
    rw [ripCdTrack, dif_pos hle]
    refine ensures_bind ensures_checkpoint fun _ w₁ h₁ => ?_
    subst h₁
    refine ensures_bind (ensures_readCd bin) ?_
    rintro r w₂ ⟨hcount, hdata, h₂⟩
    have hle' : r.count ≤ track.endLba + 1 - lba := by simp only at hcount; omega
    refine ensures_bind ensures_write fun _ w₃ h₃ => ensures_bind ensures_emitProgress ?_
    rintro _ w₄ ⟨hr₄, ht₄, hf₄⟩
    refine ensures_mono (ih r (by omega)) ?_
    rintro s' w₅ ⟨hdig', h₅⟩
    have hsplit : r.count + (track.endLba + 1 - (lba + r.count)) = track.endLba + 1 - lba := by
      omega
    have h₄ : Ripped A bin [] [] w₃ w₄ := .of_eq hr₄ ht₄ hf₄
    refine ⟨?_, ?_⟩
    · rw [hdig', CdState.next, List.append_assoc, hdata, Disc.raws_append, hsplit]
    · have h := ((h₂.trans h₃).trans h₄).trans h₅
      simpa [hdata, Disc.raws_append, sectorsFrom_append, hsplit] using h
  | case2 lba s hgt =>
    rw [ripCdTrack, dif_neg hgt]
    have hz : track.endLba + 1 - lba = 0 := by omega
    refine ensures_return ⟨?_, ?_⟩
    · simp [hz, Disc.raws]
    · simpa [hz, Disc.raws, sectorsFrom] using Ripped.of_eq (A := A) (p := bin) (w := w) rfl rfl rfl

/-- The raw bytes of one track after the other. -/
def Disc.trackBytes (d : Disc) (tracks : List CDTrack) : Bytes :=
  tracks.flatMap fun track => d.raws track.startLba track.sectors

/-- The sectors of one track after the other. -/
def trackSectors (tracks : List CDTrack) : List (ℕ × Option TrackKind) :=
  tracks.flatMap fun track => sectorsFrom (some track.kind) track.startLba track.sectors

theorem CDTrack.sectors_eq (track : CDTrack) :
    track.endLba + 1 - track.startLba = track.sectors := by
  have := track.start_le_end
  rw [CDTrack.sectors]
  omega

theorem ensures_ripCdTracks {bin : Path} {total maxRetries : ℕ} {progress : Bool}
    {chunk : ChunkSize} {tracks : List CDTrack} {s : CdState} :
    ensures (allowing m A) (ripCdTracks bin total progress chunk maxRetries tracks s)
      (fun s' w' => s'.digest = s.digest ++ m.disc.trackBytes tracks ∧
        Ripped A bin (m.disc.trackBytes tracks) (trackSectors tracks) w w') w := by
  induction tracks generalizing s w with
  | nil => exact ensures_return ⟨by simp [Disc.trackBytes], .of_eq rfl rfl rfl⟩
  | cons track tracks ih =>
    refine ensures_bind (ensures_ripCdTrack (le_of_lt (Nat.lt_succ_of_le track.start_le_end))) ?_
    rintro s₁ w₁ ⟨hdig, h₁⟩
    rw [track.sectors_eq] at hdig h₁
    refine ensures_mono ih ?_
    rintro s₂ w₂ ⟨hdig', h₂⟩
    refine ⟨?_, ?_⟩
    · rw [hdig', hdig, List.append_assoc]
      rfl
    · exact h₁.trans h₂

theorem ensures_eitherExists {a b : Path} :
    ensures (allowing m A) (eitherExists a b)
      (fun present w' => present = ((w.files a).isSome || (w.files b).isSome) ∧ w' = w) w := by
  refine ensures_bind ensures_pathExists ?_
  rintro present w₁ ⟨hp, rfl⟩
  split
  · exact ensures_return ⟨by simp_all, rfl⟩
  · refine ensures_mono ensures_pathExists ?_
    rintro present' w₂ ⟨hp', rfl⟩
    exact ⟨by simp_all, rfl⟩

theorem ensures_raiseExisting {α : Type} {a b : Path} {Q : α → World → Prop} :
    ensures (allowing m A) (raiseExisting a b) Q w :=
  ensures_bind (ensures_true allowing_permissive _) fun _ _ _ => trivial

theorem ensures_writeText {p : Path} {data : Bytes} :
    ensures (allowing m A) (call (.writeText p data)) (fun _ w' =>
      (Stores A p → w'.files p = some data) ∧ (∀ q ≠ p, w'.files q = w.files q) ∧
        w'.reads = w.reads ∧ w'.texts = w.texts ++ [(p, data)]) w := by
  refine wp_call_iff.2 fun c hc => ⟨fun a w' h => ?_, fun _ _ _ => trivial⟩
  have hs := succeed_of_perform_ok h
  have hfault := fault_of_perform_ok rfl h
  cases hs
  refine ⟨fun hp => ?_, fun q hq => ?_, rfl, rfl⟩
  · simp [World.setFile, hp data c (.inr hc) hfault]
  · simp [World.setFile, hq]

theorem ensures_ripCdBody {bin cue : Path} {tracks : List CDTrack} {firstLba total maxRetries : ℕ}
    {progress : Bool} {chunk : ChunkSize} (hne : bin ≠ cue) :
    ensures (allowing m A) (ripCdBody bin cue tracks firstLba total progress chunk maxRetries)
      (fun s w' => s.digest = m.disc.trackBytes tracks ∧
        w'.sectorsRead = w.sectorsRead ++ trackSectors tracks ∧
        (Stores A bin → w'.files bin = some (m.disc.trackBytes tracks)) ∧
        ∃ text, generateCue bin.fileName (adjustTracks firstLba tracks) = .ok text ∧
          w'.texts = w.texts ++ [(cue, encodeUtf8 text)] ∧
          (Stores A cue → w'.files cue = some (encodeUtf8 text))) w := by
  refine ensures_bind ensures_openExclusive ?_
  rintro _ w₁ ⟨-, rfl⟩
  refine ensures_bind ensures_ripCdTracks ?_
  rintro s w₂ ⟨hdig, hrip⟩
  refine ensures_bind ensures_fsync fun _ w₃ h₃ => ?_
  subst h₃
  refine ensures_bind (Q := fun text w' => generateCue bin.fileName
    (adjustTracks firstLba tracks) = .ok text ∧ w' = w₃) (ensures_lift fun _ h => ⟨h, rfl⟩) ?_
  rintro text w₄ ⟨htext, rfl⟩
  refine ensures_bind ensures_writeText ?_
  rintro _ w₅ ⟨hcue, hothers, hreads, htexts⟩
  refine ensures_return ⟨hdig, ?_, fun hst => ?_, text, htext, by
    rw [htexts, hrip.texts]; rfl, hcue⟩
  · rw [World.sectorsRead, hreads]
    exact hrip.reads
  · rw [hothers bin hne]
    exact hrip.stored hst [] (by simp [World.setFile])

/-- A returned archive holds the tracks, and its CUE file is the sheet that belongs to them. -/
theorem ensures_ripCdBinCue {ext : Externals} {bin cue : Path} {tracks : List CDTrack}
    {maxRetries : ℕ} {progress : Bool} {chunk : ChunkSize} (hne : bin ≠ cue) :
    ensures (allowing m A) (ripCdBinCue ext bin cue tracks progress chunk maxRetries)
      (fun image w' => image.complete = true ∧
        image.sha256 = ext.hexdigest (m.disc.trackBytes tracks) ∧
        w'.sectorsRead = w.sectorsRead ++ trackSectors tracks ∧
        (Stores A bin → w'.files bin = some (m.disc.trackBytes tracks) ∧
          image.size = (m.disc.trackBytes tracks).length) ∧
        ∃ first text, tracks.head? = some first ∧
          generateCue bin.fileName (adjustTracks first.startLba tracks) = .ok text ∧
          w'.texts = w.texts ++ [(cue, encodeUtf8 text)] ∧
          (Stores A cue → w'.files cue = some (encodeUtf8 text))) w := by
  unfold ripCdBinCue
  split
  case h_2 => trivial
  case h_1 first last hfirst hlast =>
  refine ensures_bind ensures_ensureTemporarySpace fun _ w₁ h₁ => ?_
  subst h₁
  refine ensures_bind ensures_eitherExists ?_
  rintro b w₂ ⟨-, rfl⟩
  refine Or.elim (em (b = true)) (fun hb => by rw [if_pos hb]; exact ensures_raiseExisting)
    fun hb => ?_
  rw [if_neg hb]
  refine ensures_bind (ensures_tryCatch (ensures_ripCdBody hne)
    fun _ _ => ensures_removeAndRaise) ?_
  rintro s w₃ ⟨hdig, hreads, hfile, text, htext, htexts, hcue⟩
  refine ensures_bind ensures_stat ?_
  rintro n w₄ ⟨⟨data, hdata, rfl⟩, rfl⟩
  refine ensures_return
    ⟨rfl, by rw [hdig], hreads, fun hst => ?_, first, text, hfirst, htext, htexts,
    hcue⟩
  have hd := hfile hst
  rw [hdata] at hd
  cases hd
  exact ⟨hdata, rfl⟩

/-! ### The conversion -/

/-- The user data of the first `n` raw sectors of a file. -/
def convertBytes : ℕ → Bytes → Option Bytes
  | 0, _ => some []
  | n + 1, left =>
    if left.length < 2352 then none
    else do
      let userData ← (extract2048UserData (left.take 2352)).toOption
      let rest ← convertBytes n (left.drop 2352)
      return userData ++ rest

theorem ensures_convertLoop {bin iso : Path} {track : CDTrack} {progress : Bool} {remaining : ℕ}
    {left digest : Bytes} :
    ensures (allowing m A) (convertLoop bin iso track progress remaining left digest)
      (fun digest' w' => ∃ data, convertBytes remaining left = some data ∧
        digest' = digest ++ data ∧ Ripped A iso data [] w w') w := by
  induction remaining generalizing left digest w with
  | zero => exact ensures_return ⟨[], rfl, by simp, .of_eq rfl rfl rfl⟩
  | succ remaining ih =>
    refine ensures_bind ensures_checkpoint fun _ w₁ h₁ => ?_
    subst h₁
    refine ensures_bind (Q := fun _ w' => w' = w₁) (ensures_call ?_) fun size w₂ h₂ => ?_
    · rintro c - a w' h
      cases h
      rfl
    subst h₂
    refine Or.elim (em ((left.take size.1).length ≠ 2352))
      (fun h => by rw [if_pos h]; trivial) fun h => ?_
    have hsize : size.1 = 2352 ∧ 2352 ≤ left.length := by
      have := size.2.1
      simp only [List.length_take, not_not] at h
      omega
    rw [if_neg h]
    refine ensures_bind (Q := fun u w' => extract2048UserData (left.take size.1) = .ok u ∧ w' = w₂)
      (ensures_lift fun _ h => ⟨h, rfl⟩) ?_
    rintro u w₃ ⟨hu, rfl⟩
    refine ensures_bind ensures_write fun _ w₄ h₄ => ensures_bind ensures_emitProgress ?_
    rintro _ w₅ ⟨hr₅, ht₅, hf₅⟩
    have h₅ : Ripped A iso [] [] w₄ w₅ := .of_eq hr₅ ht₅ hf₅
    refine ensures_mono ih ?_
    rintro digest' w₆ ⟨data, hdata, hdig, h₆⟩
    refine ⟨u ++ data, ?_, by rw [hdig, List.append_assoc], ?_⟩
    · rw [hsize.1] at hu hdata
      simp [convertBytes, not_lt.2 hsize.2, hu, hdata, Except.toOption]
    · simpa using (h₄.trans h₅).trans h₆

theorem ensures_convertBody {bin iso : Path} {track : CDTrack} {firstLba : ℕ} {progress : Bool}
    {source : Bytes} (hbin : w.files bin = some source) :
    ensures (allowing m A) (convertBody bin iso track firstLba progress)
      (fun digest w' => firstLba ≤ track.startLba ∧
        convertBytes track.sectors (source.drop ((track.startLba - firstLba) * 2352)) =
          some digest ∧ (Stores A iso → w'.files iso = some digest)) w := by
  refine ensures_bind ensures_openRead ?_
  rintro source' w₁ ⟨hs, rfl⟩
  rw [hbin] at hs
  cases hs
  refine ensures_bind ensures_openExclusive ?_
  rintro _ w₂ ⟨-, rfl⟩
  refine Or.elim (em (track.startLba < firstLba)) (fun h => by rw [if_pos h]; trivial)
    fun hlba => ?_
  rw [if_neg hlba]
  refine ensures_bind ensures_convertLoop ?_
  rintro digest w₃ ⟨data, hdata, hdig, hrip⟩
  refine ensures_bind ensures_fsync fun _ w₄ h₄ => ?_
  subst h₄
  rw [List.nil_append] at hdig
  subst hdig
  refine ensures_return ⟨not_lt.1 hlba, hdata, fun hst => ?_⟩
  exact hrip.stored hst [] (by simp [World.setFile])

/-- A returned conversion holds the user data of the sectors of one data track. -/
theorem ensures_convertCdDataTrackToIso {ext : Externals} {bin iso : Path} {tracks : List CDTrack}
    {number : ℕ} {progress : Bool} {source : Bytes} (hbin : w.files bin = some source) :
    ensures (allowing m A) (convertCdDataTrackToIso ext bin iso tracks number progress)
      (fun image w' => image.complete = true ∧ ∃ track first data,
        tracks.find? (·.number = number) = some track ∧ tracks.head? = some first ∧
        track.kind ≠ .audio ∧ first.startLba ≤ track.startLba ∧
        convertBytes track.sectors (source.drop ((track.startLba - first.startLba) * 2352)) =
          some data ∧
        image.sha256 = ext.hexdigest data ∧
        (Stores A iso → w'.files iso = some data ∧ image.size = data.length)) w := by
  unfold convertCdDataTrackToIso
  split
  case h_2 => trivial
  case h_1 track first htrack hfirst =>
  refine Or.elim (em (track.kind = .audio)) (fun h => by rw [if_pos h]; trivial) fun hkind => ?_
  rw [if_neg hkind]
  refine ensures_bind ensures_ensureTemporarySpace fun _ w₁ h₁ => ?_
  subst h₁
  refine ensures_bind ensures_pathExists ?_
  rintro b w₂ ⟨-, rfl⟩
  refine Or.elim (em (b = true)) (fun hb => by rw [if_pos hb]; trivial) fun hb => ?_
  rw [if_neg hb]
  refine ensures_bind (ensures_tryCatch (ensures_convertBody hbin)
    fun _ _ => ensures_removeAndRaise) ?_
  rintro digest w₃ ⟨hlba, hdata, hfile⟩
  refine ensures_bind ensures_stat ?_
  rintro n w₄ ⟨⟨data, hread, rfl⟩, rfl⟩
  refine ensures_return ⟨rfl, track, first, digest, htrack, hfirst, hkind, hlba, hdata, rfl,
    fun hst => ?_⟩
  have hd := hfile hst
  rw [hread] at hd
  cases hd
  exact ⟨hread, rfl⟩

end Ps2Ripper
