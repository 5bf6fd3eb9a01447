import Ps2Ripper.Core.Calm
import Ps2Ripper.Imaging.VerificationSpec

/-!
# Ripping, converting, copying and validating without failures

For each function the condition under which it returns, and what it leaves behind; the condition is
exact, because without failures the function raises only where it does not hold.

* `Archivable`, `ConvertsTo`, `ChecksOut`: the conditions;
* `calm_ripDvdIso`, `calm_ripCdBinCue`, `calm_convertCdDataTrackToIso`, `calm_copyAndVerify`,
  `calm_validatePs2Iso`.
-/

namespace Ps2Ripper

open Interactive Prog

variable {m : Machine} {w : World} {α : Type}

theorem stores_calm (p : Path) : Stores (fun _ c => c = {}) p := by
  rintro data c (rfl | rfl) _ <;> rfl

/-! ### Ripping -/

theorem calm_checkpoint : wp (calm m) checkpoint (fun _ w' => w' = w) (fun _ _ => False) w :=
  wp_bind.2 (calm_call (o := .isRequested) rfl rfl)

theorem calm_emitProgress {progress : Bool} {snapshot : ProgressSnapshot} :
    wp (calm m) (emitProgress progress snapshot) (fun _ w' => w'.files = w.files)
      (fun _ _ => False) w := by
  unfold emitProgress
  split
  · exact calm_call rfl rfl
  · exact rfl

theorem calm_ensureTemporarySpace {d : Dir} {n : ℕ} :
    wp (calm m) (ensureTemporarySpace d n) (fun _ w' => n ≤ m.free d.volume ∧ w' = w)
      (fun _ _ => ¬ n ≤ m.free d.volume) w := by
  refine wp_bind.2
    (calm_call (o := .mkdir d) rfl (wp_bind.2 (calm_call (o := .diskUsage d) rfl ?_)))
  split
  · exact not_le.2 ‹_›
  · exact ⟨not_lt.1 ‹_›, rfl⟩

theorem succeeds_readDvd {maxRetries lba attempts retries : ℕ} {continueDamaged : Bool}
    {size : ChunkSize} :
    Succeeds m (readDvd maxRetries continueDamaged lba size attempts retries) w := by
  rw [readDvd]
  refine ⟨trivial, ?_⟩
  rintro r w' ⟨c, rfl, hc⟩
  cases hc
  trivial

theorem succeeds_ripDvdLoop {dest : Path} {total maxRetries lba : ℕ}
    {progress continueDamaged : Bool} {chunk : ChunkSize} {s : DvdState} :
    Succeeds m (ripDvdLoop dest total progress chunk maxRetries continueDamaged lba s) w := by
  induction lba, s using ripDvdLoop.induct total chunk generalizing w with
  | case1 lba s hlt ih =>
    rw [ripDvdLoop, dif_pos hlt]
    exact .bind calm_checkpoint fun _ _ _ => .bind succeeds_readDvd fun r _ _ =>
      .bind calm_write fun _ _ _ => .bind calm_emitProgress fun _ _ _ => ih r
  | case2 lba s hge =>
    rw [ripDvdLoop, dif_neg hge]
    trivial

theorem succeeds_ripDvdBody {dest : Path} {total maxRetries : ℕ} {progress : Bool}
    {chunk : ChunkSize} (hnew : w.files dest = none) :
    Succeeds m (ripDvdBody dest total progress chunk maxRetries false) w :=
  .bind (calm_openExclusive hnew) fun _ _ _ => .bind succeeds_ripDvdLoop fun _ _ _ =>
    .bind (calm_call (o := .fsync dest) rfl trivial) fun _ _ (_ : True) => trivial

/-- The DVD rip returns when there is room and the file is new. -/
theorem calm_ripDvdIso {ext : Externals} {dest : Path} {total maxRetries : ℕ} {progress : Bool}
    {chunk : ChunkSize} (hnew : w.files dest = none) :
    wp (calm m) (ripDvdIso ext dest total progress chunk maxRetries)
      (fun image w' => total * 2048 ≤ m.free dest.dir.volume ∧ image.complete = true ∧
        image.sha256 = ext.hexdigest (m.disc.blocks 0 total) ∧
        image.size = (m.disc.blocks 0 total).length ∧
        w'.files dest = some (m.disc.blocks 0 total) ∧ Frame {dest} w w')
      (fun _ _ => ¬ total * 2048 ≤ m.free dest.dir.volume) w := by
  have hraise : wp (calm m) (ripDvdIso ext dest total progress chunk maxRetries)
      (fun _ _ => total * 2048 ≤ m.free dest.dir.volume)
      (fun _ _ => ¬ total * 2048 ≤ m.free dest.dir.volume) w := by
    refine wp_seq calm_ensureTemporarySpace ?_ fun _ _ => id
    rintro _ w₁ ⟨hfree, rfl⟩
    refine wp_seq calm_pathExists ?_ fun _ _ => False.elim
    rintro b w₂ ⟨rfl, rfl⟩
    rw [hnew, if_neg (by simp)]
    refine wp_seq (calm_tryCatch ((succeeds_ripDvdBody hnew).and
      (ensures_ripDvdBody (A := fun _ c => c = {}))))
      (fun s w₃ h => ?_) fun _ _ => False.elim
    refine wp_seq (calm_stat (h.2.2.2 (stores_calm dest))) (fun _ _ _ => hfree)
      fun _ _ => False.elim
  refine wp_mono (wp_and hraise (wp_and (ensures_ripDvdIso (A := fun _ c => c = {}))
    (wp_frame (A := fun _ c => c = {}) ripDvdIso_within))) ?_ fun _ _ => And.left
  rintro image w' ⟨hfree, ⟨hcomplete, hsha, -, hstored⟩, hframe⟩
  obtain ⟨hfile, hsize⟩ := hstored (stores_calm dest)
  exact ⟨hfree, hcomplete, hsha, hsize, hfile, hframe⟩

/-! ### The CD archive -/

theorem succeeds_readCd {maxRetries lba attempt retries : ℕ} {kind : TrackKind}
    {count : ChunkSize} : Succeeds m (readCd maxRetries kind lba count attempt retries) w := by
  rw [readCd]
  refine ⟨trivial, ?_⟩
  rintro r w' ⟨c, rfl, hc⟩
  cases hc
  trivial

theorem succeeds_ripCdTrack {bin : Path} {total maxRetries lba : ℕ} {progress : Bool}
    {chunk : ChunkSize} {track : CDTrack} {s : CdState} :
    Succeeds m (ripCdTrack bin total progress chunk maxRetries track lba s) w := by
  induction lba, s using ripCdTrack.induct chunk track generalizing w with
  | case1 lba s hle ih =>
    rw [ripCdTrack, dif_pos hle]
    exact .bind calm_checkpoint fun _ _ _ => .bind succeeds_readCd fun r _ _ =>
      .bind calm_write fun _ _ _ => .bind calm_emitProgress fun _ _ _ => ih r
  | case2 lba s hgt =>
    rw [ripCdTrack, dif_neg hgt]
    trivial

theorem succeeds_ripCdTracks {bin : Path} {total maxRetries : ℕ} {progress : Bool}
    {chunk : ChunkSize} {tracks : List CDTrack} {s : CdState} :
    Succeeds m (ripCdTracks bin total progress chunk maxRetries tracks s) w := by
  induction tracks generalizing s w with
  | nil => trivial
  | cons track tracks ih => exact .bind succeeds_ripCdTrack fun _ _ _ => ih

/-- A handler that removes the outputs keeps what does not depend on the world. -/
theorem calm_removeAndRaise {outputs : List Path} {e : PyError} {Q : α → World → Prop} {P : Prop}
    (hP : P) : wp (calm m) (removeAndRaise outputs e) Q (fun _ _ => P) w :=
  wp_mono (wp_and (ensures_removeAndRaise (A := fun _ c => c = {})) (wp_const hP _))
    (fun _ _ => And.left) fun _ _ => And.right

/-- There is room for the archive of the tracks, and a CUE sheet for it. -/
def Archivable (m : Machine) (volume : Volume) (fileName : List Char) (tracks : List CDTrack) :
    Prop :=
  ∃ first last, tracks.head? = some first ∧ tracks.getLast? = some last ∧
    (last.endLba + 1 - first.startLba) * 2352 ≤ m.free volume ∧
    ∃ text, generateCue fileName (adjustTracks first.startLba tracks) = .ok text

theorem calm_ripCdBody {bin cue : Path} {tracks : List CDTrack} {firstLba total maxRetries : ℕ}
    {progress : Bool} {chunk : ChunkSize} (hbin : w.files bin = none) :
    wp (calm m) (ripCdBody bin cue tracks firstLba total progress chunk maxRetries)
      (fun _ _ => ∃ text, generateCue bin.fileName (adjustTracks firstLba tracks) = .ok text)
      (fun _ _ => ¬ ∃ text, generateCue bin.fileName (adjustTracks firstLba tracks) = .ok text)
      w := by
  refine wp_seq (calm_openExclusive hbin) (fun _ w₁ _ => ?_) fun _ _ => False.elim
  refine wp_seq succeeds_ripCdTracks (fun s w₂ _ => ?_) fun _ _ => False.elim
  refine wp_bind.2 (calm_call (o := .fsync bin) rfl ?_)
  refine wp_bind.2 ((wp_lift _).2 ⟨fun text htext => ?_, fun e he => ?_⟩)
  · exact wp_bind.2 (calm_call (o := .writeText cue _) rfl ⟨text, htext⟩)
  · rintro ⟨text, htext⟩
    rw [he] at htext
    cases htext

theorem calm_eitherExists {a b : Path} (ha : w.files a = none) (hb : w.files b = none) :
    wp (calm m) (eitherExists a b) (fun present w' => present = false ∧ w' = w)
      (fun _ _ => False) w := by
  refine wp_seq calm_pathExists ?_ fun _ _ => False.elim
  rintro present w₁ ⟨rfl, rfl⟩
  rw [ha, if_neg (by simp)]
  refine wp_mono calm_pathExists ?_ fun _ _ => False.elim
  rintro present w₂ ⟨rfl, rfl⟩
  exact ⟨by simp [hb], rfl⟩

/-- The archive is written exactly when it is `Archivable`. -/
theorem calm_ripCdBinCue {ext : Externals} {bin cue : Path} {tracks : List CDTrack}
    {maxRetries : ℕ} {progress : Bool} {chunk : ChunkSize} (hne : bin ≠ cue)
    (hbin : w.files bin = none) (hcue : w.files cue = none) :
    wp (calm m) (ripCdBinCue ext bin cue tracks progress chunk maxRetries)
      (fun _ w' => Archivable m bin.dir.volume bin.fileName tracks ∧
        w'.files bin = some (m.disc.trackBytes tracks) ∧ (w'.files cue).isSome ∧
        Frame {bin, cue} w w')
      (fun _ _ => ¬ Archivable m bin.dir.volume bin.fileName tracks) w := by
  have hraise : wp (calm m) (ripCdBinCue ext bin cue tracks progress chunk maxRetries)
      (fun _ _ => Archivable m bin.dir.volume bin.fileName tracks)
      (fun _ _ => ¬ Archivable m bin.dir.volume bin.fileName tracks) w := by
    unfold ripCdBinCue
    split
    case h_2 hnone =>
      rintro ⟨first, last, hfirst, hlast, -⟩
      exact hnone first last hfirst hlast
    case h_1 first last hfirst hlast =>
    have hiff : Archivable m bin.dir.volume bin.fileName tracks ↔
        (last.endLba + 1 - first.startLba) * 2352 ≤ m.free bin.dir.volume ∧
          ∃ text, generateCue bin.fileName (adjustTracks first.startLba tracks) = .ok text := by
      simp [Archivable, hfirst, hlast]
    rw [hiff]
    refine wp_seq calm_ensureTemporarySpace ?_ fun _ _ h h' => h h'.1
    rintro _ w₁ ⟨hfree, rfl⟩
    refine wp_seq (calm_eitherExists hbin hcue) ?_ fun _ _ => False.elim
    rintro _ w₂ ⟨rfl, rfl⟩
    rw [if_neg (by simp)]
    refine wp_bind.2 (wp_tryCatch.2 (wp_mono (wp_and (calm_ripCdBody hbin)
      (ensures_ripCdBody (A := fun _ c => c = {}) hne)) ?_ ?_))
    · rintro s w₃ ⟨htext, -, -, hfile, -⟩
      exact wp_bind.2 (wp_mono (calm_stat (hfile (stores_calm bin)))
        (fun _ _ _ => ⟨hfree, htext⟩) fun _ _ => False.elim)
    · rintro e w₃ ⟨htext, -⟩
      exact calm_removeAndRaise fun h => htext h.2
  refine wp_mono (wp_and hraise (wp_and (ensures_ripCdBinCue (A := fun _ c => c = {}) hne)
    (wp_frame (A := fun _ c => c = {}) ripCdBinCue_within))) ?_ fun _ _ => And.left
  rintro image w' ⟨harch, ⟨-, -, -, hstored, first, text, -, -, -, hcue⟩, hframe⟩
  exact ⟨harch, (hstored (stores_calm bin)).1, by simp [hcue (stores_calm cue)], hframe⟩

/-! ### The conversion -/

theorem calm_convertLoop {bin iso : Path} {track : CDTrack} {progress : Bool} {remaining : ℕ}
    {left digest : Bytes} :
    wp (calm m) (convertLoop bin iso track progress remaining left digest)
      (fun _ _ => ∃ data, convertBytes remaining left = some data)
      (fun _ _ => ¬ ∃ data, convertBytes remaining left = some data) w := by
  induction remaining generalizing left digest w with
  | zero => exact ⟨[], rfl⟩
  | succ remaining ih =>
    refine wp_seq calm_checkpoint (fun _ w₁ h₁ => ?_) fun _ _ => False.elim
    refine wp_bind.2 (calm_call (o := .read bin left.length 2352) rfl ?_)
    have hsize : (readSize left.length 2352 none).1 = min left.length 2352 := rfl
    dsimp only
    rw [hsize]
    split
    · rename_i hshort
      have hlt : left.length < 2352 := by
        rw [List.length_take] at hshort
        omega
      rintro ⟨data, hdata⟩
      simp [convertBytes, hlt] at hdata
    · rename_i hlong
      have hge : ¬ left.length < 2352 := by
        rw [List.length_take] at hlong
        omega
      have hmin : min left.length 2352 = 2352 := by omega
      rw [hmin]
      refine wp_bind.2 ((wp_lift _).2 ⟨fun u hu => ?_, fun e he => ?_⟩)
      · refine wp_seq calm_write (fun _ w₂ _ => ?_) fun _ _ => False.elim
        refine wp_seq calm_emitProgress (fun _ w₃ _ => ?_) fun _ _ => False.elim
        refine wp_mono ih ?_ ?_
        · rintro _ _ ⟨data, hdata⟩
          exact ⟨u ++ data, by simp [convertBytes, hge, hu, hdata, Except.toOption]⟩
        · rintro _ _ hnone ⟨data, hdata⟩
          refine hnone ?_
          simp only [convertBytes, hge, ↓reduceIte, hu, Except.toOption, Option.bind_eq_bind,
            Option.bind_some, Option.bind_eq_some_iff] at hdata
          obtain ⟨rest, hrest, -⟩ := hdata
          exact ⟨rest, hrest⟩
      · rintro ⟨data, hdata⟩
        simp [convertBytes, hge, he, Except.toOption] at hdata

/-- The conversion of the track with that number yields `data`. -/
def ConvertsTo (m : Machine) (volume : Volume) (tracks : List CDTrack) (number : ℕ) (source : Bytes)
    (data : Bytes) : Prop :=
  ∃ track first, tracks.find? (·.number = number) = some track ∧ tracks.head? = some first ∧
    track.kind ≠ .audio ∧ track.sectors * 2048 ≤ m.free volume ∧ first.startLba ≤ track.startLba ∧
    convertBytes track.sectors (source.drop ((track.startLba - first.startLba) * 2352)) = some data

theorem calm_convertBody {bin iso : Path} {track : CDTrack} {firstLba : ℕ} {progress : Bool}
    {source : Bytes} (hbin : w.files bin = some source) (hiso : w.files iso = none) :
    wp (calm m) (convertBody bin iso track firstLba progress)
      (fun _ _ => firstLba ≤ track.startLba ∧ ∃ data, convertBytes track.sectors
        (source.drop ((track.startLba - firstLba) * 2352)) = some data)
      (fun _ _ => ¬ (firstLba ≤ track.startLba ∧ ∃ data, convertBytes track.sectors
        (source.drop ((track.startLba - firstLba) * 2352)) = some data)) w := by
  refine wp_seq (calm_openRead hbin) ?_ fun _ _ => False.elim
  rintro _ w₁ ⟨rfl, rfl⟩
  refine wp_seq (calm_openExclusive hiso) (fun _ w₂ _ => ?_) fun _ _ => False.elim
  split
  · exact fun h => absurd h.1 (not_le.2 ‹_›)
  · refine wp_seq calm_convertLoop (fun digest w₃ h => ?_) fun _ _ h h' => h h'.2
    exact wp_bind.2 (calm_call (o := .fsync iso) rfl ⟨not_lt.1 ‹_›, h⟩)

/-- The conversion returns exactly when there is something to convert to. -/
theorem calm_convertCdDataTrackToIso {ext : Externals} {bin iso : Path} {tracks : List CDTrack}
    {number : ℕ} {progress : Bool} {source : Bytes} (hbin : w.files bin = some source)
    (hiso : w.files iso = none) :
    wp (calm m) (convertCdDataTrackToIso ext bin iso tracks number progress)
      (fun image w' => ∃ data, ConvertsTo m iso.dir.volume tracks number source data ∧
        image.complete = true ∧ image.sha256 = ext.hexdigest data ∧ image.size = data.length ∧
        w'.files iso = some data ∧ Frame {iso} w w')
      (fun _ _ => ¬ ∃ data, ConvertsTo m iso.dir.volume tracks number source data) w := by
  -- When it returns; what it returns is known already, and determined by the BIN file.
  have hraise : wp (calm m) (convertCdDataTrackToIso ext bin iso tracks number progress)
      (fun _ _ => ∃ data, ConvertsTo m iso.dir.volume tracks number source data)
      (fun _ _ => ¬ ∃ data, ConvertsTo m iso.dir.volume tracks number source data) w := by
    unfold convertCdDataTrackToIso
    split
    case h_2 hnone =>
      rintro ⟨data, track, first, htrack, hfirst, -⟩
      exact hnone track first htrack hfirst
    case h_1 track first htrack hfirst =>
    have hiff : (∃ data, ConvertsTo m iso.dir.volume tracks number source data) ↔
        track.kind ≠ .audio ∧ track.sectors * 2048 ≤ m.free iso.dir.volume ∧
          first.startLba ≤ track.startLba ∧ ∃ data, convertBytes track.sectors
            (source.drop ((track.startLba - first.startLba) * 2352)) = some data := by
      simp [ConvertsTo, htrack, hfirst]
    rw [hiff]
    refine Or.elim (em (track.kind = .audio)) (fun h => by rw [if_pos h]; exact fun h' => h'.1 h)
      fun hkind => ?_
    rw [if_neg hkind]
    refine wp_seq calm_ensureTemporarySpace ?_ fun _ _ h h' => h h'.2.1
    rintro _ w₁ ⟨hfree, rfl⟩
    refine wp_seq calm_pathExists ?_ fun _ _ => False.elim
    rintro _ w₂ ⟨rfl, rfl⟩
    rw [hiso, if_neg (by simp)]
    refine wp_bind.2 (wp_tryCatch.2 (wp_mono (wp_and (calm_convertBody hbin hiso)
      (ensures_convertBody (A := fun _ c => c = {}) hbin)) ?_ ?_))
    · rintro digest w₃ ⟨⟨hlba, hdata⟩, -, -, hfile⟩
      exact wp_bind.2 (wp_mono (calm_stat (hfile (stores_calm iso)))
        (fun _ _ _ => ⟨hkind, hfree, hlba, hdata⟩) fun _ _ => False.elim)
    · rintro e w₃ ⟨h, -⟩
      exact calm_removeAndRaise fun h' => h h'.2.2
  have hfree : ∀ data, ConvertsTo m iso.dir.volume tracks number source data →
      ∀ data', (∃ track first, tracks.find? (·.number = number) = some track ∧
        tracks.head? = some first ∧ convertBytes track.sectors
          (source.drop ((track.startLba - first.startLba) * 2352)) = some data') →
            data' = data := by
    rintro data ⟨track, first, htrack, hfirst, -, -, -, hdata⟩ data' ⟨track', first', ht, hf, hd⟩
    rw [htrack] at ht
    rw [hfirst] at hf
    cases ht
    cases hf
    rw [hdata] at hd
    exact (Option.some.inj hd).symm
  refine wp_mono (wp_and hraise (wp_and (ensures_convertCdDataTrackToIso
    (A := fun _ c => c = {}) hbin) (wp_frame (A := fun _ c => c = {})
      convertCdDataTrackToIso_within))) ?_ fun _ _ => And.left
  rintro image w' ⟨⟨data, hconv⟩,
    ⟨hcomplete, track, first, data', htrack, hfirst, -, -, hdata, hsha, hstored⟩, hframe⟩
  obtain rfl := hfree data hconv data' ⟨track, first, htrack, hfirst, hdata⟩
  obtain ⟨hfile, hsize⟩ := hstored (stores_calm iso)
  exact ⟨data', hconv, hcomplete, hsha, hsize, hfile, hframe⟩

/-! ### Hashing and copying -/

theorem succeeds_checkpointIf {token : Bool} : Succeeds m (checkpointIf token) w := by
  unfold checkpointIf
  split
  · exact .of_wp calm_checkpoint
  · trivial

theorem succeeds_hashLoop {path : Path} {token : Bool} {chunkSize : ℕ} {left digest : Bytes} :
    Succeeds m (hashLoop path token chunkSize left digest) w := by
  induction left, digest using hashLoop.induct path chunkSize generalizing w with
  | case1 left digest ih =>
    rw [hashLoop]
    refine .bind (Q := fun _ _ => True) (calm_call rfl trivial) fun size w₁ _ => ?_
    split
    · exact .bind succeeds_checkpointIf fun _ _ _ => ih size ‹_›
    · trivial

theorem calm_sha256File {ext : Externals} {path : Path} {token : Bool} {data : Bytes}
    (h : w.files path = some data) :
    wp (calm m) (sha256File ext path token) (fun hash w' => hash = ext.hexdigest data ∧ w' = w)
      (fun _ _ => False) w := by
  have hs : Succeeds m (sha256File ext path token) w := by
    refine .bind (calm_stat h) ?_
    rintro _ w₁ ⟨-, rfl⟩
    exact .bind (calm_openRead h) fun _ _ _ => .bind succeeds_hashLoop fun _ _ _ => trivial
  refine wp_mono (hs.and ensures_sha256File) ?_ fun _ _ => id
  rintro hash w' ⟨⟨data', hdata, rfl⟩, rfl⟩
  rw [h] at hdata
  cases hdata
  exact ⟨rfl, rfl⟩

theorem succeeds_copyLoop {source dest : Path} {token progress : Bool}
    {total chunkSize completed : ℕ}
    {left : Bytes} :
    Succeeds m (copyLoop source dest token progress total chunkSize left completed) w := by
  induction left, completed using copyLoop.induct source chunkSize generalizing w with
  | case1 left completed ih =>
    rw [copyLoop]
    refine .bind (Q := fun _ _ => True) (calm_call rfl trivial) fun size w₁ _ => ?_
    split
    · exact .bind succeeds_checkpointIf fun _ _ _ => .bind calm_write fun _ _ _ =>
        .bind calm_emitProgress fun _ _ _ => ih size ‹_›
    · trivial

/-- A copy to a new file goes through when the expected digest is the right one. -/
theorem calm_copyAndVerify {ext : Externals} {source dest : Path} {token progress : Bool}
    {data : Bytes} (hsource : w.files source = some data) (hdest : w.files dest = none) :
    wp (calm m) (copyAndVerify ext source dest (ext.hexdigest data) token progress)
      (fun hash w' => hash = ext.hexdigest data ∧ w'.files dest = some data ∧ Frame {dest} w w')
      (fun _ _ => False) w := by
  have hs : Succeeds m (copyAndVerify ext source dest (ext.hexdigest data) token progress) w := by
    refine .bind calm_pathExists ?_
    rintro _ w₁ ⟨rfl, rfl⟩
    rw [hdest, if_neg (by simp)]
    refine .bind (Q := fun _ w' => w' = w₁) (calm_call (o := .mkdir dest.dir) rfl rfl)
      fun _ w₂ h₂ => ?_
    subst h₂
    refine .bind (calm_stat hsource) ?_
    rintro _ w₃ ⟨-, rfl⟩
    refine calm_tryCatch ?_
    refine wp_seq (calm_openRead hsource) ?_ fun _ _ => id
    rintro _ w₄ ⟨rfl, rfl⟩
    refine wp_seq (calm_openExclusive hdest) (fun _ w₅ h₅ => ?_) fun _ _ => id
    refine wp_seq (succeeds_copyLoop.and (ensures_copyLoop (by decide))) (fun _ w₆ h₆ => ?_)
      fun _ _ => id
    refine wp_bind.2 (calm_call (o := .fsync dest) rfl ?_)
    have hfile := h₆.stored (stores_calm dest) [] (by simp [h₅, World.setFile])
    refine wp_seq (calm_sha256File hfile) ?_ fun _ _ => id
    rintro _ w₇ ⟨rfl, -⟩
    rw [List.nil_append, if_neg (not_not.2 rfl)]
    trivial
  refine wp_mono (wp_and (hs.and ensures_copyAndVerify) (wp_frame (A := fun _ c => c = {})
    copyAndVerify_within)) ?_ fun _ _ => And.left
  rintro hash w' ⟨⟨-, data', hdata, hstored⟩, hframe⟩
  rw [hsource] at hdata
  cases hdata
  obtain ⟨hfile, rfl⟩ := hstored (stores_calm dest)
  exact ⟨rfl, hfile, hframe⟩

/-! ### Validating -/

/-- The bytes are an image of the expected game. -/
def ChecksOut (ext : Externals) (data : Bytes) (expectedGameId : String) : Prop :=
  16 * 2048 ≤ data.length ∧ ∃ iso target cnf, ext.openIso (.ofBytes data) = .ok iso ∧
    iso.getRecord "/SYSTEM.CNF;1" = .ok true ∧ iso.getFile "/SYSTEM.CNF;1" = .ok target ∧
    parseSystemCnf target = .ok cnf ∧ (expectedGameId ≠ "" → cnf.gameId = expectedGameId)

theorem checksOut_iff {ext : Externals} {data : Bytes} {expected : String} {iso : Iso}
    (hsize : 16 * 2048 ≤ data.length) (hiso : ext.openIso (.ofBytes data) = .ok iso) :
    ChecksOut ext data expected ↔ iso.getRecord "/SYSTEM.CNF;1" = .ok true ∧
      ∃ target, iso.getFile "/SYSTEM.CNF;1" = .ok target ∧ ∃ cnf, parseSystemCnf target = .ok cnf ∧
        (expected ≠ "" → cnf.gameId = expected) := by
  constructor
  · rintro ⟨-, iso', target, cnf, hopen, hrecord, hfile, hcnf, hid⟩
    rw [hiso] at hopen
    cases hopen
    exact ⟨hrecord, target, hfile, cnf, hcnf, hid⟩
  · rintro ⟨hrecord, target, hfile, cnf, hcnf, hid⟩
    exact ⟨hsize, iso, target, cnf, hiso, hrecord, hfile, hcnf, hid⟩

theorem calm_validateBody {path : Path} {expected : String} {data : Bytes}
    (h : w.files path = some data) (hsize : 16 * 2048 ≤ data.length) :
    wp (calm m) (validateBody path (some expected))
      (fun _ _ => ChecksOut m.toExternals data expected)
      (fun _ _ => ¬ ChecksOut m.toExternals data expected) w := by
  cases hiso : m.openIso (.ofBytes data) with
  | error e =>
    refine wp_bind.2 (wp_call_calm.2 ⟨fun a w' hc => ?_, fun e w' hc => ?_⟩)
    · simp [succeed, World.source, h, hiso, bind, Except.bind] at hc
    · rintro ⟨-, iso, -, -, hopen, -⟩
      rw [hiso] at hopen
      cases hopen
  | ok iso =>
    rw [checksOut_iff hsize hiso]
    refine wp_bind.2 (wp_call_calm.2 ⟨fun record w' hc => ?_, fun e w' hc => ?_⟩)
    · simp only [succeed, World.source, h, hiso, bind, Except.bind, Prod.mk.injEq] at hc
      obtain ⟨hrecord, rfl⟩ := hc
      cases record with
      | false =>
        rintro ⟨hrecord', -⟩
        rw [hrecord] at hrecord'
        cases hrecord'
      | true =>
        refine wp_bind.2 (wp_call_calm.2 ⟨fun target w' hc => ?_, fun e w' hc => ?_⟩)
        · simp only [succeed, World.source, h, hiso, bind, Except.bind, Prod.mk.injEq] at hc
          obtain ⟨htarget, rfl⟩ := hc
          refine wp_bind.2 ((wp_lift _).2 ⟨fun cnf hcnf => ?_, fun e he => ?_⟩)
          · dsimp only
            split
            · rename_i hne
              rintro ⟨-, target', htarget', cnf', hcnf', hid⟩
              rw [htarget] at htarget'
              cases htarget'
              rw [hcnf] at hcnf'
              cases hcnf'
              exact hne.2 (hid hne.1)
            · rename_i hne
              exact ⟨hrecord, target, htarget, cnf, hcnf,
                fun hx => not_not.1 fun hy => hne ⟨hx, hy⟩⟩
          · rintro ⟨-, target', htarget', cnf, hcnf, -⟩
            rw [htarget] at htarget'
            cases htarget'
            rw [he] at hcnf
            cases hcnf
        · simp only [succeed, World.source, h, hiso, bind, Except.bind, Prod.mk.injEq] at hc
          rintro ⟨-, target, htarget, -⟩
          rw [hc.1] at htarget
          cases htarget
    · simp only [succeed, World.source, h, hiso, bind, Except.bind, Prod.mk.injEq] at hc
      rintro ⟨hrecord, -⟩
      rw [hc.1] at hrecord
      cases hrecord

/-- Validation returns exactly when the file checks out. -/
theorem calm_validatePs2Iso {path : Path} {expected : String} {data : Bytes}
    (h : w.files path = some data) :
    wp (calm m) (validatePs2Iso path (some expected))
      (fun _ w' => ChecksOut m.toExternals data expected ∧ Frame ∅ w w')
      (fun _ _ => ¬ ChecksOut m.toExternals data expected) w := by
  have hraise : wp (calm m) (validatePs2Iso path (some expected))
      (fun _ _ => ChecksOut m.toExternals data expected)
      (fun _ _ => ¬ ChecksOut m.toExternals data expected) w := by
    refine wp_seq (calm_stat h) ?_ fun _ _ => False.elim
    rintro _ w₁ ⟨rfl, rfl⟩
    split
    · rename_i hsmall
      exact fun hc => absurd hc.1 (not_le.2 hsmall)
    · rename_i hlarge
      refine wp_tryCatch.2 (wp_mono (calm_validateBody h (not_lt.1 hlarge)) (fun _ _ => id) ?_)
      intro e w₂ hno
      unfold isoValidationFailed
      split <;> exact hno
  exact wp_mono (wp_and hraise (wp_frame (A := fun _ c => c = {}) validatePs2Iso_within))
    (fun _ _ => id) fun _ _ => And.left

end Ps2Ripper
