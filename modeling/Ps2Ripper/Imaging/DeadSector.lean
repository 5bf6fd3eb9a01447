import Ps2Ripper.Imaging.Retries

/-!
# When all retries of a sector are made

`deadAt n` is a drive that cannot read the sector `n`.  On it a request of several sectors uses up
retries before the single sector is tried (`ripDvdIso_dead`, `ripCdBinCue_dead`); so all retries are
made exactly when there are none to make or no request is ever halved (`honoursRetries_iff`).
-/

namespace Ps2Ripper

open Interactive Prog

variable {m : Machine} {w : World}

/-! ### A sector that can never be read -/

/-- Every read that starts at the sector `n` fails, and every other step goes through. -/
def deadAt (n : ℕ) : Oracle := fun _ o =>
  match o with
  | .readBlocks lba _ | .readCdRaw lba _ _ =>
    if lba = n then { fault := some (.osError "The sector cannot be read") } else {}
  | _ => {}

/-- The environment of `deadAt n`. -/
abbrev dead (m : Machine) (n : ℕ) : Contract interface PyError World :=
  allowing m fun o c => c = deadAt n 0 o

theorem deadAt_of_isQuiet {n : ℕ} {o : Op} (h : o.isQuiet = true) : deadAt n 0 o = {} := by
  cases o <;> first | rfl | cases h

theorem onlyReadsDeclare_dead (n : ℕ) : OnlyReadsDeclare (deadAt n).choices := by
  rintro o c e ⟨k, rfl⟩ hfault ho
  have hnone : deadAt n k o = {} := deadAt_of_isQuiet ho
  rw [hnone] at hfault
  cases hfault

/-- A step that is let through runs as without failures. -/
theorem wp_dead {n : ℕ} {α : Type} {p : Program α} {Q : α → World → Prop}
    {E : PyError → World → Prop}
    (hp : p.Uses fun (o : Op) => deadAt n 0 o = {}) (h : wp (calm m) p Q E w) :
    wp (dead m n) p Q E w :=
  wp_of_calm (fun _ ho => ho) hp h

theorem readDvd_dead {maxRetries n attempts retries : ℕ} {size : ChunkSize} :
    wp (dead m n) (readDvd maxRetries false n size attempts retries) (fun _ _ => False)
      (fun e _ => n ∈ e.declared) w := by
  induction size, attempts, retries using readDvd.induct maxRetries generalizing w with
  | case1 size attempts retries halved again =>
    rw [readDvd]
    refine ⟨trivial, ?_⟩
    rintro r w' ⟨c, rfl, hc⟩
    have hr : r = .error (.osError "The sector cannot be read") := by
      simp only [perform, deadAt, if_true, Op.infallible] at hc
      cases hc
      rfl
    subst hr
    dsimp only
    rw [if_pos (by rfl)]
    split
    · exact halved ‹_›
    split
    · exact again ‹_›
    · rw [if_neg Bool.false_ne_true]
      rfl

theorem ripDvdIso_dead {dest : Path} {total maxRetries : ℕ} {progress : Bool} {chunk : ChunkSize}
    (htotal : 0 < total) (hnew : w.files dest = none)
    (hfree : total * 2048 ≤ m.free dest.dir.volume) :
    wp (dead m 0) (ripDvdIso m.toExternals dest total progress chunk maxRetries)
      (fun _ _ => False) (fun e w' => 0 ∈ e.declared ∧
        Extends w (gaveUpReads maxRetries none 0 (min chunk.1 total) 0) w') w := by
  refine wp_seq (wp_dead ?_ calm_ensureTemporarySpace) ?_ fun _ _ h => absurd hfree h
  · exact .bind (uses_of rfl) fun _ => .bind (uses_of rfl) fun _ => .ite (fun _ => trivial)
      fun _ => trivial
  rintro _ w₁ ⟨-, rfl⟩
  refine wp_seq (wp_dead (uses_of rfl) calm_pathExists) ?_ fun _ _ => False.elim
  rintro present w₂ ⟨rfl, rfl⟩
  rw [hnew, if_neg (by simp)]
  refine wp_bind.2 (wp_tryCatch.2 ?_)
  refine wp_seq (wp_dead (uses_of rfl) (calm_openExclusive hnew)) ?_ fun _ _ => False.elim
  rintro _ w₃ rfl
  rw [ripDvdLoop, dif_pos htotal]
  refine wp_bind.2 (wp_seq (wp_dead ?_ calm_checkpoint) ?_ fun _ _ => False.elim)
  · exact .bind (uses_of rfl) fun _ => .ite (fun _ => trivial) fun _ => trivial
  rintro _ w₄ rfl
  refine wp_seq (wp_and (readDvd_dead (n := 0)) wp_readDvd) (fun _ _ h => h.1.elim) ?_
  rintro e w₅ ⟨hdecl, log, hlog, hall⟩
  obtain ⟨-, rfl⟩ := hall 0 hdecl
  exact wp_bind.2 (wp_dead (uses_of rfl) (calm_call (o := .unlink dest) rfl ⟨hdecl, hlog⟩))

/-! ### The archive of a disc with such a sector -/

theorem readCd_dead {maxRetries n attempt retries : ℕ} {kind : TrackKind} {count : ChunkSize} :
    wp (dead m n) (readCd maxRetries kind n count attempt retries) (fun _ _ => False)
      (fun e _ => n ∈ e.declared) w := by
  induction count, attempt, retries using readCd.induct maxRetries generalizing w with
  | case1 count attempt retries halved again =>
    rw [readCd]
    refine ⟨trivial, ?_⟩
    rintro r w' ⟨c, rfl, hc⟩
    have hr : r = .error (.osError "The sector cannot be read") := by
      simp only [perform, deadAt, if_true, Op.infallible] at hc
      cases hc
      rfl
    subst hr
    dsimp only
    rw [if_pos (by rfl)]
    split
    · exact halved ‹_›
    split
    · exact rfl
    · exact again ‹_›

theorem readCd_alive {n maxRetries lba attempt retries : ℕ} {kind : TrackKind} {count : ChunkSize}
    (h : lba ≠ n) :
    (readCd maxRetries kind lba count attempt retries).Uses fun (o : Op) => deadAt n 0 o = {} := by
  induction count, attempt, retries using readCd.induct maxRetries with
  | case1 count attempt retries halved again =>
    rw [readCd]
    refine ⟨if_neg h, ?_⟩
    rintro (exc | data)
    · exact .ite (fun _ => .ite halved fun _ => .ite (fun _ => trivial) again) fun _ => trivial
    · trivial

theorem ripCdTrack_alive {bin : Path} {n total maxRetries lba : ℕ} {progress : Bool}
    {chunk : ChunkSize} {track : CDTrack} {s : CdState} (h : track.endLba < n) :
    (ripCdTrack bin total progress chunk maxRetries track lba s).Uses
      fun (o : Op) => deadAt n 0 o = {} := by
  induction lba, s using ripCdTrack.induct chunk track with
  | case1 lba s hle ih =>
    rw [ripCdTrack, dif_pos hle]
    refine .bind (.bind (uses_of rfl) fun _ => .ite (fun _ => trivial) fun _ => trivial) fun _ =>
      .bind (readCd_alive (by omega)) fun r => .bind (uses_of rfl) fun _ =>
        .bind (.ite (fun _ => uses_of rfl) fun _ => trivial) fun _ => ih r
  | case2 lba s hgt =>
    rw [ripCdTrack, dif_neg hgt]
    trivial

/-- Some more reads were sent, and all of them delivered. -/
def ReadsOn (w w' : World) : Prop := ∃ log, Extends w log w' ∧ ∀ c ∈ log, c.ok = true

theorem ReadsOn.of_eq {w' : World} (h : w'.reads = w.reads) : ReadsOn w w' :=
  ⟨[], Extends.refl.of_eq h, by simp⟩

theorem ReadsOn.trans {w' w'' : World} (h : ReadsOn w w') (h' : ReadsOn w' w'') :
    ReadsOn w w'' := by
  obtain ⟨log, hlog, hok⟩ := h
  obtain ⟨log', hlog', hok'⟩ := h'
  refine ⟨_, hlog.trans hlog', fun c hc => ?_⟩
  obtain hc | hc := List.mem_append.1 hc
  · exact hok c hc
  · exact hok' c hc

theorem readsOn_of_succeed (o : Op) : ReadsOn w (succeed m {} w o).2 := by
  cases o with
  | readBlocks lba count => exact ⟨[⟨lba, count, none, true⟩], rfl, by simp⟩
  | readCdRaw lba count kind => exact ⟨[⟨lba, count, some kind, true⟩], rfl, by simp⟩
  | isoRecord source isoPath => exact .of_eq rfl
  | isoFile source isoPath => exact .of_eq rfl
  | _ => exact .of_eq (reads_of_perform (m := m) (c := {}) rfl)

/-- Without failures every read delivers. -/
theorem calm_reads {α : Type} {p : Program α} :
    wp (calm m) p (fun _ w' => ReadsOn w w') (fun _ w' => ReadsOn w w') w := by
  refine wp_of_uses (R := ReadsOn) (fun _ => .of_eq rfl) .trans (fun _ _ _ _ => trivial) ?_
    (uses_true p)
  rintro w o r w' - ⟨c, rfl, hc⟩
  have h := readsOn_of_succeed (m := m) (w := w) o
  rwa [show (succeed m {} w o).2 = w' from congrArg Prod.snd hc] at h

theorem ripCdTracks_dead {bin : Path} {total maxRetries : ℕ} {progress : Bool} {chunk : ChunkSize}
    {before after : List CDTrack} {track : CDTrack} {s : CdState}
    (hbefore : ∀ t ∈ before, t.endLba < track.startLba) :
    wp (dead m track.startLba)
      (ripCdTracks bin total progress chunk maxRetries (before ++ track :: after) s)
      (fun _ _ => False) (fun e w' => track.startLba ∈ e.declared ∧ ∃ w₁, ReadsOn w w₁ ∧
        Extends w₁ (gaveUpReads maxRetries (some track.kind) track.startLba
          (min chunk.1 (track.endLba - track.startLba + 1)) 0) w') w := by
  induction before generalizing s w with
  | nil =>
    refine wp_bind.2 ?_
    rw [ripCdTrack, dif_pos track.start_le_end]
    refine wp_seq (wp_dead ?_ calm_checkpoint) ?_ fun _ _ => False.elim
    · exact .bind (uses_of rfl) fun _ => .ite (fun _ => trivial) fun _ => trivial
    rintro _ w₁ rfl
    refine wp_seq (wp_and readCd_dead wp_readCd) (fun _ _ h => h.1.elim) ?_
    rintro e w₂ ⟨hdecl, log, hlog, hall⟩
    obtain ⟨-, rfl⟩ := hall _ hdecl
    exact ⟨hdecl, w₁, .of_eq rfl, hlog⟩
  | cons first rest ih =>
    have halive : (ripCdTrack bin total progress chunk maxRetries first first.startLba s).Uses
        fun (o : Op) => deadAt track.startLba 0 o = {} := ripCdTrack_alive (hbefore first (by simp))
    refine wp_seq (wp_dead halive (wp_and succeeds_ripCdTrack calm_reads)) ?_ fun _ _ h => h.1.elim
    rintro s₁ w₁ ⟨-, hreads⟩
    refine wp_mono (ih fun t ht => hbefore t (by simp [ht])) (fun _ _ => id) ?_
    rintro e w₂ ⟨hdecl, w', hw', hlog⟩
    exact ⟨hdecl, w', hreads.trans hw', hlog⟩

theorem ripCdBinCue_dead {bin cue : Path} {maxRetries : ℕ} {progress : Bool} {chunk : ChunkSize}
    {before after : List CDTrack} {track first last : CDTrack}
    (hbefore : ∀ t ∈ before, t.endLba < track.startLba)
    (hfirst : (before ++ track :: after).head? = some first)
    (hlast : (before ++ track :: after).getLast? = some last)
    (hbin : w.files bin = none) (hcue : w.files cue = none)
    (hfree : (last.endLba + 1 - first.startLba) * 2352 ≤ m.free bin.dir.volume) :
    wp (dead m track.startLba)
      (ripCdBinCue m.toExternals bin cue (before ++ track :: after) progress chunk maxRetries)
      (fun _ _ => False) (fun e w' => track.startLba ∈ e.declared ∧ ∃ w₁, ReadsOn w w₁ ∧
        Extends w₁ (gaveUpReads maxRetries (some track.kind) track.startLba
          (min chunk.1 (track.endLba - track.startLba + 1)) 0) w') w := by
  rw [ripCdBinCue, hfirst, hlast]
  refine wp_seq (wp_dead ?_ calm_ensureTemporarySpace) ?_ fun _ _ h => absurd hfree h
  · exact .bind (uses_of rfl) fun _ => .bind (uses_of rfl) fun _ => .ite (fun _ => trivial)
      fun _ => trivial
  rintro _ w₁ ⟨-, rfl⟩
  refine wp_seq (wp_dead ?_ (calm_eitherExists hbin hcue)) ?_ fun _ _ => False.elim
  · exact .bind (uses_of rfl) fun _ => .ite (fun _ => trivial) fun _ => uses_of rfl
  rintro present w₂ ⟨rfl, rfl⟩
  rw [if_neg (by simp)]
  refine wp_bind.2 (wp_tryCatch.2 ?_)
  refine wp_seq (wp_dead (uses_of rfl) (calm_openExclusive hbin)) ?_ fun _ _ => False.elim
  rintro _ w₃ rfl
  refine wp_seq (ripCdTracks_dead hbefore) (fun _ _ => False.elim) ?_
  rintro e w₄ ⟨hdecl, w', hw', hlog⟩
  refine wp_bind.2 (wp_dead (uses_of rfl) (calm_call (o := .unlink bin) rfl ?_))
  exact wp_bind.2 (wp_dead (uses_of rfl) (calm_call (o := .unlink cue) rfl ⟨hdecl, w', hw', hlog⟩))

/-! ### When all retries are made -/

/-- The result declares the sector unreadable: it raises, or the image lists the sector. -/
def DeclaresUnreadable : Except PyError ImageResult → ℕ → Prop
  | .ok image, n => n ∈ image.damagedLbas
  | .error e, n => n ∈ e.declared

/-- Every run of the rip declares a sector unreadable only after `max_retries + 1` consecutive
failed reads of that single sector. -/
def HonoursRetries (maxRetries : ℕ) (rip : Externals → Program ImageResult) : Prop :=
  ∀ (m : Machine) (σ : Oracle) (w : World), OnlyReadsDeclare σ.choices →
    ∀ n, DeclaresUnreadable (execute m σ (rip m.toExternals) w).result n →
      ∃ kind, List.replicate (maxRetries + 1) ⟨n, 1, kind, false⟩ <:+:
        (execute m σ (rip m.toExternals) w).world.reads.drop w.reads.length

section Honours

variable {maxRetries : ℕ} {request : ℕ → Option TrackKind → ℕ → Prop}

theorem drop_of_extends {log : List ReadCall} {w' : World} (h : Extends w log w') :
    w'.reads.drop w.reads.length = log := by
  rw [h, List.drop_left]

/-- A rip whose requests are never halved makes all retries, as does one that has none to make. -/
theorem honoursRetries_of_declares {rip : Externals → Program ImageResult}
    (hsize : ∀ n kind size, request n kind size → size = 1 ∨ maxRetries = 0)
    (hrip : ∀ (m : Machine) (A : Op → Choice → Prop) (w : World), OnlyReadsDeclare A →
      wp (allowing m A) (rip m.toExternals)
        (fun image w' => ∃ log, Extends w log w' ∧ ∀ n ∈ image.damagedLbas,
          Declares maxRetries request log n) (Declaring maxRetries request w) w) :
    HonoursRetries maxRetries rip := by
  intro m σ w hσ n hn
  have h := execute_of_wp (A := σ.choices) (fun n o => ⟨n, rfl⟩) (hrip m σ.choices w hσ)
  obtain ⟨log, hlog, kind, size, hreq, hreads⟩ : ∃ log,
      Extends w log (execute m σ (rip m.toExternals) w).world ∧
        Declares maxRetries request log n := by
    cases hr : (execute m σ (rip m.toExternals) w).result with
    | ok image =>
      rw [hr] at hn
      obtain ⟨log, hlog, hall⟩ := h.1 image hr
      exact ⟨log, hlog, hall n hn⟩
    | error e =>
      rw [hr] at hn
      obtain ⟨log, hlog, hall⟩ := h.2 e hr
      exact ⟨log, hlog, hall n hn⟩
  rw [drop_of_extends hlog]
  exact ⟨kind, exhausted_of_gaveUpReads (hsize n kind size hreq) hreads⟩

/-- A failed read of a single sector. -/
def ReadCall.isSingleFailure (c : ReadCall) : Bool := !c.ok && c.count = 1

theorem countP_splitReads (kind : Option TrackKind) (lba size : ℕ) :
    (splitReads kind lba size).countP ReadCall.isSingleFailure = 0 := by
  induction size using Nat.strongRecOn with
  | ind size ih =>
    rw [splitReads]
    split
    · rw [List.countP_cons_of_neg, ih (size / 2) (by omega)]
      simp only [ReadCall.isSingleFailure, Bool.not_false, Bool.true_and, decide_eq_true_eq]
      omega
    · rfl

theorem countP_gaveUpReads (kind : Option TrackKind) (lba size : ℕ) :
    (gaveUpReads maxRetries kind lba size 0).countP ReadCall.isSingleFailure =
      singleReads maxRetries size 0 := by
  rw [gaveUpReads, List.countP_append, countP_splitReads, Nat.zero_add, List.countP_replicate,
    if_pos (by rfl)]

/-- A run that gives up a sector of a larger request does not make all retries. -/
theorem not_honoursRetries {rip : Externals → Program ImageResult} {m : Machine} {n size : ℕ}
    {kind : Option TrackKind} {lba : ℕ} (hsize : 2 ≤ size) (hretries : 0 < maxRetries)
    (hrip : wp (dead m n) (rip m.toExternals) (fun _ _ => False) (fun e w' => n ∈ e.declared ∧
      ∃ w₁, ReadsOn w w₁ ∧ Extends w₁ (gaveUpReads maxRetries kind lba size 0) w') w) :
    ¬ HonoursRetries maxRetries rip := by
  intro h
  obtain ⟨e, he, hdecl, w₁, ⟨log, hlog, hok⟩, hgave⟩ :=
    execute_error_of_wp (σ := deadAt n) (fun _ _ => rfl) hrip
  obtain ⟨kind', hinfix⟩ := h m (deadAt n) w (onlyReadsDeclare_dead n) n (by rw [he]; exact hdecl)
  rw [drop_of_extends (hlog.trans hgave)] at hinfix
  have hcount := hinfix.sublist.countP_le (p := ReadCall.isSingleFailure)
  have hzero : log.countP ReadCall.isSingleFailure = 0 :=
    List.countP_eq_zero.2 fun c hc => by simp [ReadCall.isSingleFailure, hok c hc]
  rw [List.countP_append, hzero, countP_gaveUpReads, List.countP_replicate,
    if_pos (by rfl)] at hcount
  have hlt : singleReads maxRetries size 0 < maxRetries + 1 := singleReads_lt hsize hretries
  omega

end Honours

/-- A machine with the sample disc in the drive and a given amount of free space. -/
def roomyMachine (free : ℕ) : Machine := { sampleMachine 0x10 with free := fun _ => free }

def deadBin : Path := { dir := .task "C:\\Temp" 0, name := "SLUS_123.45.Sample.bin" }

def deadCue : Path := { dir := .task "C:\\Temp" 0, name := "SLUS_123.45.Sample.cue" }

section Rips

variable {chunk : ChunkSize} {maxRetries total : ℕ} {tracks : List CDTrack}

theorem honoursRetries_ripDvdIso (h : maxRetries = 0 ∨ chunk.1 = 1 ∨ total ≤ 1) (dest : Path)
    (progress continueDamaged : Bool) : HonoursRetries maxRetries fun ext =>
      ripDvdIso ext dest total progress chunk maxRetries continueDamaged := by
  refine honoursRetries_of_declares ?_ fun m A w hA => wp_ripDvdIso_declares hA
  rintro n kind size ⟨hn, -, rfl⟩
  have := chunk.2
  omega

theorem not_honoursRetries_ripDvdIso (hretries : 0 < maxRetries) (hchunk : 2 ≤ chunk.1)
    (htotal : 2 ≤ total) : ¬ HonoursRetries maxRetries fun ext =>
      ripDvdIso ext deadBin total true chunk maxRetries := by
  have hdead : wp (dead (roomyMachine (total * 2048)) 0)
      (ripDvdIso (roomyMachine (total * 2048)).toExternals deadBin total true chunk maxRetries)
      (fun _ _ => False) (fun e w' => 0 ∈ e.declared ∧ ∃ w₁, ReadsOn World.blank w₁ ∧
        Extends w₁ (gaveUpReads maxRetries none 0 (min chunk.1 total) 0) w') World.blank := by
    refine wp_mono (ripDvdIso_dead (by omega) rfl le_rfl) (fun _ _ => id) ?_
    rintro e w' ⟨hdecl, hlog⟩
    exact ⟨hdecl, World.blank, .of_eq rfl, hlog⟩
  exact not_honoursRetries (by omega) hretries hdead

theorem honoursRetries_ripCdBinCue
    (h : maxRetries = 0 ∨ chunk.1 = 1 ∨ ∀ t ∈ tracks, t.sectors = 1) (bin cue : Path)
    (progress : Bool) : HonoursRetries maxRetries fun ext =>
      ripCdBinCue ext bin cue tracks progress chunk maxRetries := by
  refine honoursRetries_of_declares ?_ fun m A w hA => wp_ripCdBinCue_declares hA
  rintro n kind size ⟨t, ht, hstart, hend, -, rfl⟩
  have hchunk := chunk.2
  obtain h | h | h := h
  · exact .inr h
  · omega
  · have hone := h t ht
    rw [CDTrack.sectors] at hone
    omega

theorem not_honoursRetries_ripCdBinCue (htracks : Contiguous tracks) (hretries : 0 < maxRetries)
    (hchunk : 2 ≤ chunk.1) {track : CDTrack} (htrack : track ∈ tracks) (hsize : track.sectors ≠ 1) :
    ¬ HonoursRetries maxRetries fun ext =>
      ripCdBinCue ext deadBin deadCue tracks true chunk maxRetries := by
  obtain ⟨before, after, rfl⟩ := List.append_of_mem htrack
  have hbefore : ∀ t ∈ before, t.endLba < track.startLba := fun t ht =>
    (List.pairwise_append.1 htracks.pairwise).2.2 t ht track (List.mem_cons_self ..)
  obtain ⟨first, hfirst⟩ : ∃ first, (before ++ track :: after).head? = some first :=
    ⟨_, List.head?_eq_some_head (by simp)⟩
  obtain ⟨last, hlast⟩ : ∃ last, (before ++ track :: after).getLast? = some last :=
    ⟨_, List.getLast?_eq_getLast_of_ne_nil (by simp)⟩
  have hle := track.start_le_end
  rw [CDTrack.sectors] at hsize
  have hrequest : 2 ≤ min chunk.1 (track.endLba - track.startLba + 1) := by omega
  exact not_honoursRetries
    (m := roomyMachine ((last.endLba + 1 - first.startLba) * 2352)) (w := World.blank) hrequest
    hretries (ripCdBinCue_dead hbefore hfirst hlast rfl rfl le_rfl)

end Rips

/-- **Retries.** Over all readers, a sector is declared unreadable only after all its retries
exactly when there are no retries, when requests have one sector, or when the disc or every track
has one. -/
theorem honoursRetries_iff {chunk : ChunkSize} {maxRetries : ℕ} :
    (∀ total, (∀ dest progress continueDamaged, HonoursRetries maxRetries fun ext =>
        ripDvdIso ext dest total progress chunk maxRetries continueDamaged) ↔
      maxRetries = 0 ∨ chunk.1 = 1 ∨ total ≤ 1) ∧
    (∀ tracks, ((maxRetries = 0 ∨ chunk.1 = 1 ∨ ∀ t ∈ tracks, t.sectors = 1) →
        ∀ bin cue progress, HonoursRetries maxRetries fun ext =>
          ripCdBinCue ext bin cue tracks progress chunk maxRetries) ∧
      (Contiguous tracks → (∀ bin cue progress, HonoursRetries maxRetries fun ext =>
          ripCdBinCue ext bin cue tracks progress chunk maxRetries) →
        maxRetries = 0 ∨ chunk.1 = 1 ∨ ∀ t ∈ tracks, t.sectors = 1)) := by
  have hpos := chunk.2
  refine ⟨fun total => ⟨fun hall => ?_, honoursRetries_ripDvdIso⟩,
    fun tracks => ⟨honoursRetries_ripCdBinCue, fun htracks hall => ?_⟩⟩
  · by_contra hnot
    exact not_honoursRetries_ripDvdIso (by omega) (by omega) (by omega) (hall deadBin true false)
  · by_contra hnot
    push Not at hnot
    obtain ⟨hretries, hchunk, track, htrack, hsize⟩ := hnot
    exact not_honoursRetries_ripCdBinCue htracks (by omega) (by omega) htrack hsize
      (hall deadBin deadCue true)

/-- The theorem for the default settings: neither rip of the sample discs makes all retries. -/
theorem honoursRetries_iff_sample :
    (¬ ∀ dest progress continueDamaged, HonoursRetries 8 fun ext =>
      ripDvdIso ext dest 24 progress ⟨32, by decide⟩ 8 continueDamaged) ∧
    ¬ ∀ bin cue progress, HonoursRetries 8 fun ext =>
      ripCdBinCue ext bin cue [sampleTrack] progress ⟨32, by decide⟩ 8 := by
  have h := @honoursRetries_iff ⟨32, by decide⟩ 8
  refine ⟨fun hall => ?_, fun hall => ?_⟩
  · exact absurd ((h.1 24).1 hall) (by decide)
  · exact absurd ((h.2 [sampleTrack]).2 (List.isChain_singleton _) hall) (by decide)

/-- On a DVD of 24 sectors, read in chunks of 32, the first sector is given up after 5 single-sector
reads instead of 9. -/
theorem not_honoursRetries_defaults :
    ¬ ∀ (chunk : ChunkSize) (maxRetries total : ℕ) (dest : Path) (progress continueDamaged : Bool),
      HonoursRetries maxRetries fun ext =>
        ripDvdIso ext dest total progress chunk maxRetries continueDamaged := by
  intro h
  have hchunk : 2 ≤ (⟨32, by decide⟩ : ChunkSize).1 := by decide
  exact not_honoursRetries_ripDvdIso (by decide) hchunk (by decide)
    (h ⟨32, by decide⟩ 8 24 deadBin true false)

end Ps2Ripper
