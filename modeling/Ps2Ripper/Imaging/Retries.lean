import Ps2Ripper.Core.Returns

/-!
# How often a sector is retried

Both retry loops count the failures of halved requests together with those of the single sector.

* `gaveUpReads`: the reads after which a loop gives up, written out;
* `wp_ripDvdIso_declares`, `wp_ripCdBinCue_declares`: a sector is declared unreadable only after
  these reads.
-/

namespace Ps2Ripper

open Interactive Prog

variable {m : Machine} {A : Op → Choice → Prop} {w : World}

/-! ### The reads before a sector is given up -/

/-- The failed requests of more than one sector, each half as large as the one before it. -/
def splitReads (kind : Option TrackKind) (lba size : ℕ) : List ReadCall :=
  if 1 < size then ⟨lba, size, kind, false⟩ :: splitReads kind lba (size / 2) else []
termination_by size

/-- The number of failed single-sector reads after which a request of `size` sectors is given up. -/
def singleReads (maxRetries size attempts : ℕ) : ℕ :=
    max 1 (maxRetries + 1 - (attempts + Nat.log 2 size))

/-- The reads that a retry loop sends before it gives the sector up. -/
def gaveUpReads (maxRetries : ℕ) (kind : Option TrackKind) (lba size attempts : ℕ) :
    List ReadCall :=
  splitReads kind lba size ++
    List.replicate (singleReads maxRetries size attempts) ⟨lba, 1, kind, false⟩

section GaveUpReads

variable {maxRetries lba size attempts : ℕ} {kind : Option TrackKind}

theorem gaveUpReads_halved (h : 1 < size) :
    gaveUpReads maxRetries kind lba size attempts =
      ⟨lba, size, kind, false⟩ ::
        gaveUpReads maxRetries kind lba (max 1 (size / 2)) (attempts + 1) := by
  have hmax : max 1 (size / 2) = size / 2 := by omega
  have hlog : Nat.log 2 size = Nat.log 2 (size / 2) + 1 := Nat.log_of_one_lt_of_le (by omega) h
  rw [gaveUpReads, splitReads, if_pos h, gaveUpReads, hmax, singleReads, singleReads, hlog,
    List.cons_append]
  congr 4
  omega

theorem gaveUpReads_again (h : attempts + 1 ≤ maxRetries) :
    gaveUpReads maxRetries kind lba 1 attempts =
      ⟨lba, 1, kind, false⟩ :: gaveUpReads maxRetries kind lba 1 (attempts + 1) := by
  have hcount : singleReads maxRetries 1 attempts =
      singleReads maxRetries 1 (attempts + 1) + 1 := by
    simp only [singleReads, Nat.log_one_right]
    omega
  simp [gaveUpReads, splitReads, hcount, List.replicate_succ]

theorem gaveUpReads_last (h : maxRetries < attempts + 1) :
    gaveUpReads maxRetries kind lba 1 attempts = [⟨lba, 1, kind, false⟩] := by
  have hcount : singleReads maxRetries 1 attempts = 1 := by
    simp only [singleReads, Nat.log_one_right]
    omega
  simp [gaveUpReads, splitReads, hcount]

/-- All retries are made when the request was for one sector or when there is no retry to make. -/
theorem exhausted_of_gaveUpReads {log : List ReadCall} (h : size = 1 ∨ maxRetries = 0)
    (hlog : gaveUpReads maxRetries kind lba size 0 <:+: log) :
    List.replicate (maxRetries + 1) ⟨lba, 1, kind, false⟩ <:+: log := by
  have hcount : singleReads maxRetries size 0 = maxRetries + 1 := by
    obtain rfl | rfl := h
    · simp [singleReads, Nat.log_one_right]
    · simp [singleReads]
  refine List.IsInfix.trans ?_ hlog
  rw [gaveUpReads, hcount]
  exact (List.suffix_append ..).isInfix

/-- Fewer retries are made when the request was halved. -/
theorem singleReads_lt (hsize : 2 ≤ size) (hretries : 0 < maxRetries) :
    singleReads maxRetries size 0 < maxRetries + 1 := by
  have hlog : 0 < Nat.log 2 size := Nat.log_pos (by omega) hsize
  simp only [singleReads]
  omega

end GaveUpReads

/-! ### What a run declares -/

/-- The sector that an exception declares unreadable. -/
def PyError.declared : PyError → Option ℕ
  | .opticalReadError lba _ _ => some lba
  | _ => none

theorem PyError.isOSError_of_declared {e : PyError} {n : ℕ} (h : n ∈ e.declared) :
    e.isOSError = true := by
  cases e <;> first | rfl | cases h

/-- After the reads `log` the sector `n` was given up, as part of a request that the rip makes. -/
def Declares (maxRetries : ℕ) (request : ℕ → Option TrackKind → ℕ → Prop) (log : List ReadCall)
    (n : ℕ) : Prop :=
  ∃ kind size, request n kind size ∧ gaveUpReads maxRetries kind n size 0 <:+: log

/-- The reads of a step are appended to the history. -/
def Extends (w : World) (log : List ReadCall) (w' : World) : Prop := w'.reads = w.reads ++ log

/-- An exception that was raised after some reads declares only a sector that was given up. -/
def Declaring (maxRetries : ℕ) (request : ℕ → Option TrackKind → ℕ → Prop) (w : World) (e : PyError)
    (w' : World) : Prop :=
  ∃ log, Extends w log w' ∧ ∀ n ∈ e.declared, Declares maxRetries request log n

section Declares

variable {maxRetries : ℕ} {request : ℕ → Option TrackKind → ℕ → Prop} {log log' : List ReadCall}
  {w' w'' : World} {e : PyError} {n : ℕ}

theorem Extends.refl : Extends w [] w := (List.append_nil _).symm

theorem Extends.trans (h : Extends w log w') (h' : Extends w' log' w'') :
    Extends w (log ++ log') w'' := by
  rw [Extends, h', h, List.append_assoc]

theorem Extends.of_eq (h : Extends w log w') (hreads : w''.reads = w'.reads) :
    Extends w log w'' := by
  rw [Extends, hreads, h]

theorem Declares.append_left (h : Declares maxRetries request log n) :
    Declares maxRetries request (log' ++ log) n := by
  obtain ⟨kind, size, hreq, hlog⟩ := h
  exact ⟨kind, size, hreq, hlog.trans (List.suffix_append ..).isInfix⟩

theorem Declares.append_right (h : Declares maxRetries request log n) :
    Declares maxRetries request (log ++ log') n := by
  obtain ⟨kind, size, hreq, hlog⟩ := h
  exact ⟨kind, size, hreq, hlog.trans (List.prefix_append ..).isInfix⟩

theorem Declaring.after (h : Extends w log w') (h' : Declaring maxRetries request w' e w'') :
    Declaring maxRetries request w e w'' := by
  obtain ⟨log', hext, hdecl⟩ := h'
  exact ⟨log ++ log', h.trans hext, fun n hn => (hdecl n hn).append_left⟩

theorem Declaring.of_eq (h : Declaring maxRetries request w e w') (hreads : w''.reads = w'.reads) :
    Declaring maxRetries request w e w'' := by
  obtain ⟨log, hext, hdecl⟩ := h
  exact ⟨log, hext.of_eq hreads, hdecl⟩

theorem Declaring.of_none (hreads : w'.reads = w.reads) (h : e.declared = none) :
    Declaring maxRetries request w e w' :=
  ⟨[], Extends.refl.of_eq hreads, fun n hn => by rw [h] at hn; cases hn⟩

end Declares

/-! ### Operations that do not read the disc -/

/-- The operations that neither read the disc nor look into an image. -/
def Op.isQuiet : Op → Bool
  | .readBlocks .. | .readCdRaw .. | .isoRecord .. | .isoFile .. => false
  | _ => true

/-- Only reads of the disc fail with an exception that declares a sector unreadable. -/
def OnlyReadsDeclare (A : Op → Choice → Prop) : Prop :=
  ∀ o c e, A o c → c.fault = some e → o.isQuiet = true → e.declared = none

theorem reads_of_perform {o : Op} {c : Choice} (h : o.isQuiet = true) :
    (perform m o c w).2.reads = w.reads := by
  have hs : (succeed m c w o).2.reads = w.reads := by
    cases o <;> (try cases h) <;> simp only [succeed] <;> (try split) <;>
      simp [World.setFile, World.removeAll]
  have hf : (fail o c w).reads = w.reads := by
    unfold fail
    split <;> (try cases h) <;> simp [World.setFile]
  exact of_succeed_of_fail (P := fun w' => w'.reads = w.reads) hs hf

theorem declared_of_succeed {o : Op} {c : Choice} {e : PyError} {w' : World}
    (h : succeed m c w o = (.error e, w')) (ho : o.isQuiet = true) : e.declared = none := by
  cases o <;> (try cases ho) <;> simp only [succeed] at h <;> (try split at h) <;> cases h <;> rfl

theorem wp_quiet (hA : OnlyReadsDeclare A) {o : Op} (ho : o.isQuiet = true) :
    wp (allowing m A) (call o) (fun _ w' => w'.reads = w.reads)
      (fun e w' => w'.reads = w.reads ∧ e.declared = none) w := by
  refine wp_call_iff.2 fun c hc => ?_
  have hreads := reads_of_perform (m := m) (w := w) (c := c) ho
  refine ⟨fun a w' h => by rwa [h] at hreads, fun e w' h => ⟨by rwa [h] at hreads, ?_⟩⟩
  · obtain h | ⟨hfault, -, -⟩ := cases_of_perform_error h
    · exact declared_of_succeed h ho
    · exact hA o c e hc hfault ho

theorem wp_checkpoint_quiet (hA : OnlyReadsDeclare A) :
    wp (allowing m A) checkpoint (fun _ w' => w'.reads = w.reads)
      (fun e w' => w'.reads = w.reads ∧ e.declared = none) w := by
  refine wp_seq (wp_quiet hA rfl) (fun requested w' h => ?_) fun _ _ => id
  split
  · exact ⟨h, rfl⟩
  · exact h

theorem wp_emitProgress_quiet (hA : OnlyReadsDeclare A) {progress : Bool}
    {snapshot : ProgressSnapshot} :
    wp (allowing m A) (emitProgress progress snapshot) (fun _ w' => w'.reads = w.reads)
      (fun e w' => w'.reads = w.reads ∧ e.declared = none) w := by
  unfold emitProgress
  split
  · exact wp_quiet hA rfl
  · rfl

theorem wp_ensureTemporarySpace_quiet (hA : OnlyReadsDeclare A) {d : Dir} {n : ℕ} :
    wp (allowing m A) (ensureTemporarySpace d n) (fun _ w' => w'.reads = w.reads)
      (fun e w' => w'.reads = w.reads ∧ e.declared = none) w := by
  refine wp_seq (wp_quiet hA rfl) (fun _ w₁ h₁ => ?_) fun _ _ => id
  refine wp_seq (wp_quiet hA rfl) (fun free w₂ h₂ => ?_) fun _ _ h => ⟨h.1.trans h₁, h.2⟩
  split
  · exact ⟨h₂.trans h₁, rfl⟩
  · exact h₂.trans h₁

/-- The handler passes the exception on, or raises the one of a removal that fails. -/
theorem wp_removeAndRaise_quiet (hA : OnlyReadsDeclare A) {α : Type} {outputs : List Path}
    {e : PyError} {Q : α → World → Prop} :
    wp (allowing m A) (removeAndRaise outputs e) Q
      (fun e' w' => w'.reads = w.reads ∧ (e' = e ∨ e'.declared = none)) w := by
  induction outputs generalizing w with
  | nil => exact ⟨rfl, .inl rfl⟩
  | cons p rest ih =>
    refine wp_seq (wp_quiet hA rfl) (fun _ w₁ h₁ => ?_) fun _ _ h => ⟨h.1, .inr h.2⟩
    exact wp_mono ih (fun _ _ => id) fun _ _ h => ⟨h.1.trans h₁, h.2⟩

/-- The end of a turn: the bytes are written and the progress is reported, which reads nothing. -/
theorem wp_turn_quiet (hA : OnlyReadsDeclare A) {p : Path} {data : Bytes} {progress : Bool}
    {snapshot : ProgressSnapshot} {rest : Program α} {Q : α → World → Prop} {maxRetries : ℕ}
    {request : ℕ → Option TrackKind → ℕ → Prop} {w₀ : World} {log : List ReadCall}
    (hext : Extends w₀ log w)
    (hrest : ∀ w', Extends w₀ log w' →
      wp (allowing m A) rest Q (Declaring maxRetries request w₀) w') :
    wp (allowing m A) (call (.write p data) >>= fun _ => emitProgress progress snapshot >>=
      fun _ => rest) Q (Declaring maxRetries request w₀) w := by
  refine wp_seq (wp_quiet hA rfl) (fun _ w₁ h₁ => ?_) fun e w' h => .after hext (.of_none h.1 h.2)
  have hext₁ := hext.of_eq h₁
  refine wp_seq (wp_emitProgress_quiet hA) (fun _ w₂ h₂ => ?_) fun e w' h =>
    .after hext₁ (.of_none h.1 h.2)
  exact hrest w₂ (hext₁.of_eq h₂)

/-! ### DVD -/

/-- The requests of a DVD rip. -/
def dvdRequest (chunk total : ℕ) (n : ℕ) (kind : Option TrackKind) (size : ℕ) : Prop :=
  n < total ∧ kind = none ∧ size = min chunk (total - n)

/-- The retry loop gives up exactly after the reads that are written out in `gaveUpReads`. -/
theorem wp_readDvd {maxRetries lba attempts retries : ℕ} {continueDamaged : Bool}
    {size : ChunkSize} :
    wp (allowing m A) (readDvd maxRetries continueDamaged lba size attempts retries)
      (fun r w' => ∃ log, Extends w log w' ∧ r.size ≤ size.1 ∧
        (r.damaged = true → log = gaveUpReads maxRetries none lba size.1 attempts))
      (fun e w' => ∃ log, Extends w log w' ∧ ∀ n ∈ e.declared,
        n = lba ∧ log = gaveUpReads maxRetries none lba size.1 attempts) w := by
  induction size, attempts, retries using readDvd.induct maxRetries generalizing w with
  | case1 size attempts retries halved again =>
    rw [readDvd]
    refine ⟨trivial, ?_⟩
    have hpos := size.2
    rintro (exc | data) w' ⟨c, -, hc⟩
    · obtain rfl := perform_readBlocks_error hc
      have hext : Extends w [⟨lba, size.1, none, false⟩] (w.logRead lba size.1 none false) := rfl
      dsimp only
      split
      · split
        · rename_i hlarge
          refine wp_mono (halved hlarge) ?_ ?_
          · rintro r w'' ⟨log, hlog, hsize, hdam⟩
            refine ⟨_, hext.trans hlog, by simp only at hsize; omega, fun hd => ?_⟩
            rw [hdam hd, gaveUpReads_halved hlarge, List.singleton_append]
          · rintro e w'' ⟨log, hlog, hdecl⟩
            refine ⟨_, hext.trans hlog, fun n hn => ⟨(hdecl n hn).1, ?_⟩⟩
            rw [(hdecl n hn).2, gaveUpReads_halved hlarge, List.singleton_append]
        have hone : size.1 = 1 := by omega
        split
        · rename_i hagain
          refine wp_mono (again hagain) ?_ ?_
          · rintro r w'' ⟨log, hlog, hsize, hdam⟩
            refine ⟨_, hext.trans hlog, hsize, fun hd => ?_⟩
            rw [hdam hd, hone, gaveUpReads_again hagain, List.singleton_append]
          · rintro e w'' ⟨log, hlog, hdecl⟩
            refine ⟨_, hext.trans hlog, fun n hn => ⟨(hdecl n hn).1, ?_⟩⟩
            rw [(hdecl n hn).2, hone, gaveUpReads_again hagain, List.singleton_append]
        · rename_i hlast
          have hreads : gaveUpReads maxRetries none lba 1 attempts = [⟨lba, 1, none, false⟩] :=
            gaveUpReads_last (not_le.1 hlast)
          rw [← hone] at hreads
          split
          · exact ⟨_, hext, le_rfl, fun _ => by rw [hone] at hreads ⊢; exact hreads.symm⟩
          · refine ⟨_, hext, fun n hn => ⟨?_, ?_⟩⟩
            · cases hn
              rfl
            · rw [hone] at hreads ⊢
              exact hreads.symm
      · exact ⟨_, hext, fun n hn => absurd (PyError.isOSError_of_declared hn) ‹_›⟩
    · obtain ⟨rfl, rfl⟩ := perform_readBlocks_ok hc
      exact ⟨_, rfl, le_rfl, fun h => absurd h Bool.false_ne_true⟩

/-- Every sector that the loop over a DVD gives up was retried as `gaveUpReads` says. -/
theorem wp_ripDvdLoop (hA : OnlyReadsDeclare A) {dest : Path} {total maxRetries lba : ℕ}
    {progress continueDamaged : Bool} {chunk : ChunkSize} {s : DvdState} :
    wp (allowing m A) (ripDvdLoop dest total progress chunk maxRetries continueDamaged lba s)
      (fun s' w' => ∃ log, Extends w log w' ∧ ∀ n ∈ s'.damaged, n ∈ s.damaged ∨
        Declares maxRetries (dvdRequest chunk.1 total) log n)
      (Declaring maxRetries (dvdRequest chunk.1 total) w) w := by
  induction lba, s using ripDvdLoop.induct total chunk generalizing w with
  | case1 lba s hlt ih =>
    rw [ripDvdLoop, dif_pos hlt]
    have hrequest : dvdRequest chunk.1 total lba none (min chunk.1 (total - lba)) := ⟨hlt, rfl, rfl⟩
    refine wp_seq (wp_checkpoint_quiet hA) (fun _ w₁ h₁ => ?_) fun e w' h => .of_none h.1 h.2
    have hext₁ : Extends w [] w₁ := Extends.refl.of_eq h₁
    refine wp_seq wp_readDvd ?_ ?_
    swap
    · rintro e w' ⟨log, hlog, hdecl⟩
      refine .after hext₁ ⟨log, hlog, fun n hn => ?_⟩
      obtain ⟨rfl, rfl⟩ := hdecl n hn
      exact ⟨_, _, hrequest, List.infix_rfl⟩
    rintro r w₂ ⟨log, hlog, hsize, hdam⟩
    refine wp_turn_quiet hA (hext₁.trans hlog) fun w₃ hext₃ => ?_
    refine wp_mono (ih r) ?_ fun e w' h => .after hext₃ h
    rintro s' w₄ ⟨log', hlog', hall⟩
    refine ⟨_, hext₃.trans hlog', fun n hn => ?_⟩
    obtain hn | hn := hall n hn
    · simp only [DvdState.next] at hn
      split at hn
      · rename_i hd
        obtain hn | hn := List.mem_append.1 hn
        · exact .inl hn
        · obtain rfl := List.mem_singleton.1 hn
          refine .inr (.append_right (.append_left ⟨_, _, hrequest, ?_⟩))
          rw [hdam hd]
      · exact .inl hn
    · exact .inr hn.append_left
  | case2 lba s hge =>
    rw [ripDvdLoop, dif_neg hge]
    exact ⟨[], .refl, fun n hn => .inl hn⟩

theorem wp_ripDvdBody (hA : OnlyReadsDeclare A) {dest : Path} {total maxRetries : ℕ}
    {progress continueDamaged : Bool} {chunk : ChunkSize} :
    wp (allowing m A) (ripDvdBody dest total progress chunk maxRetries continueDamaged)
      (fun s w' => ∃ log, Extends w log w' ∧ ∀ n ∈ s.damaged,
        Declares maxRetries (dvdRequest chunk.1 total) log n)
      (Declaring maxRetries (dvdRequest chunk.1 total) w) w := by
  refine wp_seq (wp_quiet hA rfl) (fun _ w₁ h₁ => ?_) fun e w' h => .of_none h.1 h.2
  have hext₁ : Extends w [] w₁ := Extends.refl.of_eq h₁
  refine wp_seq (wp_ripDvdLoop hA) ?_ fun e w' h => .after hext₁ h
  rintro s w₂ ⟨log, hlog, hall⟩
  have hext₂ := hext₁.trans hlog
  refine wp_seq (wp_quiet hA rfl) (fun _ w₃ h₃ => ?_) fun e w' h => .after hext₂ (.of_none h.1 h.2)
  exact ⟨log, hext₂.of_eq h₃, fun n hn => (hall n hn).resolve_left (by simp)⟩

theorem wp_ripDvdIso_declares (hA : OnlyReadsDeclare A) {ext : Externals} {dest : Path}
    {total maxRetries : ℕ} {progress continueDamaged : Bool} {chunk : ChunkSize} :
    wp (allowing m A) (ripDvdIso ext dest total progress chunk maxRetries continueDamaged)
      (fun image w' => ∃ log, Extends w log w' ∧ ∀ n ∈ image.damagedLbas,
        Declares maxRetries (dvdRequest chunk.1 total) log n)
      (Declaring maxRetries (dvdRequest chunk.1 total) w) w := by
  refine wp_seq (wp_ensureTemporarySpace_quiet hA) (fun _ w₁ h₁ => ?_) fun e w' h =>
    .of_none h.1 h.2
  refine wp_seq (wp_quiet hA rfl) (fun present w₂ h₂ => ?_) fun e w' h =>
    .of_none (h.1.trans h₁) h.2
  have hext₂ : Extends w [] w₂ := Extends.refl.of_eq (h₂.trans h₁)
  split
  · exact .of_none (h₂.trans h₁) rfl
  refine wp_bind.2 (wp_tryCatch.2 (wp_mono (wp_ripDvdBody hA) ?_ ?_))
  · rintro s w₃ ⟨log, hlog, hall⟩
    have hext₃ := hext₂.trans hlog
    refine wp_seq (wp_quiet hA rfl) (fun size w₄ h₄ => ?_) fun e w' h =>
      .after hext₃ (.of_none h.1 h.2)
    exact ⟨log, hext₃.of_eq h₄, hall⟩
  · intro e w₃ hdecl
    refine wp_mono (wp_removeAndRaise_quiet hA) (fun _ _ => id) ?_
    rintro e' w₄ ⟨h₄, rfl | hnone⟩
    · exact .after hext₂ (hdecl.of_eq h₄)
    · obtain ⟨log, hlog, -⟩ := hdecl
      exact .after (hext₂.trans hlog) (.of_none h₄ hnone)

/-! ### CD -/

/-- The requests of an archive of a CD. -/
def cdRequest (chunk : ℕ) (tracks : List CDTrack) (n : ℕ) (kind : Option TrackKind) (size : ℕ) :
    Prop :=
  ∃ t ∈ tracks, t.startLba ≤ n ∧ n ≤ t.endLba ∧ kind = some t.kind ∧
    size = min chunk (t.endLba - n + 1)

theorem wp_readCd {maxRetries lba attempt retries : ℕ} {kind : TrackKind} {count : ChunkSize} :
    wp (allowing m A) (readCd maxRetries kind lba count attempt retries)
      (fun r w' => ∃ log, Extends w log w' ∧ r.count ≤ count.1)
      (fun e w' => ∃ log, Extends w log w' ∧ ∀ n ∈ e.declared,
        n = lba ∧ log = gaveUpReads maxRetries (some kind) lba count.1 attempt) w := by
  induction count, attempt, retries using readCd.induct maxRetries generalizing w with
  | case1 count attempt retries halved again =>
    rw [readCd]
    refine ⟨trivial, ?_⟩
    have hpos := count.2
    rintro (exc | data) w' ⟨c, -, hc⟩
    · obtain rfl := perform_readCdRaw_error hc
      have hext : Extends w [⟨lba, count.1, some kind, false⟩]
        (w.logRead lba count.1 (some kind) false) := rfl
      dsimp only
      split
      · split
        · rename_i hlarge
          refine wp_mono (halved hlarge) ?_ ?_
          · rintro r w'' ⟨log, hlog, hsize⟩
            exact ⟨_, hext.trans hlog, by simp only at hsize; omega⟩
          · rintro e w'' ⟨log, hlog, hdecl⟩
            refine ⟨_, hext.trans hlog, fun n hn => ⟨(hdecl n hn).1, ?_⟩⟩
            rw [(hdecl n hn).2, gaveUpReads_halved hlarge, List.singleton_append]
        have hone : count.1 = 1 := by omega
        split
        · rename_i hlast
          refine ⟨_, hext, fun n hn => ⟨?_, ?_⟩⟩
          · cases hn
            rfl
          · rw [hone]
            exact (gaveUpReads_last hlast).symm
        · rename_i hagain
          refine wp_mono (again hagain) ?_ ?_
          · rintro r w'' ⟨log, hlog, hsize⟩
            exact ⟨_, hext.trans hlog, hsize⟩
          · rintro e w'' ⟨log, hlog, hdecl⟩
            refine ⟨_, hext.trans hlog, fun n hn => ⟨(hdecl n hn).1, ?_⟩⟩
            rw [(hdecl n hn).2, hone, gaveUpReads_again (not_lt.1 hagain), List.singleton_append]
      · exact ⟨_, hext, fun n hn => absurd (PyError.isOSError_of_declared hn) ‹_›⟩
    · obtain ⟨rfl, rfl⟩ := perform_readCdRaw_ok hc
      exact ⟨_, rfl, le_rfl⟩

section CdLoops

variable {bin : Path} {total maxRetries : ℕ} {progress : Bool} {chunk : ChunkSize}
  {all tracks : List CDTrack} {track : CDTrack} {s : CdState}

theorem wp_ripCdTrack (hA : OnlyReadsDeclare A) (htrack : track ∈ all) {lba : ℕ}
    (hlba : track.startLba ≤ lba) :
    wp (allowing m A) (ripCdTrack bin total progress chunk maxRetries track lba s)
      (fun _ w' => ∃ log, Extends w log w') (Declaring maxRetries (cdRequest chunk.1 all) w) w := by
  induction lba, s using ripCdTrack.induct chunk track generalizing w with
  | case1 lba s hle ih =>
    rw [ripCdTrack, dif_pos hle]
    refine wp_seq (wp_checkpoint_quiet hA) (fun _ w₁ h₁ => ?_) fun e w' h => .of_none h.1 h.2
    have hext₁ : Extends w [] w₁ := Extends.refl.of_eq h₁
    refine wp_seq wp_readCd ?_ ?_
    swap
    · rintro e w' ⟨log, hlog, hdecl⟩
      refine .after hext₁ ⟨log, hlog, fun n hn => ?_⟩
      obtain ⟨rfl, rfl⟩ := hdecl n hn
      exact ⟨_, _, ⟨track, htrack, hlba, hle, rfl, rfl⟩, List.infix_rfl⟩
    rintro r w₂ ⟨log, hlog, -⟩
    refine wp_turn_quiet hA (hext₁.trans hlog) fun w₃ hext₃ => ?_
    refine wp_mono (ih r (by omega)) ?_ fun e w' h => .after hext₃ h
    rintro s' w₄ ⟨log', hlog'⟩
    exact ⟨_, hext₃.trans hlog'⟩
  | case2 lba s hgt =>
    rw [ripCdTrack, dif_neg hgt]
    exact ⟨[], .refl⟩

theorem wp_ripCdTracks (hA : OnlyReadsDeclare A) (htracks : ∀ t ∈ tracks, t ∈ all) :
    wp (allowing m A) (ripCdTracks bin total progress chunk maxRetries tracks s)
      (fun _ w' => ∃ log, Extends w log w') (Declaring maxRetries (cdRequest chunk.1 all) w) w := by
  induction tracks generalizing s w with
  | nil => exact ⟨[], .refl⟩
  | cons track tracks ih =>
    refine wp_seq (wp_ripCdTrack hA (htracks track (by simp)) le_rfl) ?_ fun _ _ => id
    rintro s₁ w₁ ⟨log, hlog⟩
    refine wp_mono (ih fun t ht => htracks t (by simp [ht])) ?_ fun e w' h => .after hlog h
    rintro s₂ w₂ ⟨log', hlog'⟩
    exact ⟨_, hlog.trans hlog'⟩

theorem declared_of_framesToMsf {frames : ℤ} {e : PyError} (h : framesToMsf frames = .error e) :
    e.declared = none := by
  unfold framesToMsf at h
  split at h
  · cases h
    rfl
  · cases h

/-- An error of a composition comes from one of its parts. -/
theorem bind_eq_error {α β : Type} {x : Except PyError α} {f : α → Except PyError β} {e : PyError}
    (h : (x >>= f) = .error e) : x = .error e ∨ ∃ a, x = .ok a ∧ f a = .error e := by
  cases x with
  | ok a => exact .inr ⟨a, rfl, h⟩
  | error e' =>
    cases h
    exact .inl rfl

theorem declared_of_cueTrackLines {e : PyError} (h : cueTrackLines track = .error e) :
    e.declared = none := by
  unfold cueTrackLines at h
  dsimp only at h
  split at h
  · obtain h | ⟨time, -, h⟩ := bind_eq_error h
    · exact declared_of_framesToMsf h
    obtain h | ⟨pregap, -, h⟩ := bind_eq_error h
    · cases h
    obtain h | ⟨time', -, h⟩ := bind_eq_error h
    · exact declared_of_framesToMsf h
    · cases h
  · obtain h | ⟨pregap, -, h⟩ := bind_eq_error h
    · cases h
    obtain h | ⟨time, -, h⟩ := bind_eq_error h
    · exact declared_of_framesToMsf h
    · cases h

theorem declared_of_cueLines {e : PyError} (h : cueLines tracks = .error e) :
    e.declared = none := by
  induction tracks with
  | nil => cases h
  | cons track tracks ih =>
    rw [cueLines] at h
    obtain h | ⟨lines, -, h⟩ := bind_eq_error h
    · exact declared_of_cueTrackLines h
    · obtain h | ⟨rest, -, h⟩ := bind_eq_error h
      · exact ih h
      · cases h

/-- The exceptions of the CUE writer declare no sector unreadable. -/
theorem declared_of_generateCue {fileName : List Char} {e : PyError}
    (h : generateCue fileName tracks = .error e) : e.declared = none := by
  unfold generateCue at h
  split at h
  · cases h
    rfl
  · obtain h | ⟨lines, -, h⟩ := bind_eq_error h
    · exact declared_of_cueLines h
    · cases h

theorem wp_ripCdBody (hA : OnlyReadsDeclare A) {cue : Path} {firstLba : ℕ} :
    wp (allowing m A) (ripCdBody bin cue tracks firstLba total progress chunk maxRetries)
      (fun _ w' => ∃ log, Extends w log w')
      (Declaring maxRetries (cdRequest chunk.1 tracks) w) w := by
  refine wp_seq (wp_quiet hA rfl) (fun _ w₁ h₁ => ?_) fun e w' h => .of_none h.1 h.2
  have hext₁ : Extends w [] w₁ := Extends.refl.of_eq h₁
  refine wp_seq (wp_ripCdTracks hA fun _ => id) ?_ fun e w' h => .after hext₁ h
  rintro s w₂ ⟨log, hlog⟩
  have hext₂ := hext₁.trans hlog
  refine wp_seq (wp_quiet hA rfl) (fun _ w₃ h₃ => ?_) fun e w' h => .after hext₂ (.of_none h.1 h.2)
  have hext₃ := hext₂.of_eq h₃
  refine wp_bind.2 ((wp_lift _).2 ⟨fun text _ => ?_, fun e he =>
    .after hext₃ (.of_none rfl (declared_of_generateCue he))⟩)
  refine wp_seq (wp_quiet hA rfl) (fun _ w₄ h₄ => ?_) fun e w' h => .after hext₃ (.of_none h.1 h.2)
  exact ⟨_, hext₃.of_eq h₄⟩

theorem wp_eitherExists_quiet (hA : OnlyReadsDeclare A) {a b : Path} :
    wp (allowing m A) (eitherExists a b) (fun _ w' => w'.reads = w.reads)
      (fun e w' => w'.reads = w.reads ∧ e.declared = none) w := by
  refine wp_seq (wp_quiet hA rfl) (fun present w₁ h₁ => ?_) fun _ _ => id
  split
  · exact h₁
  · exact wp_mono (wp_quiet hA rfl) (fun _ _ h => h.trans h₁) fun _ _ h => ⟨h.1.trans h₁, h.2⟩

theorem wp_ripCdBinCue_declares (hA : OnlyReadsDeclare A) {ext : Externals} {cue : Path} :
    wp (allowing m A) (ripCdBinCue ext bin cue tracks progress chunk maxRetries)
      (fun image w' => ∃ log, Extends w log w' ∧ ∀ n ∈ image.damagedLbas,
        Declares maxRetries (cdRequest chunk.1 tracks) log n)
      (Declaring maxRetries (cdRequest chunk.1 tracks) w) w := by
  unfold ripCdBinCue
  split
  case h_2 => exact .of_none rfl rfl
  case h_1 first last hfirst hlast =>
  refine wp_seq (wp_ensureTemporarySpace_quiet hA) (fun _ w₁ h₁ => ?_) fun e w' h =>
    .of_none h.1 h.2
  refine wp_seq (wp_eitherExists_quiet hA) (fun present w₂ h₂ => ?_) fun e w' h =>
    .of_none (h.1.trans h₁) h.2
  have hext₂ : Extends w [] w₂ := Extends.refl.of_eq (h₂.trans h₁)
  split
  · refine wp_seq (wp_quiet hA rfl) (fun a w' h => ?_) fun e w' h => .after hext₂ (.of_none h.1 h.2)
    exact .after hext₂ (.of_none h rfl)
  refine wp_bind.2 (wp_tryCatch.2 (wp_mono (wp_ripCdBody hA) ?_ ?_))
  · rintro s w₃ ⟨log, hlog⟩
    have hext₃ := hext₂.trans hlog
    refine wp_seq (wp_quiet hA rfl) (fun size w₄ h₄ => ?_) fun e w' h =>
      .after hext₃ (.of_none h.1 h.2)
    exact ⟨log, hext₃.of_eq h₄, by simp⟩
  · intro e w₃ hdecl
    refine wp_mono (wp_removeAndRaise_quiet hA) (fun _ _ => id) ?_
    rintro e' w₄ ⟨h₄, rfl | hnone⟩
    · exact .after hext₂ (hdecl.of_eq h₄)
    · obtain ⟨log, hlog, -⟩ := hdecl
      exact .after (hext₂.trans hlog) (.of_none h₄ hnone)

end CdLoops

end Ps2Ripper
