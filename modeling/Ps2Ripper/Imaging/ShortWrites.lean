import Ps2Ripper.Imaging.Conversion
import Ps2Ripper.Interactive.Record

/-!
# Short writes

The output files are opened without a buffer, and a write to such a file may store only the first
bytes of what it is given and answer how many these are.  The rips and the conversion do not look at
that answer, and feed all of the bytes to the digest.

* `WriteCall`, `writes`: what the writes of a run were given, and how much of it they stored;
* `AppendsPrefix`: writes that store only first bytes of what they are given;
* `Appended`, `Digested`: the bytes that were hashed and the bytes that were stored, one turn of a
  loop after the other;
* `imageResult_describes_iff`: a result describes its file exactly when no write of the run was
  short.
-/

namespace Ps2Ripper

open Interactive Prog

structure WriteCall where
  path : Path
  offered : ℕ
  stored : ℕ

/-- The write stored everything. -/
def WriteCall.Full (c : WriteCall) : Prop := c.stored = c.offered

/-- The bytes that writes left out. -/
def missing (calls : List WriteCall) : ℕ := (calls.map fun c => c.offered - c.stored).sum

@[simp] theorem missing_append (calls calls' : List WriteCall) :
    missing (calls ++ calls') = missing calls + missing calls' := by
  rw [missing, List.map_append, List.sum_append, missing, missing]

theorem missing_eq_zero_iff {calls : List WriteCall} (h : ∀ c ∈ calls, c.stored ≤ c.offered) :
    missing calls = 0 ↔ ∀ c ∈ calls, c.Full := by
  rw [missing, List.sum_eq_zero_iff]
  constructor
  · intro hzero c hc
    have hle := h c hc
    have hsub : c.offered - c.stored = 0 := hzero _ (List.mem_map_of_mem hc)
    rw [WriteCall.Full]
    omega
  · intro hfull k hk
    obtain ⟨c, hc, rfl⟩ := List.mem_map.1 hk
    have heq : c.stored = c.offered := hfull c hc
    omega

/-- A write that went through, as a record. -/
def recordWrite : (o : Op) → Except PyError o.Answer → List WriteCall
  | .write p data, .ok n => [⟨p, data.length, n⟩]
  | _, _ => []

/-- The writes of a run. -/
def writes (m : Machine) (σ : Oracle) {α : Type} (p : Program α) (w : World) : List WriteCall :=
  records recordWrite (handlers m σ) p 0 w

/-- The raw output of the operating system: a write that goes through stores first bytes of what it
is given. -/
def AppendsPrefix (A : Op → Choice → Prop) : Prop :=
  ∀ p data c, A (.write p data) c → c.fault = none → ∀ stored ∈ c.stored, stored <+: data

/-- The environment, with the writes that were made so far. -/
abbrev writing (m : Machine) (A : Op → Choice → Prop) :
    Contract interface PyError (World × List WriteCall) :=
  (allowing m A).recording recordWrite

variable {m : Machine} {A : Op → Choice → Prop} {s s' s'' : World × List WriteCall} {α : Type}

theorem writing_permissive : (writing m A).Permissive := fun _ _ => trivial

/-- `data` was offered to the file `p` by the writes `calls`, and `stored` came to its end. -/
structure Appended (p : Path) (data : Bytes) (calls : List WriteCall) (stored : Bytes)
    (s s' : World × List WriteCall) : Prop where
  log : s'.2 = s.2 ++ calls
  file : ∀ old, s.1.files p = some old → s'.1.files p = some (old ++ stored)
  within : ∀ c ∈ calls, c.stored ≤ c.offered
  length : stored.length + missing calls = data.length
  sublist : stored.Sublist data

namespace Appended

variable {p : Path} {data data' stored stored' : Bytes} {calls calls' : List WriteCall}

theorem trans (h : Appended p data calls stored s s')
    (h' : Appended p data' calls' stored' s' s'') :
    Appended p (data ++ data') (calls ++ calls') (stored ++ stored') s s'' := by
  have hlength := h.length
  have hlength' := h'.length
  constructor
  · rw [h'.log, h.log, List.append_assoc]
  · intro old hold
    rw [h'.file _ (h.file old hold), List.append_assoc]
  · intro c hc
    rcases List.mem_append.1 hc with hc | hc
    · exact h.within c hc
    · exact h'.within c hc
  · rw [List.length_append, List.length_append, missing_append]
    omega
  · exact h.sublist.append h'.sublist

/-- Steps before the write that change no file. -/
theorem of_eq (h : Appended p data calls stored s' s'') (hlog : s'.2 = s.2)
    (hfiles : s'.1.files = s.1.files) : Appended p data calls stored s s'' := by
  refine { h with log := by rw [h.log, hlog], file := ?_ }
  intro old hold
  exact h.file old (by rw [hfiles, hold])

/-- Steps after the write that change no file. -/
theorem then_eq (h : Appended p data calls stored s s') (hlog : s''.2 = s'.2)
    (hfiles : s''.1.files = s'.1.files) : Appended p data calls stored s s'' := by
  refine { h with log := by rw [hlog, h.log], file := ?_ }
  intro old hold
  rw [hfiles, h.file old hold]

theorem refl : Appended p [] [] [] s s where
  log := (List.append_nil _).symm
  file old hold := by rw [hold, List.append_nil]
  within := nofun
  length := rfl
  sublist := .refl _

end Appended

/-- After `digest`, `bytes` bytes were hashed, and offered to the file `p`. -/
def Digested (p : Path) (bytes : ℕ) (digest digest' : Bytes) (s s' : World × List WriteCall) :
    Prop :=
  ∃ data calls stored, digest' = digest ++ data ∧ data.length = bytes ∧
    Appended p data calls stored s s'

namespace Digested

variable {p : Path} {data stored digest digest' digest'' : Bytes} {calls : List WriteCall}
  {n n' : ℕ}

theorem refl : Digested p 0 digest digest s s :=
  ⟨[], [], [], (List.append_nil _).symm, rfl, .refl⟩

theorem of_appended (h : Appended p data calls stored s s') :
    Digested p data.length digest (digest ++ data) s s' :=
  ⟨data, calls, stored, rfl, rfl, h⟩

theorem trans (h : Digested p n digest digest' s s') (h' : Digested p n' digest' digest'' s' s'') :
    Digested p (n + n') digest digest'' s s'' := by
  obtain ⟨data, calls, stored, rfl, rfl, h⟩ := h
  obtain ⟨data', calls', stored', rfl, rfl, h'⟩ := h'
  exact ⟨data ++ data', _, _, List.append_assoc .., List.length_append, h.trans h'⟩

/-- Steps after the writes that change no file. -/
theorem then_eq (h : Digested p n digest digest' s s') (hlog : s''.2 = s'.2)
    (hfiles : s''.1.files = s'.1.files) : Digested p n digest digest' s s'' := by
  obtain ⟨data, calls, stored, hdigest, hlength, h⟩ := h
  exact ⟨data, calls, stored, hdigest, hlength, h.then_eq hlog hfiles⟩

end Digested

/-! ### The operations -/

/-- An operation that is not a write. -/
def Op.WritesNothing (o : Op) : Prop := ∀ r, recordWrite o r = []

theorem Op.Within.writesNothing {R : Set Path} {o : Op} (h : o.Within R ∅) : o.WritesNothing := by
  intro r
  cases o with
  | write p data => exact absurd (h.2.1 p rfl) (Set.notMem_empty p)
  | _ => rfl

theorem ensures_unrecorded {p : Program α} {Q : α → World → Prop} (hp : p.Uses Op.WritesNothing)
    (h : ensures (allowing m A) p Q s.1) :
    ensures (writing m A) p (fun a s' => Q a s'.1 ∧ s'.2 = s.2) s :=
  ensures_and (ensures_of_wp (wp_recording h))
    (ensures_of_wp (wp_unrecorded (fun _ ho r => ho r) hp allowing_permissive))

/-- A program that changes no file. -/
theorem ensures_unwritten {R : Set Path} {p : Program α} {Q : α → World → Prop}
    (hp : p.Uses (Op.Within R ∅)) (h : ensures (allowing m A) p Q s.1) :
    ensures (writing m A) p (fun a s' => Q a s'.1 ∧ s'.2 = s.2 ∧ s'.1.files = s.1.files) s := by
  refine ensures_mono (ensures_unrecorded (hp.mono fun _ => Op.Within.writesNothing)
    (ensures_frame hp h)) ?_
  rintro a s' ⟨⟨hQ, hframe⟩, hlog⟩
  exact ⟨hQ, hlog, hframe.files_eq⟩

theorem ensures_write_appended (hA : AppendsPrefix A) {p : Path} {data : Bytes} :
    ensures (writing m A) (call (.write p data))
      (fun _ s' => ∃ calls stored, Appended p data calls stored s s') s := by
  refine wp_perform.2 ⟨trivial, ?_, fun _ _ _ => trivial⟩
  rintro n ⟨w', log'⟩ ⟨⟨c, hc, hperform⟩, hlog⟩
  have hs := succeed_of_perform_ok hperform
  have hfault := fault_of_perform_ok rfl hperform
  cases hs
  have hprefix : c.stored.getD data <+: data := by
    rcases hstored : c.stored with _ | stored
    · exact List.prefix_rfl
    · exact hA p data c hc hfault stored hstored
  have hle := hprefix.length_le
  refine ⟨_, c.stored.getD data, hlog, ?_, ?_, ?_, ?_⟩
  · intro old hold
    simp [hold]
  · intro call hcall
    obtain rfl := List.mem_singleton.1 hcall
    exact hle
  · show (c.stored.getD data).length + (data.length - (c.stored.getD data).length + 0) = data.length
    omega
  · exact hprefix.sublist

/-! ### The loops -/

section Loops

variable {chunk : ChunkSize} {maxRetries total lba : ℕ} {progress continueDamaged : Bool}
  {path : Path}

/-- The end of a turn: the bytes are written, the progress is reported, and the loop goes on. -/
theorem ensures_turn (hA : AppendsPrefix A) {data : Bytes} {snapshot : ProgressSnapshot}
    {rest : Program α} {Q : α → World × List WriteCall → Prop} {s₀ : World × List WriteCall}
    (hlog : s.2 = s₀.2) (hfiles : s.1.files = s₀.1.files)
    (hrest : ∀ calls stored s', Appended path data calls stored s₀ s' →
      ensures (writing m A) rest Q s') :
    ensures (writing m A) (call (.write path data) >>= fun _ =>
      emitProgress progress snapshot >>= fun _ => rest) Q s := by
  refine ensures_bind (ensures_write_appended hA) ?_
  rintro _ s₁ ⟨calls, stored, h⟩
  refine ensures_bind (ensures_unwritten (R := ∅) emitProgress_within ensures_emitProgress) ?_
  rintro _ s₂ ⟨-, hlog₂, hfiles₂⟩
  exact hrest calls stored s₂ ((h.of_eq hlog hfiles).then_eq hlog₂ hfiles₂)

theorem ensures_ripDvdLoop_appended (hA : AppendsPrefix A) {d : DvdState} (hlba : lba ≤ total) :
    ensures (writing m A) (ripDvdLoop path total progress chunk maxRetries continueDamaged lba d)
      (fun d' s' => Digested path ((total - lba) * 2048) d.digest d'.digest s s') s := by
  induction lba, d using ripDvdLoop.induct total chunk generalizing s with
  | case1 lba d hlt ih =>
    rw [ripDvdLoop, dif_pos hlt]
    refine ensures_bind (ensures_unwritten (R := ∅) checkpoint_within ensures_checkpoint) ?_
    rintro _ s₁ ⟨-, hlog₁, hfiles₁⟩
    refine ensures_bind (ensures_unwritten (R := ∅) readDvd_within ensures_readDvd_fetched) ?_
    rintro r s₂ ⟨⟨log, hr⟩, hlog₂, hfiles₂⟩
    have hsize : r.size ≤ total - lba := hr.size.trans (min_le_right _ _)
    have hlength : r.data.length = r.size * 2048 := by
      rw [hr.data, Disc.length_image]
    refine ensures_turn hA (hlog₂.trans hlog₁) (hfiles₂.trans hfiles₁) fun calls stored s₃ h₃ => ?_
    refine ensures_mono (ih r (by omega)) fun d' s₄ h₄ => ?_
    -- The turn has hashed the sectors that it read, and the loop hashes those behind them.
    have hbytes : (total - lba) * 2048 = r.data.length + (total - (lba + r.size)) * 2048 := by
      omega
    rw [hbytes]
    exact (Digested.of_appended h₃).trans h₄
  | case2 lba d hge =>
    rw [ripDvdLoop, dif_neg hge]
    have hbytes : (total - lba) * 2048 = 0 := by omega
    rw [hbytes]
    exact ensures_return .refl

theorem ensures_ripCdTrack_appended (hA : AppendsPrefix A) {track : CDTrack} {d : CdState}
    (hlba : lba ≤ track.endLba + 1) :
    ensures (writing m A) (ripCdTrack path total progress chunk maxRetries track lba d)
      (fun d' s' => Digested path ((track.endLba + 1 - lba) * 2352) d.digest d'.digest s s')
      s := by
  induction lba, d using ripCdTrack.induct chunk track generalizing s with
  | case1 lba d hle ih =>
    rw [ripCdTrack, dif_pos hle]
    refine ensures_bind (ensures_unwritten (R := ∅) checkpoint_within ensures_checkpoint) ?_
    rintro _ s₁ ⟨-, hlog₁, hfiles₁⟩
    refine ensures_bind (ensures_unwritten (R := ∅) readCd_within (ensures_readCd path)) ?_
    rintro r s₂ ⟨⟨hcount, hdata, -⟩, hlog₂, hfiles₂⟩
    have hcount : r.count ≤ track.endLba - lba + 1 := hcount.trans (min_le_right _ _)
    have hlength : r.data.length = r.count * 2352 := by
      rw [hdata, Disc.length_raws]
    refine ensures_turn hA (hlog₂.trans hlog₁) (hfiles₂.trans hfiles₁) fun calls stored s₃ h₃ => ?_
    refine ensures_mono (ih r (by omega)) fun d' s₄ h₄ => ?_
    have hbytes : (track.endLba + 1 - lba) * 2352 =
        r.data.length + (track.endLba + 1 - (lba + r.count)) * 2352 := by
      omega
    rw [hbytes]
    exact (Digested.of_appended h₃).trans h₄
  | case2 lba d hgt =>
    rw [ripCdTrack, dif_neg hgt]
    have hbytes : (track.endLba + 1 - lba) * 2352 = 0 := by omega
    rw [hbytes]
    exact ensures_return .refl

/-- The sectors of all tracks. -/
def sectorCount (tracks : List CDTrack) : ℕ := (tracks.map (·.sectors)).sum

theorem ensures_ripCdTracks_appended (hA : AppendsPrefix A) {tracks : List CDTrack} {d : CdState} :
    ensures (writing m A) (ripCdTracks path total progress chunk maxRetries tracks d)
      (fun d' s' => Digested path (sectorCount tracks * 2352) d.digest d'.digest s s') s := by
  induction tracks generalizing s d with
  | nil => exact ensures_return .refl
  | cons track tracks ih =>
    have hstart : track.startLba ≤ track.endLba + 1 := track.start_le_end.trans (Nat.le_succ _)
    refine ensures_bind (ensures_ripCdTrack_appended hA hstart) ?_
    intro d₁ s₁ h₁
    refine ensures_mono ih fun d₂ s₂ h₂ => ?_
    have hbytes : sectorCount (track :: tracks) * 2352 =
        (track.endLba + 1 - track.startLba) * 2352 + sectorCount tracks * 2352 := by
      rw [track.sectors_eq, ← Nat.add_mul]
      rfl
    rw [hbytes]
    exact h₁.trans h₂

theorem ensures_convertLoop_appended (hA : AppendsPrefix A) {bin : Path} {track : CDTrack}
    {remaining : ℕ} {left digest : Bytes} :
    ensures (writing m A) (convertLoop bin path track progress remaining left digest)
      (fun digest' s' => Digested path (remaining * 2048) digest digest' s s') s := by
  induction remaining generalizing left digest s with
  | zero => exact ensures_return .refl
  | succ remaining ih =>
    refine ensures_bind (ensures_unwritten (R := ∅) checkpoint_within ensures_checkpoint) ?_
    rintro _ s₁ ⟨-, hlog₁, hfiles₁⟩
    refine ensures_bind (ensures_unwritten (R := {bin}) (uses_of (by simp))
      (ensures_true allowing_permissive _)) ?_
    rintro size s₂ ⟨-, hlog₂, hfiles₂⟩
    by_cases hshort : (left.take size.1).length ≠ 2352
    · rw [if_pos hshort]
      trivial
    rw [if_neg hshort]
    refine ensures_bind (Q := fun u s' => u.length = 2048 ∧ s' = s₂) (ensures_lift fun u hu =>
      ⟨length_of_extract2048UserData hu, rfl⟩) ?_
    rintro u s₃ ⟨hlength, rfl⟩
    refine ensures_turn hA (hlog₂.trans hlog₁) (hfiles₂.trans hfiles₁) fun calls stored s₃ h₃ => ?_
    refine ensures_mono ih fun digest' s₄ h₄ => ?_
    have hbytes : (remaining + 1) * 2048 = u.length + remaining * 2048 := by omega
    rw [hbytes]
    exact (Digested.of_appended h₃).trans h₄

end Loops

/-! ### The functions -/

/-- The hash is the one of the file, and the size is `bytes`. -/
def Describes (ext : Externals) (w : World) (p : Path) (sha256 : String) (size bytes : ℕ) : Prop :=
  HasDigest ext w p sha256 ∧ size = bytes

/-- The writes `calls` were offered the `bytes` bytes that were hashed; the file has what they
stored. -/
structure Accounted (ext : Externals) (p : Path) (bytes : ℕ) (sha256 : String) (size : ℕ)
    (calls : List WriteCall) (w : World) : Prop where
  within : ∀ c ∈ calls, c.stored ≤ c.offered
  counted : size + missing calls = bytes
  hashed : ∃ data stored, data.length = bytes ∧ sha256 = ext.hexdigest data ∧
    w.files p = some stored ∧ size = stored.length ∧ stored.Sublist data

namespace Accounted

variable {ext : Externals} {p q : Path} {bytes size : ℕ} {sha256 : String} {calls : List WriteCall}
  {w w' : World}

theorem describes_iff (h : Accounted ext p bytes sha256 size calls w) :
    Describes ext w p sha256 size bytes ↔ ∀ c ∈ calls, c.Full := by
  have hcounted := h.counted
  rw [← missing_eq_zero_iff h.within]
  constructor
  · rintro ⟨-, hsize⟩
    omega
  · intro hzero
    obtain ⟨data, stored, hlength, hsha, hfile, hsize, hsublist⟩ := h.hashed
    have hwhole : stored = data := hsublist.eq_of_length (by omega)
    exact ⟨⟨stored, hfile, by rw [hwhole, hsha]⟩, by omega⟩

/-- Without collisions the hash alone tells. -/
theorem hasDigest_iff (h : Accounted ext p bytes sha256 size calls w)
    (collision : Function.Injective ext.hexdigest) :
    HasDigest ext w p sha256 ↔ ∀ c ∈ calls, c.Full := by
  constructor
  · rintro ⟨data', hfile', hsha'⟩
    obtain ⟨data, stored, hlength, hsha, hfile, hsize, -⟩ := h.hashed
    obtain rfl : data' = data := collision (hsha'.trans hsha)
    obtain rfl : stored = data' := Option.some_injective _ (hfile.symm.trans hfile')
    exact h.describes_iff.1 ⟨⟨stored, hfile, hsha'⟩, by rw [hsize, hlength]⟩
  · intro hfull
    exact (h.describes_iff.2 hfull).1

/-- The bytes may be moved elsewhere. -/
theorem of_files (h : Accounted ext p bytes sha256 size calls w) (hw : w'.files q = w.files p) :
    Accounted ext q bytes sha256 size calls w' := by
  obtain ⟨data, stored, hlength, hsha, hfile, hrest⟩ := h.hashed
  exact ⟨h.within, h.counted, data, stored, hlength, hsha, hw.trans hfile, hrest⟩

end Accounted

/-- A file that was created for the bytes and measured after them. -/
theorem Digested.accounted (ext : Externals) {p : Path} {bytes : ℕ} {digest : Bytes}
    (h : Digested p bytes [] digest s s') (hs : s.1.files p = some []) :
    ∃ calls size, s'.2 = s.2 ++ calls ∧
      Accounted ext p bytes (ext.hexdigest digest) size calls s'.1 := by
  obtain ⟨data, calls, stored, hdigest, hlength, h⟩ := h
  obtain rfl : digest = data := hdigest
  have hfile : s'.1.files p = some stored := h.file [] hs
  exact ⟨calls, stored.length, h.log, h.within, hlength ▸ h.length, digest, stored, hlength, rfl,
    hfile, rfl, h.sublist⟩

theorem ensures_openExclusive_unrecorded {p : Path} :
    ensures (writing m A) (call (.openExclusive p))
      (fun _ s' => s'.1.files p = some [] ∧ s'.2 = s.2) s := by
  refine ensures_mono (ensures_unrecorded (uses_of fun _ => rfl) ensures_openExclusive) ?_
  rintro _ s' ⟨⟨-, hw⟩, hlog⟩
  exact ⟨by rw [hw, World.setFile_files_self], hlog⟩

/-- The file is measured at the end. -/
theorem ensures_stat_accounted {ext : Externals} {p : Path} {bytes size : ℕ} {sha256 : String}
    {calls : List WriteCall} (h : Accounted ext p bytes sha256 size calls s.1) :
    ensures (writing m A) (call (.stat p))
      (fun n s' => s'.2 = s.2 ∧ Accounted ext p bytes sha256 n calls s'.1) s := by
  refine ensures_mono (ensures_unrecorded (uses_of fun _ => rfl) ensures_stat) ?_
  rintro n s' ⟨⟨⟨found, hfound, hn⟩, hw⟩, hlog⟩
  obtain ⟨data, stored, -, -, hfile, hsize, -⟩ := h.hashed
  obtain rfl : stored = found := Option.some_injective _ (hfile.symm.trans hfound)
  rw [hw, hn, ← hsize]
  exact ⟨hlog, h⟩

/-- `try: body except BaseException: remove the outputs`. -/
theorem ensures_removing {p : Program α} {outputs : List Path}
    {Q : α → World × List WriteCall → Prop} (h : ensures (writing m A) p Q s) :
    ensures (writing m A) (p.tryCatch (removeAndRaise outputs)) Q s := by
  refine ensures_tryCatch h fun e s' => ?_
  exact ensures_mono (ensures_of_wp (wp_of_yields (removeAndRaise_never outputs e)
    (ensures_true writing_permissive _))) fun _ _ hnever => hnever.1.elim

/-- The checks for space and for an old output come before anything is written. -/
theorem ensures_newOutput {d : Dir} {n : ℕ} {p : Path} {e : PyError} {rest : Program α}
    {Q : α → World × List WriteCall → Prop}
    (hrest : ∀ s' : World × List WriteCall, s'.2 = s.2 → ensures (writing m A) rest Q s') :
    ensures (writing m A) (ensureTemporarySpace d n >>= fun _ => call (.pathExists p) >>=
      fun present => if present = true then Prog.raise e else rest) Q s := by
  refine ensures_bind (ensures_unwritten (R := ∅) ensureTemporarySpace_within
    ensures_ensureTemporarySpace) ?_
  rintro _ s₁ ⟨-, hlog₁, -⟩
  refine ensures_bind (ensures_unwritten (R := {p}) (uses_of (by simp)) ensures_pathExists) ?_
  rintro present s₂ ⟨-, hlog₂, -⟩
  by_cases hpresent : present = true
  · rw [if_pos hpresent]
    trivial
  · rw [if_neg hpresent]
    exact hrest s₂ (hlog₂.trans hlog₁)

section Functions

variable {ext : Externals} {chunk : ChunkSize} {maxRetries total : ℕ}
  {progress continueDamaged : Bool} {path cuePath : Path} {tracks : List CDTrack}

theorem ensures_ripDvdBody_accounted (ext : Externals) (hA : AppendsPrefix A) :
    ensures (writing m A) (ripDvdBody path total progress chunk maxRetries continueDamaged)
      (fun d s' => ∃ calls size, s'.2 = s.2 ++ calls ∧
        Accounted ext path (total * 2048) (ext.hexdigest d.digest) size calls s'.1) s := by
  refine ensures_bind ensures_openExclusive_unrecorded ?_
  rintro _ s₁ ⟨hempty, hlog₁⟩
  refine ensures_bind (ensures_ripDvdLoop_appended hA (Nat.zero_le _)) ?_
  intro d s₂ h₂
  refine ensures_bind (ensures_unwritten (R := {path}) (uses_of (by simp)) ensures_fsync) ?_
  rintro _ s₃ ⟨-, hlog₃, hfiles₃⟩
  obtain ⟨calls, size, hlog, haccounted⟩ := (h₂.then_eq hlog₃ hfiles₃).accounted ext hempty
  exact ensures_return ⟨calls, size, by rw [hlog, hlog₁], haccounted⟩

theorem ensures_ripDvdIso_accounted (hA : AppendsPrefix A) :
    ensures (writing m A) (ripDvdIso ext path total progress chunk maxRetries continueDamaged)
      (fun image s' => ∃ calls, s'.2 = s.2 ++ calls ∧
        Accounted ext path (total * 2048) image.sha256 image.size calls s'.1) s := by
  refine ensures_newOutput fun s₂ hlog₂ => ?_
  refine ensures_bind (ensures_removing (ensures_ripDvdBody_accounted ext hA)) ?_
  rintro d s₃ ⟨calls, size, hlog₃, h₃⟩
  refine ensures_bind (ensures_stat_accounted h₃) ?_
  rintro n s₄ ⟨hlog₄, h₄⟩
  exact ensures_return ⟨calls, by rw [hlog₄, hlog₃, hlog₂], h₄⟩

theorem ensures_ripCdBody_accounted (ext : Externals) (hA : AppendsPrefix A) (hne : path ≠ cuePath)
    {firstLba : ℕ} :
    ensures (writing m A) (ripCdBody path cuePath tracks firstLba total progress chunk maxRetries)
      (fun d s' => ∃ calls size, s'.2 = s.2 ++ calls ∧ Accounted ext path
        (sectorCount tracks * 2352) (ext.hexdigest d.digest) size calls s'.1) s := by
  refine ensures_bind ensures_openExclusive_unrecorded ?_
  rintro _ s₁ ⟨hempty, hlog₁⟩
  refine ensures_bind (ensures_ripCdTracks_appended hA) ?_
  intro d s₂ h₂
  refine ensures_bind (ensures_unwritten (R := {path}) (uses_of (by simp)) ensures_fsync) ?_
  rintro _ s₃ ⟨-, hlog₃, hfiles₃⟩
  refine ensures_bind (ensures_unwritten (R := ∅) (uses_lift _)
    (ensures_lift (Q := fun _ _ => True) fun _ _ => trivial)) ?_
  rintro text s₄ ⟨-, hlog₄, hfiles₄⟩
  refine ensures_bind (ensures_unrecorded (uses_of fun _ => rfl) ensures_writeText) ?_
  rintro _ s₅ ⟨⟨-, hothers, -⟩, hlog₅⟩
  obtain ⟨calls, size, hlog, haccounted⟩ :=
    ((h₂.then_eq hlog₃ hfiles₃).then_eq hlog₄ hfiles₄).accounted ext hempty
  refine ensures_return ⟨calls, size, ?_, haccounted.of_files (hothers path hne)⟩
  rw [hlog₅, hlog, hlog₁]

theorem ensures_ripCdBinCue_accounted (hA : AppendsPrefix A) (hne : path ≠ cuePath) :
    ensures (writing m A) (ripCdBinCue ext path cuePath tracks progress chunk maxRetries)
      (fun image s' => ∃ calls, s'.2 = s.2 ++ calls ∧ Accounted ext path
        (sectorCount tracks * 2352) image.sha256 image.size calls s'.1) s := by
  unfold ripCdBinCue
  split
  case h_2 => trivial
  case h_1 first last hfirst hlast =>
  refine ensures_bind (ensures_unwritten (R := ∅) ensureTemporarySpace_within
    ensures_ensureTemporarySpace) ?_
  rintro _ s₁ ⟨-, hlog₁, -⟩
  refine ensures_bind (ensures_unwritten (R := {path, cuePath})
    (eitherExists_within (by simp) (by simp)) ensures_eitherExists) ?_
  rintro present s₂ ⟨-, hlog₂, -⟩
  by_cases hpresent : present = true
  · rw [if_pos hpresent]
    refine ensures_mono (ensures_unwritten (R := {path, cuePath}) (raiseExisting_within (by simp))
      (ensures_raiseExisting (Q := fun _ _ => False))) ?_
    exact fun _ _ h => h.1.elim
  rw [if_neg hpresent]
  refine ensures_bind (ensures_removing (ensures_ripCdBody_accounted ext hA hne)) ?_
  rintro d s₃ ⟨calls, size, hlog₃, h₃⟩
  refine ensures_bind (ensures_stat_accounted h₃) ?_
  rintro n s₄ ⟨hlog₄, h₄⟩
  exact ensures_return ⟨calls, by rw [hlog₄, hlog₃, hlog₂, hlog₁], h₄⟩

theorem ensures_convertBody_accounted (ext : Externals) (hA : AppendsPrefix A) {bin : Path}
    {track : CDTrack} {firstLba : ℕ} :
    ensures (writing m A) (convertBody bin path track firstLba progress)
      (fun digest s' => ∃ calls size, s'.2 = s.2 ++ calls ∧
        Accounted ext path (track.sectors * 2048) (ext.hexdigest digest) size calls s'.1) s := by
  refine ensures_bind (ensures_unwritten (R := {bin}) (uses_of (by simp)) ensures_openRead) ?_
  rintro source s₁ ⟨-, hlog₁, -⟩
  refine ensures_bind ensures_openExclusive_unrecorded ?_
  rintro _ s₂ ⟨hempty, hlog₂⟩
  by_cases hseek : track.startLba < firstLba
  · rw [if_pos hseek]
    trivial
  rw [if_neg hseek]
  refine ensures_bind (ensures_convertLoop_appended hA) ?_
  intro digest s₃ h₃
  refine ensures_bind (ensures_unwritten (R := {path}) (uses_of (by simp)) ensures_fsync) ?_
  rintro _ s₄ ⟨-, hlog₄, hfiles₄⟩
  obtain ⟨calls, size, hlog, haccounted⟩ := (h₃.then_eq hlog₄ hfiles₄).accounted ext hempty
  exact ensures_return ⟨calls, size, by rw [hlog, hlog₂, hlog₁], haccounted⟩

theorem ensures_convertCdDataTrackToIso_accounted (hA : AppendsPrefix A) {bin : Path}
    {number : ℕ} :
    ensures (writing m A) (convertCdDataTrackToIso ext bin path tracks number progress)
      (fun image s' => ∃ calls, s'.2 = s.2 ++ calls ∧
        ∃ track, tracks.find? (·.number = number) = some track ∧
          Accounted ext path (track.sectors * 2048) image.sha256 image.size calls s'.1) s := by
  unfold convertCdDataTrackToIso
  split
  case h_2 => trivial
  case h_1 track first htrack hfirst =>
  by_cases hkind : track.kind = .audio
  · rw [if_pos hkind]
    trivial
  rw [if_neg hkind]
  refine ensures_newOutput fun s₂ hlog₂ => ?_
  refine ensures_bind (ensures_removing (ensures_convertBody_accounted ext hA)) ?_
  rintro digest s₃ ⟨calls, size, hlog₃, h₃⟩
  refine ensures_bind (ensures_stat_accounted h₃) ?_
  rintro n s₄ ⟨hlog₄, h₄⟩
  exact ensures_return ⟨calls, by rw [hlog₄, hlog₃, hlog₂], track, htrack, h₄⟩

end Functions

/-! ### The archive -/

section Archive

variable {r : RipRequest} {bin cue : Path} {stem : String} {bytes size : ℕ} {sha256 : String}
  {calls : List WriteCall}

theorem ensures_move {src dst : Path} {w : World} :
    ensures (allowing m A) (call (.move src dst)) (fun _ w' => w'.files dst = w.files src ∧
      ∀ q, q ≠ src → q ≠ dst → w'.files q = w.files q) w := by
  refine ensures_call fun c _ a w' h => ?_
  simp only [succeed] at h
  split at h
  · rename_i data hdata
    cases h
    constructor
    · rw [hdata]
      exact World.setFile_files_self ..
    · intro q hsrc hdst
      show ((w.setFile src none).setFile dst (some data)).files q = w.files q
      rw [World.setFile_files_of_ne _ _ hdst, World.setFile_files_of_ne _ _ hsrc]
  · cases h

/-- The BIN file keeps its bytes on the way to the archive. -/
theorem ensures_moveToArchive_accounted {ext : Externals} (hname : bin.name ≠ cue.name)
    (hdir : ∀ name, cue ≠ r.archivePath stem name)
    (h : Accounted ext bin bytes sha256 size calls s.1) :
    ensures (writing m A) (moveToArchive r stem bin cue) (fun archive s' => s'.2 = s.2 ∧
      archive.1 = r.archivePath stem bin.name ∧
      Accounted ext archive.1 bytes sha256 size calls s'.1) s := by
  refine ensures_bind (ensures_unwritten (R := ∅) (uses_of (by simp))
    (ensures_true allowing_permissive _)) ?_
  rintro _ s₁ ⟨-, hlog₁, hfiles₁⟩
  refine ensures_bind (ensures_unwritten (R := Set.univ) (eitherExists_within trivial trivial)
    ensures_eitherExists) ?_
  rintro present s₂ ⟨-, hlog₂, hfiles₂⟩
  by_cases hpresent : present = true
  · rw [if_pos hpresent]
    refine ensures_mono (ensures_unwritten (R := Set.univ) (raiseExisting_within trivial)
      (ensures_raiseExisting (Q := fun _ _ => False))) ?_
    exact fun _ _ h => h.1.elim
  rw [if_neg hpresent]
  refine ensures_bind (ensures_unrecorded (uses_of fun _ => rfl) ensures_move) ?_
  rintro _ s₃ ⟨⟨hbin, -⟩, hlog₃⟩
  refine ensures_bind (ensures_unrecorded (uses_of fun _ => rfl) ensures_move) ?_
  rintro _ s₄ ⟨⟨-, hothers⟩, hlog₄⟩
  refine ensures_return ⟨by rw [hlog₄, hlog₃, hlog₂, hlog₁], rfl, h.of_files ?_⟩
  have hkeep := hothers (r.archivePath stem bin.name) (hdir _).symm
    (by simpa [RipRequest.archivePath] using hname)
  rw [hkeep, hbin, hfiles₂, hfiles₁]

/-- Without an image to retain only the task directory goes. -/
theorem cleanup_none_within {task : Dir} :
    (cleanup r task none).Uses (Op.Within ∅ {q | q.dir = task}) := by
  refine .bind ?_ fun _ => uses_of (by simp)
  unfold retainImage
  split <;> trivial

theorem cleanup_none_writesNothing {task : Dir} :
    (cleanup r task none).Uses Op.WritesNothing := by
  refine .bind ?_ fun _ => uses_of fun _ => rfl
  unfold retainImage
  split <;> trivial

theorem ensures_ripCd_accounted (hA : AppendsPrefix A) {ext : Externals} (hne : bin ≠ cue) :
    ensures (writing m A) (ripCd ext r bin cue) (fun x s' => ∃ calls, s'.2 = s.2 ++ calls ∧
      Accounted ext bin (sectorCount r.disc.tracks * 2352) x.1.sha256 x.1.size calls s'.1) s := by
  refine ensures_bind (ensures_ripCdBinCue_accounted hA hne) ?_
  rintro image s₁ ⟨calls, hlog₁, h₁⟩
  refine ensures_bind (ensures_unwritten (R := ∅) findPs2CdTrack_within
    (ensures_true allowing_permissive _)) ?_
  rintro number s₂ ⟨-, hlog₂, hfiles₂⟩
  exact ensures_return ⟨calls, by rw [hlog₂, hlog₁], h₁.of_files (by rw [hfiles₂])⟩

theorem ensures_archiveCd_accounted {ext : Externals} {rawResult : ImageResult} {task : Dir}
    (hname : bin.name ≠ cue.name) (hdir : ∀ name, cue ≠ r.archivePath stem name)
    (htask : ∀ name, (r.archivePath stem name).dir ≠ task)
    (h : Accounted ext bin bytes rawResult.sha256 rawResult.size calls s.1) :
    ensures (writing m A) ((archiveCd r stem bin cue rawResult).tryFinally (cleanup r task none))
      (fun result s' => ∃ archive, result.archiveBin = some archive ∧ s'.2 = s.2 ∧
        Accounted ext archive bytes result.sourceSha256 result.sourceSize calls s'.1) s := by
  have hmoved : ensures (writing m A) (archiveCd r stem bin cue rawResult) (fun result s' =>
      s'.2 = s.2 ∧ result.archiveBin = some (r.archivePath stem bin.name) ∧
        Accounted ext (r.archivePath stem bin.name) bytes result.sourceSha256 result.sourceSize
          calls s'.1) s := by
    refine ensures_bind (ensures_moveToArchive_accounted hname hdir h) ?_
    rintro ⟨archiveBin, archiveCue⟩ s₁ ⟨hlog₁, hbin, h₁⟩
    obtain rfl : archiveBin = r.archivePath stem bin.name := hbin
    exact ensures_return ⟨hlog₁, rfl, h₁⟩
  refine ensures_tryFinally writing_permissive hmoved ?_
  rintro result s₁ ⟨hlog₁, harchive, h₁⟩
  refine ensures_mono (ensures_unrecorded cleanup_none_writesNothing
    (ensures_frame cleanup_none_within (ensures_true allowing_permissive _))) ?_
  rintro _ s₂ ⟨⟨-, hframe⟩, hlog₂⟩
  exact ⟨_, harchive, hlog₂.trans hlog₁, h₁.of_files (hframe.files _ (htask _))⟩

theorem ensures_ripInTask_accounted (hA : AppendsPrefix A) (hmedia : r.disc.mediaType = .ps2Cd)
    (honly : r.archiveOnly = true) {ext : Externals} {name base : String} {destination : Path}
    {id : ℕ} :
    ensures (writing m A) (ripInTask ext r name destination (.task base id))
      (fun result s' => ∃ archive calls, result.archiveBin = some archive ∧ s'.2 = s.2 ++ calls ∧
        Accounted ext archive (sectorCount r.disc.tracks * 2352) result.sourceSha256
          result.sourceSize calls s'.1) s := by
  -- A handler that cleans up passes the exception on.
  have hraise {β : Type} {p : Program β} {Q : β → World × List WriteCall → Prop}
      {s : World × List WriteCall} (h : ensures (writing m A) p Q s) :
      ensures (writing m A) (onRaise p (cleanup r (.task base id) none)) Q s :=
    ensures_tryCatch h fun _ _ => ensures_bind (ensures_true writing_permissive _) fun _ _ _ =>
      trivial
  refine ensures_bind (hraise (ensures_unwritten (R := ∅) reinspect_within
    (ensures_true allowing_permissive _))) ?_
  rintro _ s₁ ⟨-, hlog₁, -⟩
  -- Only the rip writes; what follows moves the file whose bytes were counted.
  rw [hmedia]
  refine ensures_bind (hraise (ensures_ripCd_accounted hA (by simp))) ?_
  rintro ⟨rawResult, number⟩ s₂ ⟨calls, hlog₂, h₂⟩
  show ensures _ (if r.archiveOnly = true then _ else _) _ _
  rw [if_pos honly]
  refine ensures_mono (ensures_archiveCd_accounted (by simp) (by simp [RipRequest.archivePath])
    (by simp [RipRequest.archivePath]) h₂) ?_
  rintro result s₃ ⟨archive, harchive, hlog₃, h₃⟩
  exact ⟨archive, calls, harchive, by rw [hlog₃, hlog₂, hlog₁], h₃⟩

theorem ensures_archiveOnly_accounted (hA : AppendsPrefix A) (hmedia : r.disc.mediaType = .ps2Cd)
    (honly : r.archiveOnly = true) :
    ensures (writing m A) (ripAndInstall m.toExternals r)
      (fun result s' => ∃ calls, s'.2 = s.2 ++ calls ∧ ∃ archive, result.archiveBin = some archive ∧
        Accounted m.toExternals archive (sectorCount r.disc.tracks * 2352) result.sourceSha256
          result.sourceSize calls s'.1) s := by
  have silent {β : Type} {p : Program β} {s : World × List WriteCall}
      (hp : p.Uses Op.WritesNothing) : ensures (writing m A) p (fun _ s' => s'.2 = s.2) s :=
    ensures_mono (ensures_unrecorded hp (ensures_true allowing_permissive _)) fun _ _ h => h.2
  refine ensures_bind (silent (uses_lift _)) fun name s₁ hlog₁ => ?_
  refine ensures_bind (silent (uses_lift _)) fun destination s₂ hlog₂ => ?_
  refine ensures_bind (silent (uses_of fun _ => rfl)) fun present s₃ hlog₃ => ?_
  rw [if_neg (by simp [honly])]
  refine ensures_bind (silent (uses_of fun _ => rfl)) fun _ s₄ hlog₄ => ?_
  refine ensures_bind (silent (uses_of fun _ => rfl)) fun id s₅ hlog₅ => ?_
  refine ensures_mono (ensures_ripInTask_accounted hA hmedia honly) ?_
  rintro result s₆ ⟨archive, calls, harchive, hlog₆, h₆⟩
  exact ⟨calls, by rw [hlog₆, hlog₅, hlog₄, hlog₃, hlog₂, hlog₁], archive, harchive, h₆⟩

end Archive

/-! ### When a result describes its file -/

/-- Every write of the run that went through stored all of its bytes. -/
def WritesFully (m : Machine) (σ : Oracle) (p : Program α) (w : World) : Prop :=
  ∀ c ∈ writes m σ p w, c.Full

/-- What is guaranteed of the writes of a program holds of those of its runs. -/
theorem of_writes {σ : Oracle} {p : Program α} {w : World} {a : α}
    {Q : α → List WriteCall → World → Prop}
    (hp : ∀ s, ensures (writing m σ.choices) p
      (fun a s' => ∃ calls, s'.2 = s.2 ++ calls ∧ Q a calls s'.1) s)
    (ha : (execute m σ p w).result = .ok a) :
    Q a (writes m σ p w) (execute m σ p w).world := by
  obtain ⟨calls, hcalls, hQ⟩ :=
    (records_of_wp (allowing_admits fun n o => ⟨n, rfl⟩) (hp (w, []))).1 a ha
  have heq : writes m σ p w = calls := hcalls
  rwa [heq]

/-- **An image result describes its file exactly when no write of the run was short.**  The writes
store first bytes of what they are given.  A result of `rip_dvd_iso`, of `rip_cd_bin_cue` or of
`convert_cd_data_track_to_iso` then has the hash of its file and the size of its sectors if and only
if every write stored everything; the same holds of the archive that an archive-only rip reports,
where the hash alone decides if it has no collisions. -/
theorem imageResult_describes_iff {σ : Oracle} (hσ : AppendsPrefix σ.choices) {bin cue : Path}
    (hne : bin ≠ cue) (w : World) (dest iso : Path) (total number maxRetries : ℕ)
    (tracks : List CDTrack) (progress continueDamaged : Bool) (chunk : ChunkSize)
    (r : RipRequest) :
    let ext := m.toExternals
    let dvd := ripDvdIso ext dest total progress chunk maxRetries continueDamaged
    let cd := ripCdBinCue ext bin cue tracks progress chunk maxRetries
    let convert := convertCdDataTrackToIso ext bin iso tracks number progress
    let archive := ripAndInstall ext r
    (∀ image, (execute m σ dvd w).result = .ok image →
      (Describes ext (execute m σ dvd w).world dest image.sha256 image.size (total * 2048) ↔
        WritesFully m σ dvd w)) ∧
    (∀ image, (execute m σ cd w).result = .ok image →
      (Describes ext (execute m σ cd w).world bin image.sha256 image.size
        (sectorCount tracks * 2352) ↔ WritesFully m σ cd w)) ∧
    (∀ image, (execute m σ convert w).result = .ok image →
      ∃ track, tracks.find? (·.number = number) = some track ∧
        (Describes ext (execute m σ convert w).world iso image.sha256 image.size
          (track.sectors * 2048) ↔ WritesFully m σ convert w)) ∧
    (r.disc.mediaType = .ps2Cd → r.archiveOnly = true →
      ∀ result, (execute m σ archive w).result = .ok result →
        ∃ path, result.archiveBin = some path ∧
          (Describes ext (execute m σ archive w).world path result.sourceSha256 result.sourceSize
            (sectorCount r.disc.tracks * 2352) ↔ WritesFully m σ archive w) ∧
          (Function.Injective ext.hexdigest →
            (HasDigest ext (execute m σ archive w).world path result.sourceSha256 ↔
              WritesFully m σ archive w))) := by
  intro ext dvd cd convert archive
  refine ⟨fun image himage => ?_, fun image himage => ?_, fun image himage => ?_,
    fun hmedia honly result hresult => ?_⟩
  · have h := of_writes (Q := fun image calls w' => Accounted ext dest (total * 2048) image.sha256
      image.size calls w') (fun s => ensures_ripDvdIso_accounted hσ) himage
    exact h.describes_iff
  · have h := of_writes (Q := fun image calls w' => Accounted ext bin (sectorCount tracks * 2352)
      image.sha256 image.size calls w') (fun s => ensures_ripCdBinCue_accounted hσ hne) himage
    exact h.describes_iff
  · obtain ⟨track, htrack, h⟩ := of_writes (Q := fun image calls w' =>
      ∃ track, tracks.find? (·.number = number) = some track ∧ Accounted ext iso
        (track.sectors * 2048) image.sha256 image.size calls w')
      (fun s => ensures_convertCdDataTrackToIso_accounted hσ) himage
    exact ⟨track, htrack, h.describes_iff⟩
  · obtain ⟨path, hpath, h⟩ := of_writes (Q := fun result calls w' =>
      ∃ path, result.archiveBin = some path ∧ Accounted ext path
        (sectorCount r.disc.tracks * 2352) result.sourceSha256 result.sourceSize calls w')
      (fun s => ensures_archiveOnly_accounted hσ hmedia honly) hresult
    exact ⟨path, hpath, h.describes_iff, h.hasDigest_iff⟩

/-- Every step goes through, and a write stores a quarter of a sector. -/
def shortWrites : Oracle := fun _ o =>
  match o with
  | .write _ data => { stored := some (data.take 512) }
  | _ => {}

theorem appendsPrefix_shortWrites : AppendsPrefix shortWrites.choices := by
  rintro p data c ⟨n, rfl⟩ - stored hstored
  cases hstored
  exact List.take_prefix 512 data

theorem wp_shortWrites {o : Op} {a : o.Answer} {w w' : World} {Q : o.Answer → World → Prop}
    {E : PyError → World → Prop} (h : perform m o (shortWrites 0 o) w = (.ok a, w')) (hQ : Q a w') :
    wp (allowing m fun o c => c = shortWrites 0 o) (call o) Q E w := by
  refine wp_call_iff.2 fun c hc => ⟨fun a' w'' h' => ?_, fun e w'' h' => ?_⟩
  · rw [hc, h] at h'
    cases h'
    exact hQ
  · rw [hc, h] at h'
    cases h'

/-- A disc of one sector is ripped, and a quarter of it is stored. -/
theorem wp_ripDvdIso_shortWrites :
    wp (allowing (sampleMachine 0x10) fun o c => c = shortWrites 0 o)
      (ripDvdIso (sampleMachine 0x10).toExternals sampleImage 1 false ⟨32, by decide⟩ 8)
      (fun image _ => image.size = 512) (fun _ _ => False) World.blank := by
  refine wp_bind.2 (wp_bind.2 (wp_shortWrites rfl (wp_bind.2 (wp_shortWrites rfl ?_))))
  rw [if_neg (by decide)]
  refine wp_bind.2 (wp_shortWrites rfl ?_)
  refine wp_bind.2 (wp_tryCatch.2 (wp_bind.2 (wp_shortWrites rfl (wp_bind.2 ?_))))
  rw [ripDvdLoop, dif_pos Nat.one_pos]
  refine wp_bind.2 (wp_bind.2 (wp_shortWrites rfl (wp_bind.2 ?_)))
  rw [readDvd]
  refine ⟨trivial, ?_⟩
  rintro r w' ⟨c, rfl, hread⟩
  cases hread
  refine wp_bind.2 (wp_shortWrites rfl (wp_bind.2 ?_))
  show wp _ (ripDvdLoop _ 1 _ _ _ _ 1 _) _ _ _
  rw [ripDvdLoop, dif_neg (by decide)]
  refine wp_bind.2 (wp_shortWrites rfl (wp_bind.2 (wp_shortWrites rfl ?_)))
  show (([] : Bytes) ++ ((sampleDisc 0x10).blocks 0 1).take 512).length = 512
  rw [List.nil_append, List.length_take, Disc.length_blocks]
  decide

/-- A hash of the disc is reported with a quarter of its bytes. -/
theorem not_imageResult_describes :
    ¬ ∀ (m : Machine) (σ : Oracle) (w : World) (dest : Path) (total maxRetries : ℕ)
      (progress continueDamaged : Bool) (chunk : ChunkSize), AppendsPrefix σ.choices →
      ∀ image, (execute m σ (ripDvdIso m.toExternals dest total progress chunk maxRetries
          continueDamaged) w).result = .ok image →
        Describes m.toExternals (execute m σ (ripDvdIso m.toExternals dest total progress chunk
          maxRetries continueDamaged) w).world dest image.sha256 image.size (total * 2048) := by
  intro h
  obtain ⟨image, himage, hsize⟩ := exists_ok_of_wp (n := 0)
    (allowing_admits (σ := shortWrites) fun _ _ => rfl) wp_ripDvdIso_shortWrites
  have hfull := (h (sampleMachine 0x10) shortWrites World.blank sampleImage 1 8 false false
    ⟨32, by decide⟩ appendsPrefix_shortWrites image himage).2
  rw [hsize] at hfull
  exact absurd hfull (by decide)

/-- The theorem for the disc of one sector, of which a quarter is stored. -/
theorem imageResult_describes_iff_sample :
    let dvd := ripDvdIso (sampleMachine 0x10).toExternals sampleImage 1 false ⟨32, by decide⟩ 8
    ∀ image, (execute (sampleMachine 0x10) shortWrites dvd World.blank).result = .ok image →
      (Describes (sampleMachine 0x10).toExternals
        (execute (sampleMachine 0x10) shortWrites dvd World.blank).world sampleImage image.sha256
        image.size (1 * 2048) ↔ WritesFully (sampleMachine 0x10) shortWrites dvd World.blank) :=
  (@imageResult_describes_iff (sampleMachine 0x10) shortWrites appendsPrefix_shortWrites sampleImage
    sampleDestination (by decide) World.blank sampleImage sampleImage 1 1 8
      [sampleTrack] false false
    ⟨32, by decide⟩ (sampleRequest sampleDvd)).1

end Ps2Ripper
