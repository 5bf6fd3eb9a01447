import Ps2Ripper.Imaging.RipperSpec
import Ps2Ripper.Imaging.Verification

/-!
# What hashing, copying and validating do

* the footprints of the functions of `Ps2Ripper.Imaging.Verification`;
* `sha256File` returns the digest of the file, however short its reads are;
* a copy that stores all bytes is the file that was copied.
-/

namespace Ps2Ripper

open Interactive Prog

variable {m : Machine} {A : Op → Choice → Prop} {w : World} {ext : Externals}

/-! ### Footprints -/

section Footprints

variable {R T : Set Path} {α : Type}

theorem checkpointIf_within {token : Bool} : (checkpointIf token).Uses (Op.Within R T) :=
  .ite (fun _ => checkpoint_within) fun _ => trivial

theorem hashLoop_within {path : Path} {token : Bool} {chunkSize : ℕ} {left digest : Bytes}
    (h : path ∈ R) : (hashLoop path token chunkSize left digest).Uses (Op.Within R T) := by
  induction left, digest using hashLoop.induct path chunkSize with
  | case1 left digest ih =>
    rw [hashLoop]
    refine .bind (uses_of (by simpa using h)) fun size => ?_
    split
    · exact .bind checkpointIf_within fun _ => ih size ‹_›
    · trivial

theorem sha256File_within {path : Path} {token : Bool} {chunkSize : ℕ} :
    (sha256File ext path token chunkSize).Uses (Op.Within {path} ∅) :=
  .bind (uses_of (by simp)) fun _ => .bind (uses_of (by simp)) fun _ =>
    .bind (hashLoop_within rfl) fun _ => trivial

theorem copyLoop_within {source dest : Path} {token progress : Bool} {total chunkSize completed : ℕ}
    {left : Bytes} (hs : source ∈ R) (hd : dest ∈ T) :
    (copyLoop source dest token progress total chunkSize left completed).Uses (Op.Within R T) := by
  induction left, completed using copyLoop.induct source chunkSize with
  | case1 left completed ih =>
    rw [copyLoop]
    refine .bind (uses_of (by simpa using hs)) fun size => ?_
    split
    · exact .bind checkpointIf_within fun _ => .bind (uses_of (by simpa using hd)) fun _ =>
        .bind emitProgress_within fun _ => ih size ‹_›
    · trivial

theorem unlinkIfPresent_within {p : Path} : (unlinkIfPresent p).Uses (Op.Within {p} {p}) :=
  .bind (uses_of (by simp)) fun _ => .ite (fun _ => uses_of (by simp)) fun _ => trivial

theorem copyAndVerify_within {source dest : Path} {expected : String} {token progress : Bool}
    {chunkSize : ℕ} :
    (copyAndVerify ext source dest expected token progress chunkSize).Uses
      (Op.Within {source, dest} {dest}) := by
  refine .bind (uses_of (by simp)) fun _ => .ite (fun _ => trivial) fun _ =>
    .bind (uses_of (by simp)) fun _ => .bind (uses_of (by simp)) fun _ => .tryCatch ?_ fun _ =>
      .bind (unlinkIfPresent_within.mono fun _ h => h.mono (by simp) (by simp)) fun _ => trivial
  exact .bind (uses_of (by simp)) fun _ => .bind (uses_of (by simp)) fun _ =>
    .bind (copyLoop_within (by simp) rfl) fun _ => .bind (uses_of (by simp)) fun _ =>
      .bind (sha256File_within.mono fun _ h => h.mono (by simp) (by simp)) fun _ =>
        .ite (fun _ => trivial) fun _ => trivial

theorem validatePs2Iso_within {path : Path} {expected : Option String} :
    (validatePs2Iso path expected).Uses (Op.Within {path} ∅) := by
  refine .bind (uses_of (by simp)) fun _ => .ite (fun _ => trivial) fun _ => .tryCatch ?_ ?_
  · refine .bind (uses_of (by simp)) fun _ => .ite (fun _ => trivial) fun _ =>
      .bind (uses_of (by simp)) fun _ => .bind (uses_lift _) fun _ => ?_
    split
    · exact .ite (fun _ => trivial) fun _ => trivial
    · trivial
  · intro e
    unfold isoValidationFailed
    split <;> trivial

end Footprints

/-! ### Hashing -/

theorem ensures_checkpointIf {token : Bool} :
    ensures (allowing m A) (checkpointIf token) (fun _ w' => w' = w) w := by
  unfold checkpointIf
  split
  · exact ensures_checkpoint
  · exact ensures_return rfl

theorem ensures_read {p : Path} {left n : ℕ} :
    ensures (allowing m A) (call (.read p left n)) (fun _ w' => w' = w) w := by
  refine ensures_call fun c _ a w' h => ?_
  cases h
  rfl

/-- The loop ends only when nothing is left to read. -/
theorem hashLoop_yields {path : Path} {token : Bool} {chunkSize : ℕ} {left digest : Bytes}
    (hc : 0 < chunkSize) :
    (hashLoop path token chunkSize left digest).Yields (· = digest ++ left) := by
  induction left, digest using hashLoop.induct path chunkSize with
  | case1 left digest ih =>
    rw [hashLoop]
    refine .bind (yields_true _) fun size _ => ?_
    split
    · refine .bind (yields_true _) fun _ _ => ?_
      have h := ih size ‹_›
      rwa [List.append_assoc, List.take_append_drop] at h
    · have hsize := size.2.2
      have : left = [] := List.length_eq_zero_iff.1 (by omega)
      exact show digest = digest ++ left by rw [this, List.append_nil]

theorem ensures_hashLoop {path : Path} {token : Bool} {chunkSize : ℕ} {left digest : Bytes}
    (hc : 0 < chunkSize) :
    ensures (allowing m A) (hashLoop path token chunkSize left digest)
      (fun digest' w' => digest' = digest ++ left ∧ w' = w) w := by
  refine wp_of_yields (hashLoop_yields hc) ?_
  induction left, digest using hashLoop.induct path chunkSize generalizing w with
  | case1 left digest ih =>
    rw [hashLoop]
    refine ensures_bind ensures_read fun size w₁ h₁ => ?_
    subst h₁
    split
    · refine ensures_bind ensures_checkpointIf fun _ w₂ h₂ => ?_
      subst h₂
      exact ih size ‹_›
    · exact ensures_return rfl

theorem ensures_sha256File {path : Path} {token : Bool} :
    ensures (allowing m A) (sha256File ext path token)
      (fun hash w' => (∃ data, w.files path = some data ∧ hash = ext.hexdigest data) ∧ w' = w)
      w := by
  refine ensures_bind ensures_stat ?_
  rintro n w₁ ⟨-, rfl⟩
  refine ensures_bind ensures_openRead ?_
  rintro data w₂ ⟨hdata, rfl⟩
  refine ensures_bind (ensures_hashLoop (by decide)) ?_
  rintro digest w₃ ⟨hdigest, rfl⟩
  exact ensures_return ⟨⟨data, hdata, by rw [hdigest, List.nil_append]⟩, rfl⟩

/-! ### Copying -/

theorem ensures_copyLoop {source dest : Path} {token progress : Bool}
    {total chunkSize completed : ℕ}
    {left : Bytes} (hc : 0 < chunkSize) :
    ensures (allowing m A) (copyLoop source dest token progress total chunkSize left completed)
      (fun _ w' => Ripped A dest left [] w w') w := by
  induction left, completed using copyLoop.induct source chunkSize generalizing w with
  | case1 left completed ih =>
    rw [copyLoop]
    refine ensures_bind ensures_read fun size w₁ h₁ => ?_
    subst h₁
    split
    · refine ensures_bind ensures_checkpointIf fun _ w₂ h₂ => ?_
      subst h₂
      refine ensures_bind ensures_write fun _ w₃ h₃ => ensures_bind ensures_emitProgress ?_
      rintro _ w₄ ⟨hr₄, ht₄, hf₄⟩
      have h₄ : Ripped A dest [] [] w₃ w₄ := .of_eq hr₄ ht₄ hf₄
      refine ensures_mono (ih size ‹_›) fun _ w₅ h₅ => ?_
      simpa [List.take_append_drop] using (h₃.trans h₄).trans h₅
    · have hsize := size.2.2
      have : left = [] := List.length_eq_zero_iff.1 (by omega)
      subst this
      exact ensures_return (.of_eq rfl rfl rfl)

theorem ensures_removeCopy {α : Type} {dest : Path} {e : PyError} {Q : α → World → Prop} :
    ensures (allowing m A) (removeCopy dest e) Q w :=
  ensures_bind (ensures_true allowing_permissive _) fun _ _ _ => trivial

theorem ensures_mkdir {d : Dir} :
    ensures (allowing m A) (call (.mkdir d)) (fun _ w' => w' = w) w := by
  refine ensures_call fun c _ a w' h => ?_
  cases h
  rfl

/-- A copy that stores all bytes is the file that was copied. -/
theorem ensures_copyAndVerify {source dest : Path} {expected : String} {token progress : Bool} :
    ensures (allowing m A) (copyAndVerify ext source dest expected token progress)
      (fun hash w' => w.files dest = none ∧ ∃ data, w.files source = some data ∧
        (Stores A dest → w'.files dest = some data ∧ hash = ext.hexdigest data)) w := by
  refine ensures_bind ensures_pathExists ?_
  rintro b w₁ ⟨hb, rfl⟩
  refine Or.elim (em (b = true)) (fun h => by rw [if_pos h]; trivial) fun h => ?_
  rw [if_neg h]
  have hnone : w₁.files dest = none := Option.not_isSome_iff_eq_none.1 (hb ▸ h)
  refine ensures_bind ensures_mkdir fun _ w₂ h₂ => ?_
  subst h₂
  refine ensures_bind ensures_stat ?_
  rintro total w₃ ⟨-, rfl⟩
  refine ensures_tryCatch ?_ fun _ _ => ensures_removeCopy
  refine ensures_bind ensures_openRead ?_
  rintro data w₄ ⟨hdata, rfl⟩
  refine ensures_bind ensures_openExclusive ?_
  rintro _ w₅ ⟨-, rfl⟩
  refine ensures_bind (ensures_copyLoop (by decide)) fun _ w₆ h₆ => ?_
  refine ensures_bind ensures_fsync fun _ w₇ h₇ => ?_
  subst h₇
  refine ensures_bind ensures_sha256File ?_
  rintro hash w₈ ⟨⟨stored, hstored, rfl⟩, rfl⟩
  split
  · trivial
  · refine ensures_return ⟨hnone, data, hdata, fun hst => ?_⟩
    have hs := h₆.stored hst [] (by simp [World.setFile])
    rw [hstored] at hs
    cases hs
    exact ⟨hstored, rfl⟩

end Ps2Ripper
