import Ps2Ripper.Core.Models
import Ps2Ripper.Interactive.Contract

/-!
# Exclusive access to the volumes of a disk

`LockedVolumes` of `windows/volume_lock.py`, over the few Win32 calls it makes.  Handles are
numbered in the order in which they are opened, so a number is never handed out twice.

* `VolumeOp`, `VolumeWorld`: the calls, and what they leave behind;
* `LockedVolumes.enter`, `LockedVolumes.exit`: the context manager;
* `Owns`: which handles are open;
* `lockedVolumes_all_or_nothing`: whatever fails, all volumes stay locked or no handle is left.
-/

namespace Ps2Ripper

open Interactive Prog

/-- The control codes sent to a volume. -/
inductive FsControl
  | lockVolume
  | dismountVolume
  | unlockVolume
  deriving DecidableEq

/-- What was asked of the system, and whether it was done. -/
inductive VolumeEvent
  | opened (path : String) (handle : ℕ)
  | openFailed (path : String)
  | control (handle : ℕ) (code : FsControl) (ok : Bool)
  | closed (handle : ℕ)
  deriving DecidableEq

/-- The Win32 calls, and the attributes `WinHandle.value` and `LockedVolumes.handles`. -/
inductive VolumeOp
  | createFile (path : String) (access share : ℕ)
  | deviceIoControl (handle : ℕ) (code : FsControl) (operation : String)
  | closeHandle (handle : ℕ)
  | getValue (handle : ℕ)
  | getHandles
  | appendHandle (handle : ℕ)
  | clearHandles

abbrev VolumeOp.Answer : VolumeOp → Type
  | .createFile .. => ℕ
  | .getValue _ => Bool
  | .getHandles => List ℕ
  | _ => Unit

abbrev volumeInterface : Signature := ⟨VolumeOp, VolumeOp.Answer⟩

abbrev VolumeProgram (α : Type) := Prog volumeInterface PyError α

/-- The events so far, the next handle, the handles whose `value` is set, and `self.handles`. -/
structure VolumeWorld where
  events : List VolumeEvent
  next : ℕ
  value : ℕ → Bool
  handles : List ℕ

def VolumeWorld.note (w : VolumeWorld) (e : VolumeEvent) : VolumeWorld :=
  { w with events := w.events ++ [e] }

/-- A handle was opened, or closed. -/
def VolumeWorld.createFile (w : VolumeWorld) (path : String) : VolumeWorld where
  events := w.events ++ [.opened path w.next]
  next := w.next + 1
  value := Function.update w.value w.next true
  handles := w.handles

def VolumeWorld.closeHandle (w : VolumeWorld) (handle : ℕ) : VolumeWorld where
  events := w.events ++ [.closed handle]
  next := w.next
  value := Function.update w.value handle false
  handles := w.handles

/-- Carry out one call; a failure has an error code and a message. `CloseHandle` is not checked. -/
def VolumeWorld.perform (w : VolumeWorld) (failure : Option (ℕ × String)) :
    (o : VolumeOp) → Except PyError o.Answer × VolumeWorld
  | .createFile path _ _ =>
    match failure with
    | none => (.ok w.next, w.createFile path)
    | some (code, message) =>
      (.error (nativeCallError s!"Open {path}" code message), w.note (.openFailed path))
  | .deviceIoControl handle code operation =>
    match failure with
    | none => (.ok (), w.note (.control handle code true))
    | some (error, message) =>
      (.error (nativeCallError operation error message), w.note (.control handle code false))
  | .closeHandle handle => (.ok (), w.closeHandle handle)
  | .getValue handle => (.ok (w.value handle), w)
  | .getHandles => (.ok w.handles, w)
  | .appendHandle handle => (.ok (), { w with handles := w.handles ++ [handle] })
  | .clearHandles => (.ok (), { w with handles := [] })

/-- Which calls fail, and how: the `n`-th decision is about the `n`-th call. -/
abbrev VolumeFailures := ℕ → Option (ℕ × String)

def runVolumes (σ : VolumeFailures) {α : Type} (p : VolumeProgram α) (w : VolumeWorld) :
    Outcome PyError α VolumeWorld :=
  run (fun n w o => w.perform (σ n) o) p 0 w

/-! ### The context manager -/

def native (o : VolumeOp) : VolumeProgram o.Answer := Prog.perform (S := volumeInterface) o

/-- `GENERIC_READ | GENERIC_WRITE` and `FILE_SHARE_READ | FILE_SHARE_WRITE`. -/
def genericReadWrite : ℕ := 0x80000000 ||| 0x40000000

def shareReadWrite : ℕ := 0x1 ||| 0x2

def WinHandle.open (path : String) (access share : ℕ) : VolumeProgram ℕ :=
  native (.createFile path access share)

def WinHandle.close (handle : ℕ) : VolumeProgram Unit := do
  let value : Bool ← native (.getValue handle)
  if value then native (.closeHandle handle) else return ()

namespace LockedVolumes

def volumePath (volume : VolumeInfo) : String :=
  if volume.guidPath.endsWith "\\" then String.ofList volume.guidPath.toList.dropLast
  else volume.guidPath

/-- The body of the first loop of `__enter__`. -/
def lockVolume (volume : VolumeInfo) : VolumeProgram Unit := do
  let handle ← WinHandle.open (volumePath volume) genericReadWrite shareReadWrite
  (native (.deviceIoControl handle .lockVolume s!"Lock {volume.guidPath}")).tryCatch fun e => do
    WinHandle.close handle
    .raise e
  native (.appendHandle handle)

def lockAll : List VolumeInfo → VolumeProgram Unit
  | [] => return ()
  | volume :: volumes => do
    lockVolume volume
    lockAll volumes

/-- The second loop, over `zip(self.volumes, self.handles, strict=True)`. -/
def dismountAll : List VolumeInfo → List ℕ → VolumeProgram Unit
  | [], [] => return ()
  | volume :: volumes, handle :: handles => do
    native (.deviceIoControl handle .dismountVolume s!"Dismount {volume.guidPath}")
    dismountAll volumes handles
  | _ :: _, [] => .raise (.valueError "zip() argument 2 is shorter than argument 1")
  | [], _ :: _ => .raise (.valueError "zip() argument 2 is longer than argument 1")

/-- The loop of `_release`; `suppress(OSError)` stands around the unlocking alone. -/
def releaseAll : List ℕ → VolumeProgram Unit
  | [] => return ()
  | handle :: handles => do
    (native (.deviceIoControl handle .unlockVolume "Unlock volume")).tryCatch fun e =>
      if e.isOSError then return () else .raise e
    WinHandle.close handle
    releaseAll handles

def release : VolumeProgram Unit := do
  let handles ← native .getHandles
  releaseAll handles.reverse
  native .clearHandles

/-- The exception of `__enter__`. -/
def unavailable : PyError :=
  .unsafeDeviceError ("Unable to obtain exclusive access to every volume on the selected disk. " ++
    "Close applications using the drive and try again.")

def enter (volumes : List VolumeInfo) : VolumeProgram Unit :=
  (do
    lockAll volumes
    let handles ← native .getHandles
    dismountAll volumes handles).tryCatch fun _ => do
      release
      .raise unavailable

def exit : VolumeProgram Unit := release

end LockedVolumes

/-- `LockedVolumes(volumes)`: no handles yet. -/
def VolumeWorld.init (w : VolumeWorld) : VolumeWorld := { w with handles := [] }

/-! ### Exclusive access and its end -/

/-- The volume was opened under this handle, and locked. -/
def LockedIn (log : List VolumeEvent) (volume : VolumeInfo) (handle : ℕ) : Prop :=
  .opened (LockedVolumes.volumePath volume) handle ∈ log ∧ .control handle .lockVolume true ∈ log

/-- The events that end a lock. -/
def VolumeEvent.isRelease : VolumeEvent → Bool
  | .closed _ | .control _ .unlockVolume _ => true
  | _ => false

/-- A volume is only dismounted, or tried to be, while all of them are locked. -/
def DismountsLast (volumes : List VolumeInfo) (log : List VolumeEvent) : Prop :=
  ∀ before after handle ok, log = before ++ .control handle .dismountVolume ok :: after →
    (∃ handles, List.Forall₂ (LockedIn before) volumes handles) ∧
      ∀ e ∈ before, e.isRelease = false

/-- All volumes were locked and dismounted, none was unlocked again, and exactly their handles are
held, in order. -/
structure Exclusive (volumes : List VolumeInfo) (log : List VolumeEvent) (w : VolumeWorld) :
    Prop where
  locked : List.Forall₂ (LockedIn log) volumes w.handles
  unlocked : ∀ h ok, .control h .unlockVolume ok ∉ log
  dismounted : ∀ h ∈ w.handles, .control h .dismountVolume true ∈ log
  live : ∀ h ∈ w.handles, w.value h = true ∧ .closed h ∉ log
  all : ∀ path h, .opened path h ∈ log → h ∈ w.handles
  paths : ∀ path h, .opened path h ∈ log →
    ∃ volume ∈ volumes, LockedVolumes.volumePath volume = path
  controlled : ∀ h code ok, .control h code ok ∈ log → h ∈ w.handles
  nodup : w.handles.Nodup
  old : ∀ h ∈ w.handles, h < w.next

/-- Every handle opened in `log` has been closed exactly once in `whole`, and none is kept. -/
structure AllClosed (log whole : List VolumeEvent) (w : VolumeWorld) : Prop where
  closed : ∀ path h, .opened path h ∈ log → whole.count (.closed h) = 1
  none_kept : w.handles = []

/-- Other code ran between two worlds, and left the handles alone. -/
structure HandsOff (w w' : VolumeWorld) (log : List VolumeEvent) : Prop where
  events : w'.events = w.events ++ log
  handles : w'.handles = w.handles
  value : ∀ h ∈ w.handles, w'.value h = w.value h
  closed : ∀ h ∈ w.handles, .closed h ∉ log

/-! ### Which handles are open -/

/-- The contract under which any call may fail. -/
def volumeContract : Contract volumeInterface PyError VolumeWorld where
  may _ _ := True
  answers w o r w' := ∃ failure, w.perform failure o = (r, w')

def VolumeEvent.opens (h : ℕ) : VolumeEvent → Bool
  | .opened _ handle => handle = h
  | _ => false

@[simp] theorem VolumeEvent.opens_opened (path : String) (h h' : ℕ) :
    (VolumeEvent.opened path h').opens h = decide (h' = h) := rfl

@[simp] theorem VolumeEvent.opens_closed (h h' : ℕ) : (VolumeEvent.closed h').opens h = false := rfl

def VolumeEvent.isDismount : VolumeEvent → Bool
  | .control _ .dismountVolume _ => true
  | _ => false

/-- Since `w₀` the handles from its `next` on were opened, once each, and closed once each, except
for those that are held. -/
structure Owns (w₀ : VolumeWorld) (held : List ℕ) (w : VolumeWorld) (log : List VolumeEvent) :
    Prop where
  events : w.events = w₀.events ++ log
  next_le : w₀.next ≤ w.next
  live : ∀ h ∈ held, w.value h = true
  opened : ∀ h, log.countP (·.opens h) = if w₀.next ≤ h ∧ h < w.next then 1 else 0
  balance : ∀ h, log.count (.closed h) + held.count h = log.countP (·.opens h)

namespace Owns

variable {w₀ w : VolumeWorld} {held : List ℕ} {log : List VolumeEvent}

theorem init (w : VolumeWorld) : Owns w [] w [] where
  events := (List.append_nil _).symm
  next_le := le_rfl
  live := by simp
  opened h := by
    rw [if_neg (by omega)]
    rfl
  balance h := rfl

theorem count_le_one (hw : Owns w₀ held w log) (h : ℕ) : log.countP (·.opens h) ≤ 1 := by
  rw [hw.opened h]
  split <;> omega

theorem nodup (hw : Owns w₀ held w log) : held.Nodup := by
  refine List.nodup_iff_count_le_one.2 fun h => ?_
  have := hw.balance h
  have := hw.count_le_one h
  omega

theorem countP_of_mem (hw : Owns w₀ held w log) {path : String} {h : ℕ}
    (hm : .opened path h ∈ log) : log.countP (·.opens h) = 1 := by
  have hpos : 0 < log.countP (·.opens h) :=
    List.countP_pos_iff.2 ⟨_, hm, by simp [VolumeEvent.opens]⟩
  have := hw.count_le_one h
  omega

theorem lt_next (hw : Owns w₀ held w log) {h : ℕ} (hm : h ∈ held) : h < w.next := by
  have hb := hw.balance h
  have hpos := List.count_pos_iff.2 hm
  have ho := hw.opened h
  by_contra hnot
  rw [if_neg (by omega)] at ho
  omega

theorem perm (hw : Owns w₀ held w log) {held' : List ℕ} (hp : held.Perm held') :
    Owns w₀ held' w log where
  events := hw.events
  next_le := hw.next_le
  live h hm := hw.live h (hp.mem_iff.2 hm)
  opened := hw.opened
  balance h := hp.count_eq h ▸ hw.balance h

theorem congr (hw : Owns w₀ held w log) {w' : VolumeWorld} (he : w'.events = w.events)
    (hn : w'.next = w.next) (hv : w'.value = w.value) : Owns w₀ held w' log where
  events := he.trans hw.events
  next_le := hn ▸ hw.next_le
  live := hv ▸ hw.live
  opened := hn ▸ hw.opened
  balance := hw.balance

/-- A new handle is held. -/
theorem createFile (hw : Owns w₀ held w log) (path : String) :
    Owns w₀ (w.next :: held) (w.createFile path) (log ++ [.opened path w.next]) where
  events := by simp [VolumeWorld.createFile, hw.events]
  next_le := hw.next_le.trans (Nat.le_succ _)
  live h hm := by
    by_cases heq : h = w.next
    · rw [heq]
      exact Function.update_self ..
    · refine (Function.update_of_ne heq ..).trans ?_
      exact hw.live h ((List.mem_cons.1 hm).resolve_left heq)
  opened h := by
    have := hw.next_le
    rw [List.countP_append, hw.opened h]
    show _ = if w₀.next ≤ h ∧ h < w.next + 1 then 1 else 0
    simp only [List.countP_cons, List.countP_nil, VolumeEvent.opens_opened, decide_eq_true_eq]
    split_ifs <;> omega
  balance h := by
    have := hw.balance h
    simp only [List.count_append, List.countP_append, List.count_cons, List.countP_cons,
      List.countP_nil, List.count_nil, VolumeEvent.opens_opened, decide_eq_true_eq, beq_iff_eq,
      reduceCtorEq, if_false]
    split_ifs <;> omega

/-- Something else than opening or closing happened. -/
theorem note (hw : Owns w₀ held w log) {e : VolumeEvent} (ho : ∀ h, e.opens h = false)
    (hc : ∀ h, e ≠ .closed h) : Owns w₀ held (w.note e) (log ++ [e]) where
  events := by simp [VolumeWorld.note, hw.events]
  next_le := hw.next_le
  live := hw.live
  opened h := by
    have hnone : [e].countP (·.opens h) = 0 := by simp [ho h]
    rw [List.countP_append, hnone]
    exact hw.opened h
  balance h := by
    rw [List.countP_append, List.count_append, ← hw.balance h]
    simp [ho h, hc h]

/-- A handle that is held is closed. -/
theorem closeHandle {h : ℕ} (hw : Owns w₀ (h :: held) w log) :
    Owns w₀ held (w.closeHandle h) (log ++ [.closed h]) where
  events := by simp [VolumeWorld.closeHandle, hw.events]
  next_le := hw.next_le
  live h' hm := by
    have hne : h' ≠ h := by
      rintro rfl
      exact (List.nodup_cons.1 hw.nodup).1 hm
    refine (Function.update_of_ne hne ..).trans ?_
    exact hw.live h' (List.mem_cons_of_mem _ hm)
  opened h' := by
    have hnone : [VolumeEvent.closed h].countP (·.opens h') = 0 := by simp
    rw [List.countP_append, hnone]
    exact hw.opened h'
  balance h' := by
    have hb := hw.balance h'
    rw [List.count_cons] at hb
    rw [List.countP_append, List.count_append, ← hb]
    simp only [List.count_cons, List.count_nil, List.countP_cons, List.countP_nil,
      VolumeEvent.opens_closed, beq_iff_eq, VolumeEvent.closed.injEq, Bool.false_eq_true, if_false]
    omega

end Owns

/-! ### The parts of the context manager -/

variable {w₀ w : VolumeWorld} {held : List ℕ} {log : List VolumeEvent}

/-- The handles that `self.handles` holds are those that are open. -/
structure Holds (w₀ : VolumeWorld) (held : List ℕ) (w : VolumeWorld) (log : List VolumeEvent) :
    Prop where
  owns : Owns w₀ held w log
  handles : w.handles = held

theorem wp_native {o : VolumeOp} {Q : o.Answer → VolumeWorld → Prop}
    {E : PyError → VolumeWorld → Prop}
    (h : ∀ failure, (∀ a w', w.perform failure o = (.ok a, w') → Q a w') ∧
      ∀ e w', w.perform failure o = (.error e, w') → E e w') :
    wp volumeContract (native o) Q E w :=
  wp_perform.2 ⟨trivial, fun a w' ⟨failure, hp⟩ => (h failure).1 a w' hp,
    fun e w' ⟨failure, hp⟩ => (h failure).2 e w' hp⟩

theorem wp_open (hw : Owns w₀ held w log) (path : String) (access share : ℕ) :
    wp volumeContract (WinHandle.open path access share)
      (fun h w' => Owns w₀ (h :: held) w' (log ++ [.opened path h]) ∧ w'.handles = w.handles)
      (fun _ w' => Owns w₀ held w' (log ++ [.openFailed path]) ∧ w'.handles = w.handles) w := by
  refine wp_native fun failure => ?_
  cases failure with
  | none =>
    refine ⟨fun h w' hp => ?_, nofun⟩
    cases hp
    exact ⟨hw.createFile path, rfl⟩
  | some failure =>
    refine ⟨nofun, fun e w' hp => ?_⟩
    cases hp
    exact ⟨hw.note (fun _ => rfl) nofun, rfl⟩

theorem wp_control (hw : Owns w₀ held w log) (h : ℕ) (code : FsControl) (operation : String) :
    wp volumeContract (native (.deviceIoControl h code operation))
      (fun _ w' => Owns w₀ held w' (log ++ [.control h code true]) ∧ w'.handles = w.handles)
      (fun e w' => e.isOSError = true ∧ Owns w₀ held w' (log ++ [.control h code false]) ∧
        w'.handles = w.handles) w := by
  refine wp_native fun failure => ?_
  cases failure with
  | none =>
    refine ⟨fun _ w' hp => ?_, nofun⟩
    cases hp
    exact ⟨hw.note (fun _ => rfl) nofun, rfl⟩
  | some failure =>
    refine ⟨nofun, fun e w' hp => ?_⟩
    cases hp
    exact ⟨rfl, hw.note (fun _ => rfl) nofun, rfl⟩

/-- A handle whose `value` is set is closed, whatever else is open. -/
theorem wp_close {h : ℕ} (hlive : w.value h = true) :
    wp volumeContract (WinHandle.close h)
      (fun _ w' => w' = w.closeHandle h) (fun _ _ => False) w := by
  refine wp_bind.2 (wp_native fun _ => ⟨fun value w' hp => ?_, nofun⟩)
  cases hp
  rw [if_pos hlive]
  refine wp_native fun _ => ⟨fun _ w' hp => ?_, nofun⟩
  cases hp
  rfl

theorem wp_lockVolume (hw : Holds w₀ held w log) (volume : VolumeInfo) :
    wp volumeContract (LockedVolumes.lockVolume volume)
      (fun _ w' => ∃ h, Holds w₀ (held ++ [h]) w' (log ++
        [.opened (LockedVolumes.volumePath volume) h, .control h .lockVolume true]))
      (fun _ w' => ∃ log', Holds w₀ held w' (log ++ log') ∧ ∀ e ∈ log', e.isDismount = false)
      w := by
  refine wp_seq (wp_open hw.owns _ _ _) ?_ ?_
  · rintro h w₁ ⟨hown, hsame⟩
    refine wp_seq (wp_tryCatch.2 (wp_mono (wp_control hown h _ _) (fun _ _ => id) ?_)) ?_
      fun _ _ => id
    · -- locking failed: the handle is closed and the exception goes on
      rintro e w₂ ⟨-, hown', hsame'⟩
      refine wp_seq (wp_close (hown'.live h List.mem_cons_self)) ?_ fun _ _ => False.elim
      rintro _ w₃ rfl
      refine ⟨[.opened (LockedVolumes.volumePath volume) h, .control h .lockVolume false,
        .closed h],
        ⟨?_, ?_⟩, by simp [VolumeEvent.isDismount]⟩
      · have hclosed := hown'.closeHandle
        rwa [List.append_assoc, List.append_assoc] at hclosed
      · exact hsame'.trans (hsame.trans hw.handles)
    · rintro _ w₂ ⟨hown', hsame'⟩
      refine wp_native fun _ => ⟨fun _ w₃ hp => ?_, nofun⟩
      cases hp
      refine ⟨h, ?_, ?_⟩
      · rw [List.append_assoc] at hown'
        exact (hown'.perm (List.perm_append_singleton h held).symm).congr rfl rfl rfl
      · simp only [hsame', hsame, hw.handles]
  · rintro e w₁ ⟨hown, hsame⟩
    exact ⟨_, ⟨hown, hsame.trans hw.handles⟩, by simp [VolumeEvent.isDismount]⟩

theorem LockedIn.mono {volume : VolumeInfo} {h : ℕ} {log' : List VolumeEvent}
    (hl : LockedIn log volume h) (hsub : log ⊆ log') : LockedIn log' volume h :=
  ⟨hsub hl.1, hsub hl.2⟩

/-- The events of locking all volumes, under the handles `hs`. -/
structure Locks (volumes : List VolumeInfo) (hs : List ℕ) (log : List VolumeEvent) : Prop where
  locked : List.Forall₂ (LockedIn log) volumes hs
  dismount : ∀ e ∈ log, e.isDismount = false
  kept : ∀ e ∈ log, e.isRelease = false
  paths : ∀ path h, .opened path h ∈ log →
    ∃ volume ∈ volumes, LockedVolumes.volumePath volume = path
  controlled : ∀ h code ok, .control h code ok ∈ log → h ∈ hs

theorem Locks.nil : Locks [] [] [] where
  locked := .nil
  dismount := by simp
  kept := by simp
  paths := by simp
  controlled := by simp

theorem Locks.cons {volume : VolumeInfo} {volumes : List VolumeInfo} {h : ℕ} {hs : List ℕ}
    (hl : Locks volumes hs log) :
    Locks (volume :: volumes) (h :: hs)
      ([.opened (LockedVolumes.volumePath volume) h, .control h .lockVolume true] ++ log) where
  locked := by
    refine .cons ⟨by simp, by simp⟩ (hl.locked.imp fun _ _ hin => hin.mono ?_)
    exact List.subset_append_right ..
  dismount := by simpa [VolumeEvent.isDismount] using hl.dismount
  kept := by simpa [VolumeEvent.isRelease] using hl.kept
  paths path h' hm := by
    obtain hm | hm := List.mem_append.1 hm
    · obtain ⟨rfl, -⟩ : path = LockedVolumes.volumePath volume ∧ h' = h := by simpa using hm
      exact ⟨volume, List.mem_cons_self, rfl⟩
    · obtain ⟨volume', hm', rfl⟩ := hl.paths path h' hm
      exact ⟨volume', List.mem_cons_of_mem _ hm', rfl⟩
  controlled h' code ok hm := by
    obtain hm | hm := List.mem_append.1 hm
    · obtain ⟨rfl, -⟩ : h' = h ∧ code = .lockVolume ∧ ok = true := by simpa using hm
      exact List.mem_cons_self
    · exact List.mem_cons_of_mem _ (hl.controlled h' code ok hm)

theorem wp_lockAll (hw : Holds w₀ held w log) (volumes : List VolumeInfo) :
    wp volumeContract (LockedVolumes.lockAll volumes)
      (fun _ w' => ∃ hs log', Holds w₀ (held ++ hs) w' (log ++ log') ∧ Locks volumes hs log')
      (fun _ w' => ∃ held' log', Holds w₀ held' w' (log ++ log') ∧ ∀ e ∈ log', e.isDismount = false)
      w := by
  induction volumes generalizing held w log with
  | nil => exact ⟨[], [], by simpa using hw, .nil⟩
  | cons volume volumes ih =>
    refine wp_seq (wp_lockVolume hw volume) ?_ fun e w' ⟨log', h, hno⟩ => ⟨held, log', h, hno⟩
    rintro _ w₁ ⟨h, hw₁⟩
    refine wp_mono (ih hw₁) ?_ ?_
    · rintro _ w₂ ⟨hs, log', hw₂, hlocks⟩
      rw [List.append_assoc, List.append_assoc] at hw₂
      exact ⟨h :: hs, _, hw₂, hlocks.cons⟩
    · rintro _ w₂ ⟨held', log', hw₂, hno⟩
      rw [List.append_assoc] at hw₂
      exact ⟨held', _, hw₂, by simpa [VolumeEvent.isDismount] using hno⟩

/-- The events of dismounting the volumes under the handles `hs`, or of a part of it. -/
structure Dismounts (hs : List ℕ) (log : List VolumeEvent) : Prop where
  kept : ∀ e ∈ log, e.isRelease = false
  opened : ∀ path h, .opened path h ∉ log
  controlled : ∀ h code ok, .control h code ok ∈ log → h ∈ hs

theorem Dismounts.nil (hs : List ℕ) : Dismounts hs [] where
  kept := by simp
  opened := by simp
  controlled := by simp

theorem Dismounts.cons {h : ℕ} {hs : List ℕ} (hd : Dismounts hs log) (ok : Bool) :
    Dismounts (h :: hs) ([.control h .dismountVolume ok] ++ log) where
  kept := by simpa [VolumeEvent.isRelease] using hd.kept
  opened := by simpa using hd.opened
  controlled h' code ok' hm := by
    obtain hm | hm := List.mem_append.1 hm
    · obtain ⟨rfl, -⟩ : h' = h ∧ code = .dismountVolume ∧ ok' = ok := by simpa using hm
      exact List.mem_cons_self
    · exact List.mem_cons_of_mem _ (hd.controlled h' code ok' hm)

theorem wp_dismountAll (hw : Holds w₀ held w log) {volumes : List VolumeInfo} {hs : List ℕ}
    (hlen : volumes.length = hs.length) :
    wp volumeContract (LockedVolumes.dismountAll volumes hs)
      (fun _ w' => ∃ log', Holds w₀ held w' (log ++ log') ∧
        (∀ h ∈ hs, .control h .dismountVolume true ∈ log') ∧ Dismounts hs log')
      (fun _ w' => ∃ log', Holds w₀ held w' (log ++ log') ∧ Dismounts hs log') w := by
  induction volumes generalizing hs w log with
  | nil =>
    obtain rfl := List.length_eq_zero_iff.1 hlen.symm
    exact ⟨[], by simpa using hw, by simp, .nil []⟩
  | cons volume volumes ih =>
    obtain ⟨h, hs, rfl⟩ := List.exists_cons_of_length_eq_add_one hlen.symm
    refine wp_seq (wp_control hw.owns h _ _) ?_ ?_
    · rintro _ w₁ ⟨hown, hsame⟩
      refine wp_mono (ih ⟨hown, hsame.trans hw.handles⟩ (Nat.succ.inj hlen)) ?_ ?_
      · rintro _ w₂ ⟨log', hw₂, hall, hd⟩
        rw [List.append_assoc] at hw₂
        refine ⟨_, hw₂, fun h' hm => ?_, hd.cons true⟩
        obtain rfl | hm := List.mem_cons.1 hm
        · exact List.mem_append_left _ List.mem_cons_self
        · exact List.mem_append_right _ (hall h' hm)
      · rintro _ w₂ ⟨log', hw₂, hd⟩
        rw [List.append_assoc] at hw₂
        exact ⟨_, hw₂, hd.cons true⟩
    · rintro _ w₁ ⟨-, hown, hsame⟩
      exact ⟨_, ⟨hown, hsame.trans hw.handles⟩, (Dismounts.nil hs).cons false⟩

/-- What the release of some handles adds to the events: each of them is closed once. -/
structure Releases (hs : List ℕ) (w w' : VolumeWorld) (log : List VolumeEvent) : Prop where
  events : w'.events = w.events ++ log
  handles : w'.handles = w.handles
  closed : ∀ h, log.count (.closed h) = hs.count h
  opened : ∀ path h, .opened path h ∉ log
  dismount : ∀ e ∈ log, e.isDismount = false

theorem wp_releaseAll {hs : List ℕ} (hnodup : hs.Nodup) (hlive : ∀ h ∈ hs, w.value h = true) :
    wp volumeContract (LockedVolumes.releaseAll hs) (fun _ w' => ∃ log, Releases hs w w' log)
      (fun _ _ => False) w := by
  induction hs generalizing w with
  | nil => exact ⟨[], by simp, rfl, by simp, by simp, by simp⟩
  | cons h hs ih =>
    obtain ⟨hnot, hnodup⟩ := List.nodup_cons.1 hnodup
    -- unlocking leaves an event, whether it succeeds or not
    have hunlock : wp volumeContract
        ((native (.deviceIoControl h .unlockVolume "Unlock volume")).tryCatch fun e =>
          if e.isOSError then return () else .raise e)
        (fun _ w₁ => ∃ ok, w₁ = w.note (.control h .unlockVolume ok)) (fun _ _ => False) w := by
      refine wp_tryCatch.2 (wp_native fun failure => ?_)
      cases failure with
      | none =>
        refine ⟨fun _ w₁ hp => ?_, nofun⟩
        cases hp
        exact ⟨true, rfl⟩
      | some failure =>
        refine ⟨nofun, fun e w₁ hp => ?_⟩
        cases hp
        exact ⟨false, rfl⟩
    refine wp_seq hunlock ?_ fun _ _ => id
    rintro _ w₁ ⟨ok, rfl⟩
    refine wp_seq (wp_close (hlive h List.mem_cons_self)) ?_ fun _ _ => id
    rintro _ w₂ rfl
    refine wp_mono (ih hnodup fun h' hm => ?_) ?_ fun _ _ => id
    · have hne : h' ≠ h := by
        rintro rfl
        exact hnot hm
      refine (Function.update_of_ne hne ..).trans ?_
      exact hlive h' (List.mem_cons_of_mem _ hm)
    · rintro _ w₃ ⟨log, hr⟩
      refine ⟨.control h .unlockVolume ok :: .closed h :: log, ?_, hr.handles, fun h' => ?_, ?_, ?_⟩
      · simp [hr.events, VolumeWorld.note, VolumeWorld.closeHandle]
      · simp only [List.count_cons, hr.closed h', beq_iff_eq, VolumeEvent.closed.injEq,
          reduceCtorEq,
          if_false, Nat.add_zero]
      · simpa using hr.opened
      · simpa [VolumeEvent.isDismount] using hr.dismount

theorem wp_release (hnodup : w.handles.Nodup) (hlive : ∀ h ∈ w.handles, w.value h = true) :
    wp volumeContract LockedVolumes.release
      (fun _ w' => ∃ w₁ log, Releases w.handles w w₁ log ∧ w' = { w₁ with handles := [] })
      (fun _ _ => False) w := by
  refine wp_bind.2 (wp_native fun _ => ⟨fun handles w' hp => ?_, nofun⟩)
  cases hp
  refine wp_seq (wp_releaseAll (List.nodup_reverse.2 hnodup) fun h hm =>
    hlive h (List.mem_reverse.1 hm)) ?_ fun _ _ => id
  rintro _ w₁ ⟨log, hr⟩
  refine wp_native fun _ => ⟨fun _ w' hp => ?_, nofun⟩
  cases hp
  exact ⟨w₁, log, { hr with closed := fun h => (hr.closed h).trans List.count_reverse }, rfl⟩

/-! ### All or nothing -/

theorem dismountsLast_of_none {volumes : List VolumeInfo} (h : ∀ e ∈ log, e.isDismount = false) :
    DismountsLast volumes log := by
  rintro before after handle ok rfl
  have hno := h (.control handle .dismountVolume ok) (by simp)
  cases hno

/-- No lock ends before the volumes are dismounted. -/
theorem Locks.kept_append {volumes : List VolumeInfo} {hs : List ℕ} {log' : List VolumeEvent}
    (hl : Locks volumes hs log) (hd : Dismounts hs log') :
    ∀ e ∈ log ++ log', e.isRelease = false :=
  fun e hm => (List.mem_append.1 hm).elim (hl.kept e) (hd.kept e)

/-- Once all volumes are locked they are dismounted, and only then locks may end. -/
theorem dismountsLast_append {volumes : List VolumeInfo} {hs : List ℕ}
    {log' log'' : List VolumeEvent}
    (hl : Locks volumes hs log) (hd : Dismounts hs log') (hno : ∀ e ∈ log'', e.isDismount = false) :
    DismountsLast volumes (log ++ log' ++ log'') := by
  rintro before after handle ok heq
  have hdismount : ∀ l : List VolumeEvent, (∀ e ∈ l, e.isDismount = false) →
      .control handle .dismountVolume ok ∉ l := fun l h hm => Bool.false_ne_true (h _ hm).symm
  constructor
  · refine ⟨hs, hl.locked.imp fun _ _ hin => hin.mono ?_⟩
    rw [List.append_assoc] at heq
    obtain ⟨rest, rfl, -⟩ | ⟨rest, hrest, htail⟩ := List.append_eq_append_iff.1 heq
    · exact List.subset_append_left ..
    · -- a dismount inside `log` is excluded, so `before` is all of it
      cases rest with
      | nil => simp [hrest]
      | cons e rest =>
        obtain ⟨rfl, -⟩ := List.cons.inj htail
        exact absurd (by simp [hrest]) (hdismount log hl.dismount)
  · intro e hm
    obtain ⟨rest, -, htail⟩ | ⟨rest, hrest, -⟩ := List.append_eq_append_iff.1 heq
    · -- and so is one inside `log''`
      exact absurd (by simp [htail]) (hdismount log'' hno)
    · exact hl.kept_append hd e (by simp [hrest, hm])

/-- What an `__enter__` leaves when it returns. -/
theorem exclusive_of_holds {volumes : List VolumeInfo} {log' : List VolumeEvent}
    (hw : Holds w₀ held w (log ++ log')) (hl : Locks volumes held log) (hd : Dismounts held log')
    (hdismounted : ∀ h ∈ held, .control h .dismountVolume true ∈ log') :
    Exclusive volumes (log ++ log') w := by
  obtain ⟨hown, rfl⟩ := hw
  have hkept := hl.kept_append hd
  have hopen : ∀ h, .closed h ∉ log ++ log' := fun h hm => Bool.false_ne_true (hkept _ hm).symm
  exact
    { locked := hl.locked.imp fun _ _ hin => hin.mono (List.subset_append_left ..)
      unlocked := fun h ok hm => Bool.false_ne_true (hkept _ hm).symm
      dismounted := fun h hm => List.mem_append_right _ (hdismounted h hm)
      live := fun h hm => ⟨hown.live h hm, hopen h⟩
      all := fun path h hm => by
        have hb := hown.balance h
        rw [hown.countP_of_mem hm, List.count_eq_zero.2 (hopen h), Nat.zero_add] at hb
        exact List.count_pos_iff.1 (by omega)
      paths := fun path h hm =>
        hl.paths path h ((List.mem_append.1 hm).resolve_right (hd.opened path h))
      controlled := fun h code ok hm =>
        (List.mem_append.1 hm).elim (hl.controlled h code ok) (hd.controlled h code ok)
      nodup := hown.nodup
      old := fun h hm => hown.lt_next hm }

/-- What a release leaves of the handles that were held. -/
theorem allClosed_of_releases {w₁ : VolumeWorld} {log' : List VolumeEvent}
    (hw : Holds w₀ held w log) (hr : Releases w.handles w w₁ log') :
    AllClosed (log ++ log') (log ++ log') { w₁ with handles := [] } := by
  refine ⟨fun path h hm => ?_, rfl⟩
  have hopened := hw.owns.countP_of_mem ((List.mem_append.1 hm).resolve_right (hr.opened path h))
  rw [List.count_append, hr.closed, hw.handles, hw.owns.balance, hopened]

/-- How `__enter__` can end. -/
def EnterEnds (volumes : List VolumeInfo) (w : VolumeWorld) :
    Except PyError Unit → VolumeWorld → Prop :=
  fun r w' => ∃ log, w'.events = w.events ++ log ∧ DismountsLast volumes log ∧
    match r with
    | .ok _ => Exclusive volumes log w'
    | .error e => e = LockedVolumes.unavailable ∧ AllClosed log log w'

/-- The handler of `__enter__`: all handles that are held are released. -/
theorem wp_abandon {volumes : List VolumeInfo} (hw : Holds w₀ held w log)
    (hlast : ∀ log', (∀ e ∈ log', e.isDismount = false) → DismountsLast volumes (log ++ log')) :
    wp volumeContract
      (do LockedVolumes.release; .raise LockedVolumes.unavailable : VolumeProgram Unit)
      (fun _ _ => False) (fun e => EnterEnds volumes w₀ (.error e)) w := by
  have hheld := hw.handles
  subst hheld
  refine wp_seq (wp_release hw.owns.nodup hw.owns.live) ?_ fun _ _ => False.elim
  rintro _ _ ⟨w₁, log', hr, rfl⟩
  refine ⟨log ++ log', ?_, hlast log' hr.dismount, rfl, allClosed_of_releases hw hr⟩
  rw [hr.events, hw.owns.events, List.append_assoc]

theorem wp_enter (volumes : List VolumeInfo) (hw : w.handles = []) :
    wp volumeContract (LockedVolumes.enter volumes) (fun _ => EnterEnds volumes w (.ok ()))
      (fun e => EnterEnds volumes w (.error e)) w := by
  have hinit : Holds w [] w [] := ⟨.init w, hw⟩
  refine wp_tryCatch.2 (wp_seq (wp_lockAll hinit volumes) ?_ ?_)
  · rintro _ w₁ ⟨hs, log, hw₁, hlocks⟩
    rw [List.nil_append, List.nil_append] at hw₁
    refine wp_bind.2 (wp_native fun _ => ⟨fun handles w' hp => ?_, nofun⟩)
    cases hp
    rw [hw₁.handles]
    refine wp_mono (wp_dismountAll hw₁ hlocks.locked.length_eq) ?_ ?_
    · rintro _ w₂ ⟨log', hw₂, hdismounted, hd⟩
      refine ⟨log ++ log', hw₂.owns.events, ?_, exclusive_of_holds hw₂ hlocks hd hdismounted⟩
      have hlast : DismountsLast volumes (log ++ log' ++ []) :=
        dismountsLast_append hlocks hd (by simp)
      rwa [List.append_nil] at hlast
    · rintro _ w₂ ⟨log', hw₂, hd⟩
      exact wp_mono (wp_abandon hw₂ fun log'' hno => dismountsLast_append hlocks hd hno)
        (fun _ _ => False.elim) fun _ _ => id
  · rintro _ w₁ ⟨held, log, hw₁, hno⟩
    rw [List.nil_append] at hw₁
    refine wp_mono (wp_abandon hw₁ fun log' hno' => ?_) (fun _ _ => False.elim) fun _ _ => id
    exact dismountsLast_of_none fun e hm => (List.mem_append.1 hm).elim (hno e) (hno' e)

/-- How `__exit__` ends in `w'`, after an `__enter__` with the events `log` and other code. -/
def ExitEnds (log log' : List VolumeEvent) (w w' : VolumeWorld) : Prop :=
  ∃ log'', w'.events = w.events ++ log'' ∧ AllClosed log (log ++ log' ++ log'') w'

theorem wp_exit {volumes : List VolumeInfo} {w₁ w₂ : VolumeWorld} {log' : List VolumeEvent}
    (hw : Exclusive volumes log w₁) (hoff : HandsOff w₁ w₂ log') :
    wp volumeContract LockedVolumes.exit (fun _ w₃ => ExitEnds log log' w₂ w₃) (fun _ _ => False)
      w₂ := by
  have hlive : ∀ h ∈ w₂.handles, w₂.value h = true := fun h hm => by
    rw [hoff.handles] at hm
    exact (hoff.value h hm).trans (hw.live h hm).1
  refine wp_mono (wp_release (hoff.handles ▸ hw.nodup) hlive) ?_ fun _ _ => id
  rintro _ _ ⟨w₃, log'', hr, rfl⟩
  refine ⟨log'', hr.events, fun path h hm => ?_, rfl⟩
  have hmem := hw.all path h hm
  rw [List.count_append, List.count_append, hr.closed, hoff.handles,
    List.count_eq_zero.2 (hw.live h hmem).2, List.count_eq_zero.2 (hoff.closed h hmem),
    List.count_eq_one_of_mem hw.nodup hmem]

theorem volumeContract_admits (σ : VolumeFailures) :
    volumeContract.Admits fun n (w : VolumeWorld) o => w.perform (σ n) o := fun n _ _ => ⟨σ n, rfl⟩

/-- **Volume locking is all or nothing.** Whichever calls fail, no volume is dismounted unless all
are locked; `__enter__` returns with all volumes locked and dismounted, none of them unlocked again
and their handles held in order, or raises with every handle closed once; and then `__exit__` closes
every handle once. -/
theorem lockedVolumes_all_or_nothing (σ : VolumeFailures) (volumes : List VolumeInfo)
    (w : VolumeWorld) :
    let entered := runVolumes σ (LockedVolumes.enter volumes) w.init
    EnterEnds volumes w entered.result entered.world ∧
      ∀ log, entered.result = .ok () → entered.world.events = w.events ++ log →
        ∀ τ w₂ log', HandsOff entered.world w₂ log' →
          (runVolumes τ LockedVolumes.exit w₂).result = .ok () ∧
            ExitEnds log log' w₂ (runVolumes τ LockedVolumes.exit w₂).world := by
  intro entered
  have hends : EnterEnds volumes w entered.result entered.world := by
    have hrun := run_of_wp (volumeContract_admits σ) (n := 0) (wp_enter (w := w.init) volumes rfl)
    cases hr : entered.result with
    | ok a => exact hrun.1 a hr
    | error e => exact hrun.2 e hr
  refine ⟨hends, fun log hok hlog τ w₂ log' hoff => ?_⟩
  obtain ⟨log₁, hlog₁, -, hexclusive⟩ := hends
  obtain rfl : log = log₁ := List.append_cancel_left (hlog.symm.trans hlog₁)
  rw [hok] at hexclusive
  obtain ⟨⟨⟩, hresult, hexit⟩ := exists_ok_of_wp (volumeContract_admits τ) (n := 0)
    (wp_exit hexclusive hoff)
  exact ⟨hresult, hexit⟩

/-- Two volumes are locked; then the first call of `__exit__` fails. -/
theorem lockedVolumes_all_or_nothing_sample :
    let w : VolumeWorld := ⟨[], 0, fun _ => false, []⟩
    let entered := runVolumes (fun _ => none)
      (LockedVolumes.enter [{ guidPath := "C:" }, { guidPath := "D:" }]) w.init
    entered.result = .ok () ∧
      (runVolumes (fun n => if n = 0 then some (5, "Access is denied.") else none)
        LockedVolumes.exit entered.world).result = .ok () := by
  refine ⟨rfl, ?_⟩
  have hspec := lockedVolumes_all_or_nothing (fun _ => none)
    [{ guidPath := "C:" }, { guidPath := "D:" }] ⟨[], 0, fun _ => false, []⟩
  exact (hspec.2 _ rfl (List.nil_append _).symm _ _ [] ⟨(List.append_nil _).symm, rfl,
    fun _ _ => rfl,
    fun _ _ => List.not_mem_nil⟩).1

end Ps2Ripper
