import Ps2Ripper.Windows.DeviceEnumeration
import Ps2Ripper.Windows.VolumeLock
import Ps2Ripper.Interactive.Footprint
import Ps2Ripper.Ps2.SystemCnf

/-!
# Erasing a disk

`PhysicalDiskManager.initialize_mbr_exfat` of `windows/storage_api.py`, over the Win32 calls of the
locking and the calls on the raw stream.  The formatter is any program over that stream.

* `StorageOp`, `StorageWorld`: the calls, with a snapshot of the run for every raw write;
* `initializeMbrExfat`: the two enumerations, the locks between them, and the formatter;
* `Authorised`: what has to hold when a byte is written;
* `rawWrites_authorised_iff`: it does, exactly if the last enumeration lists no new volume on the
  disk;
* `not_rawWrites_authorised`: otherwise a volume that nobody has locked is overwritten.
-/

namespace Ps2Ripper

open Interactive Prog

/-- The methods of the raw stream. -/
inductive RawOp
  | seek (offset whence : ℤ)
  | tell
  | read (size : ℤ)
  | write (data : Bytes)
  | flush

abbrev RawOp.Answer : RawOp → Type
  | .tell => ℕ
  | .read _ => Bytes
  | _ => Unit

abbrev rawInterface : Signature := ⟨RawOp, RawOp.Answer⟩

abbrev RawProgram (α : Type) := Prog rawInterface PyError α

/-- What the manager calls; the last one is `IOCTL_DISK_UPDATE_PROPERTIES`. -/
inductive StorageOp
  | isRequested
  | enumerateUsbDisks
  | volume (o : VolumeOp)
  | raw (o : RawOp)
  | updateProperties

abbrev StorageOp.Answer : StorageOp → Type
  | .isRequested => Bool
  | .enumerateUsbDisks => List PhysicalDisk
  | .volume o => o.Answer
  | .raw o => o.Answer
  | .updateProperties => Unit

abbrev storageInterface : Signature := ⟨StorageOp, StorageOp.Answer⟩

abbrev StorageProgram (α : Type) := Prog storageInterface PyError α

/-- A write to the raw disk, with what had happened before it. -/
structure RawWrite where
  data : Bytes
  volumes : VolumeWorld
  enumerated : List (List PhysicalDisk)

/-- The volumes, the enumerations so far, and the raw writes so far. -/
structure StorageWorld where
  volumes : VolumeWorld
  enumerated : List (List PhysicalDisk) := []
  raw : List RawWrite := []

/-- The answer to a call: a failure of a call of the locking, or any answer to another call. -/
structure StorageReplies where
  failure : ℕ → Option (ℕ × String)
  answer : ℕ → (o : StorageOp) → Except PyError o.Answer

/-- Carry out one call; the hardware may have become anything since the last one. -/
def StorageWorld.perform (w : StorageWorld) (failure : Option (ℕ × String))
    (answer : (o : StorageOp) → Except PyError o.Answer) :
    (o : StorageOp) → Except PyError o.Answer × StorageWorld
  | .volume o =>
  ((w.volumes.perform failure o).1, { w with volumes := (w.volumes.perform failure o).2 })
  | .enumerateUsbDisks =>
    match answer .enumerateUsbDisks with
    | .ok disks => (.ok disks, { w with enumerated := w.enumerated ++ [disks] })
    | .error e => (.error e, w)
  | .raw (.write data) =>
    (answer (.raw (.write data)), { w with raw := w.raw ++ [⟨data, w.volumes, w.enumerated⟩] })
  | .raw o => (answer (.raw o), w)
  | .isRequested => (answer .isRequested, w)
  | .updateProperties => (answer .updateProperties, w)

def runStorage (σ : StorageReplies) {α : Type} (p : StorageProgram α) (w : StorageWorld) :
    Outcome PyError α StorageWorld :=
  run (fun n w o => w.perform (σ.failure n) (σ.answer n) o) p 0 w

/-! ### The manager -/

def storage (o : StorageOp) : StorageProgram o.Answer := Prog.perform (S := storageInterface) o

/-- A program over the volumes, or over the stream, as a part of the manager. -/
def onVolumes {α : Type} : VolumeProgram α → StorageProgram α
  | .pure a => .pure a
  | .raise e => .raise e
  | .call o k => .call (.volume o) fun r => onVolumes (k r)

def onStream {α : Type} : RawProgram α → StorageProgram α
  | .pure a => .pure a
  | .raise e => .raise e
  | .call o k => .call (.raw o) fun r => onStream (k r)

def expectedEraseConfirmation (disk : PhysicalDisk) : String :=
    s!"ERASE PHYSICALDRIVE {disk.number}"

def currentIdentity (selected : PhysicalDisk) : StorageProgram PhysicalDisk := do
  let disks ← storage .enumerateUsbDisks
  match disks.find? (·.number = selected.number) with
  | none => .raise (.unsafeDeviceError s!"{selected.physicalName} is no longer connected.")
  | some current =>
    Prog.lift (verifySameIdentity selected current)
    return current

/-- The body of `with LockedVolumes(...)`. -/
def eraseLocked {ρ : Type} (initializeStream : PhysicalDisk → RawProgram ρ)
    (selected : PhysicalDisk) : StorageProgram ρ := do
  let current ← currentIdentity selected
  if current.safetyReasons ≠ [] then
    .raise (.unsafeDeviceError
      ("Destructive access became unsafe: " ++ " ".intercalate current.safetyReasons))
  else
    let handle ← onVolumes (WinHandle.open current.devicePath genericReadWrite 0)
    (do
      let result ← onStream (initializeStream current)
      storage (.raw .flush)
      storage .updateProperties
      return result : StorageProgram ρ).tryFinally (onVolumes (WinHandle.close handle))

/-- `text.strip().upper()`. -/
def stripUpper (text : String) : String := String.ofList (upper (strip text.toList))

/-- `initializeStream current` is the formatter on the stream of that disk. -/
def initializeMbrExfat {ρ : Type} (initializeStream : PhysicalDisk → RawProgram ρ)
    (selected : PhysicalDisk) (typedConfirmation : String) : StorageProgram ρ :=
  let expected := expectedEraseConfirmation selected
  if stripUpper typedConfirmation ≠ expected then
    .raise (.unsafeDeviceError s!"Confirmation must exactly match: {expected}")
  else if selected.safetyReasons ≠ [] then
    .raise (.unsafeDeviceError
      ("Destructive access is blocked: " ++ " ".intercalate selected.safetyReasons))
  else do
    let requested ← storage .isRequested
    if requested then .raise (.cancelledError "Operation cancelled.")
    else
      let current ← currentIdentity selected
      onVolumes (native .clearHandles)
      onVolumes (LockedVolumes.enter current.volumes)
      (eraseLocked initializeStream selected).tryFinally (onVolumes LockedVolumes.exit)

/-! ### Authorisation -/

/-- The volume was locked and dismounted in `log`, and the lock is still held. -/
def LockHeld (log : List VolumeEvent) (w : VolumeWorld) (volume : VolumeInfo) : Prop :=
  ∃ h, LockedIn log volume h ∧ .control h .dismountVolume true ∈ log ∧ w.value h = true ∧
    .closed h ∉ log ∧ ∀ ok, .control h .unlockVolume ok ∉ log

/-- The disk of this number in an enumeration. -/
def diskOf (selected : PhysicalDisk) (disks : List PhysicalDisk) : Option PhysicalDisk :=
  disks.find? (·.number = selected.number)

/-- The write `x` of a call that started in `w` has full authorisation. -/
structure Authorised (selected : PhysicalDisk) (typedConfirmation : String) (w : StorageWorld)
    (x : RawWrite) : Prop where
  confirmed : stripUpper typedConfirmation = expectedEraseConfirmation selected
  safe : selected.safetyReasons = []
  current : ∃ before disks disk log, x.enumerated = w.enumerated ++ before ++ [disks] ∧
    diskOf selected disks = some disk ∧ disk.identityTuple = selected.identityTuple ∧
    disk.safetyReasons = [] ∧ x.volumes.events = w.volumes.events ++ log ∧
    ∀ volume ∈ disk.volumes, LockHeld log x.volumes volume

/-- Of the two enumerations of a call that started in `w`, the second lists no volume of the disk
under a path that the first does not list. -/
def NoNewVolume (selected : PhysicalDisk) (w : StorageWorld)
    (enumerated : List (List PhysicalDisk)) : Prop :=
  ∀ first disks a b, enumerated = w.enumerated ++ [first, disks] → diskOf selected first = some a →
    diskOf selected disks = some b →
    ∀ volume ∈ b.volumes, ∃ locked ∈ a.volumes,
      LockedVolumes.volumePath locked = LockedVolumes.volumePath volume

/-! ### The parts -/

/-- Any answer, and any failure. -/
def storageContract : Contract storageInterface PyError StorageWorld where
  may _ _ := True
  answers w o r w' := ∃ failure answer, w.perform failure answer o = (r, w')

variable {α ρ : Type} {w : StorageWorld}

theorem wp_onVolumes {p : VolumeProgram α} {Q : α → VolumeWorld → Prop}
    {E : PyError → VolumeWorld → Prop} (hp : wp volumeContract p Q E w.volumes) :
    wp storageContract (onVolumes p) (fun a w' => Q a w'.volumes ∧ w' =
      { w with volumes := w'.volumes })
      (fun e w' => E e w'.volumes ∧ w' = { w with volumes := w'.volumes }) w := by
  induction p generalizing w with
  | pure a => exact ⟨hp, rfl⟩
  | raise e => exact ⟨hp, rfl⟩
  | call o k ih =>
    refine ⟨trivial, ?_⟩
    rintro r w' ⟨failure, answer, h⟩
    obtain ⟨rfl, rfl⟩ := Prod.mk.inj h
    have hnext := hp.2 (w.volumes.perform failure o).1 (w.volumes.perform failure o).2
      ⟨failure, rfl⟩
    exact ih _ (w := { w with volumes := (w.volumes.perform failure o).2 }) hnext

/-- A program over the volumes writes nothing to the disk. -/
theorem wp_onVolumes_true (p : VolumeProgram α) :
    wp storageContract (onVolumes p) (fun _ w' => w' = { w with volumes := w'.volumes })
      (fun _ w' => w' = { w with volumes := w'.volumes }) w :=
  have hp : wp volumeContract p (fun _ _ => True) (fun _ _ => True) w.volumes :=
    ensures_true (fun _ _ => trivial) p
  wp_mono (wp_onVolumes hp) (fun _ _ => And.right) fun _ _ => And.right

/-- The formatter writes, and nothing else changes. -/
structure OnlyWrites (w w' : StorageWorld) : Prop where
  volumes : w'.volumes = w.volumes
  enumerated : w'.enumerated = w.enumerated
  raw : ∀ x ∈ w'.raw, x ∈ w.raw ∨ x.volumes = w.volumes ∧ x.enumerated = w.enumerated

theorem OnlyWrites.refl : OnlyWrites w w := ⟨rfl, rfl, fun _ => .inl⟩

theorem OnlyWrites.trans {w' w'' : StorageWorld} (h : OnlyWrites w w') (h' : OnlyWrites w' w'') :
    OnlyWrites w w'' where
  volumes := h'.volumes.trans h.volumes
  enumerated := h'.enumerated.trans h.enumerated
  raw x hx := (h'.raw x hx).elim (h.raw x) fun ⟨hv, he⟩ =>
    .inr ⟨hv.trans h.volumes, he.trans h.enumerated⟩

/-- The calls that leave the volumes alone. -/
def StorageOp.isRaw : StorageOp → Prop
  | .raw _ | .updateProperties => True
  | _ => False

theorem onlyWrites_of_perform {failure : Option (ℕ × String)}
    {answer : (o : StorageOp) → Except PyError o.Answer} {o : StorageOp} (ho : o.isRaw) :
    OnlyWrites w (w.perform failure answer o).2 := by
  cases o with
  | raw o =>
    cases o with
    | write data =>
      refine ⟨rfl, rfl, fun x hx => ?_⟩
      obtain hx | hx := List.mem_append.1 hx
      · exact .inl hx
      · obtain rfl := List.mem_singleton.1 hx
        exact .inr ⟨rfl, rfl⟩
    | _ => exact .refl
  | updateProperties => exact .refl
  | _ => exact ho.elim

theorem uses_onStream (p : RawProgram α) : (onStream p).Uses StorageOp.isRaw := by
  induction p with
  | pure a => trivial
  | raise e => trivial
  | call o k ih => exact ⟨trivial, ih⟩

theorem wp_onlyWrites {p : StorageProgram α} (hp : p.Uses StorageOp.isRaw) :
    wp storageContract p (fun _ w' => OnlyWrites w w') (fun _ w' => OnlyWrites w w') w := by
  refine wp_of_uses (R := OnlyWrites) (fun _ => .refl) .trans (fun _ _ _ _ => trivial) ?_ hp
  rintro w o r w' ho ⟨failure, answer, h⟩
  have hstep : OnlyWrites w (w.perform failure answer o).2 := onlyWrites_of_perform ho
  rwa [h] at hstep

/-- An enumeration that found the selected disk. -/
structure Found (selected : PhysicalDisk) (w w' : StorageWorld) (disk : PhysicalDisk) : Prop where
  volumes : w'.volumes = w.volumes
  raw : w'.raw = w.raw
  enumerated : ∃ disks, w'.enumerated = w.enumerated ++ [disks] ∧ diskOf selected disks = some disk
  identity : disk.identityTuple = selected.identityTuple

theorem wp_currentIdentity {selected : PhysicalDisk} :
    wp storageContract (currentIdentity selected) (fun disk w' => Found selected w w' disk)
      (fun _ w' => w'.raw = w.raw) w := by
  have henumerate : wp storageContract (storage .enumerateUsbDisks)
      (fun disks w' => w' = { w with enumerated := w.enumerated ++ [disks] }) (fun _ w' => w' = w)
      w := by
    refine wp_perform.2 ⟨trivial, ?_, ?_⟩
    · rintro disks w' ⟨failure, answer, h⟩
      simp only [StorageWorld.perform] at h
      split at h <;> cases h
      rfl
    · rintro e w' ⟨failure, answer, h⟩
      simp only [StorageWorld.perform] at h
      split at h <;> cases h
      rfl
  refine wp_seq henumerate ?_ fun _ _ h => by rw [h]
  rintro disks w₁ rfl
  cases hfind : disks.find? (·.number = selected.number) with
  | none => exact rfl
  | some current =>
    refine wp_bind.2 ((wp_lift _).2 ⟨fun _ hok => ?_, fun _ _ => rfl⟩)
    have hsame : selected.identityTuple = current.identityTuple := by
      unfold verifySameIdentity at hok
      split at hok
      · cases hok
      · rename_i hne
        exact of_not_not fun h => hne (.inr h)
    exact ⟨rfl, rfl, ⟨disks, rfl, hfind⟩, hsame.symm⟩

/-! ### The locks -/

theorem exists_of_forall₂ {β : Type} {R : α → β → Prop} {xs : List α} {ys : List β} {x : α}
    (h : List.Forall₂ R xs ys) (hx : x ∈ xs) : ∃ y ∈ ys, R x y := by
  induction h with
  | nil => cases hx
  | cons hR _ ih =>
    obtain rfl | hx := List.mem_cons.1 hx
    · exact ⟨_, List.mem_cons_self, hR⟩
    · obtain ⟨y, hy, hxy⟩ := ih hx
      exact ⟨y, List.mem_cons_of_mem _ hy, hxy⟩

/-- Every volume that an `__enter__` was called with is locked when it returns. -/
theorem Exclusive.lockHeld {volumes : List VolumeInfo} {log : List VolumeEvent} {v : VolumeWorld}
    (h : Exclusive volumes log v) {volume : VolumeInfo} (hm : volume ∈ volumes) :
    LockHeld log v volume := by
  obtain ⟨handle, hh, hlocked⟩ := exists_of_forall₂ h.locked hm
  exact ⟨handle, hlocked, h.dismounted handle hh, (h.live handle hh).1, (h.live handle hh).2,
    h.unlocked handle⟩

/-- A lock is a lock of the path. -/
theorem LockHeld.congr {log : List VolumeEvent} {v : VolumeWorld} {volume volume' : VolumeInfo}
    (h : LockHeld log v volume)
    (hpath : LockedVolumes.volumePath volume = LockedVolumes.volumePath volume') :
    LockHeld log v volume' := by
  obtain ⟨handle, ⟨hopened, hlocked⟩, hrest⟩ := h
  exact ⟨handle, ⟨hpath ▸ hopened, hlocked⟩, hrest⟩

/-- Opening another handle does not release a lock. -/
theorem LockHeld.createFile {log : List VolumeEvent} {v : VolumeWorld} {volume : VolumeInfo}
    (h : LockHeld log v volume) (path : String) :
    LockHeld (log ++ [.opened path v.next]) (v.createFile path) volume := by
  obtain ⟨handle, hlocked, hdismounted, hlive, hclosed, hno⟩ := h
  refine ⟨handle, hlocked.mono (List.subset_append_left ..), List.mem_append_left _ hdismounted, ?_,
    by simpa using hclosed, fun ok => by simpa using hno ok⟩
  by_cases hnew : handle = v.next
  · rw [hnew]
    exact Function.update_self ..
  · exact (Function.update_of_ne hnew ..).trans hlive

/-- Once another handle is opened, the volumes that are locked are those whose path was locked. -/
theorem Exclusive.lockHeld_createFile_iff {volumes : List VolumeInfo} {log : List VolumeEvent}
    {v : VolumeWorld} (h : Exclusive volumes log v) (path : String) (volume : VolumeInfo) :
    LockHeld (log ++ [.opened path v.next]) (v.createFile path) volume ↔
      ∃ locked ∈ volumes,
        LockedVolumes.volumePath locked = LockedVolumes.volumePath volume := by
  constructor
  · rintro ⟨handle, ⟨hopened, hlocked⟩, -⟩
    have hcontrol : .control handle .lockVolume true ∈ log := by simpa using hlocked
    obtain hopened | hnew := List.mem_append.1 hopened
    · exact h.paths _ handle hopened
    · -- the new handle was never sent a control code
      obtain ⟨-, rfl⟩ : LockedVolumes.volumePath volume = path ∧ handle = v.next := by
        simpa using hnew
      exact absurd (h.old _ (h.controlled _ _ _ hcontrol)) (lt_irrefl _)
  · rintro ⟨locked, hm, hpath⟩
    exact ((h.lockHeld hm).congr hpath).createFile path

/-! ### Full authorisation -/

section Erase

variable {initializeStream : PhysicalDisk → RawProgram ρ} {selected : PhysicalDisk}
  {typedConfirmation : String}

/-- Every raw write so far is authorised exactly if no new volume had turned up before it. -/
def Secured (selected : PhysicalDisk) (typedConfirmation : String) (w w' : StorageWorld) : Prop :=
  ∀ x ∈ w'.raw,
    (Authorised selected typedConfirmation w x ↔ NoNewVolume selected w x.enumerated)

theorem secured_of_raw_eq_nil {w' : StorageWorld} (h : w'.raw = []) :
    Secured selected typedConfirmation w w' := fun x hx => by
  rw [h] at hx
  cases hx

/-- Whatever the locking does afterwards, the writes are those they were. -/
theorem wp_finally_secured {p : StorageProgram ρ} {f : VolumeProgram Unit} {w' : StorageWorld}
    (hp : wp storageContract p (fun _ w₁ => Secured selected typedConfirmation w w₁)
      (fun _ w₁ => Secured selected typedConfirmation w w₁) w') :
    wp storageContract (p.tryFinally (onVolumes f))
      (fun _ w₁ => Secured selected typedConfirmation w w₁)
      (fun _ w₁ => Secured selected typedConfirmation w w₁) w' := by
  have hkept : ∀ w₁, Secured selected typedConfirmation w w₁ → ∀ w₂ : StorageWorld,
      w₂ = { w₁ with volumes := w₂.volumes } →
      Secured selected typedConfirmation w w₂ := fun w₁ h w₂ hw => by
    rw [hw]
    exact h
  exact wp_tryFinally.2 (wp_mono hp
    (fun _ w₁ h => wp_mono (wp_onVolumes_true f) (fun _ => hkept w₁ h) fun _ => hkept w₁ h)
    fun _ w₁ h => wp_mono (wp_onVolumes_true f) (fun _ => hkept w₁ h) fun _ => hkept w₁ h)

/-- A write between the locking of the volumes of the first enumeration and their release. -/
theorem authorised_iff {x : RawWrite} {first disks : List PhysicalDisk} {a disk : PhysicalDisk}
    {log : List VolumeEvent} {v : VolumeWorld}
    (hconfirmed : stripUpper typedConfirmation = expectedEraseConfirmation selected)
    (hsafe : selected.safetyReasons = []) (ha : diskOf selected first = some a)
    (hlog : v.events = w.volumes.events ++ log) (hheld : Exclusive a.volumes log v)
    (hdisk : diskOf selected disks = some disk)
    (hidentity : disk.identityTuple = selected.identityTuple) (hreasons : disk.safetyReasons = [])
    (henumerated : x.enumerated = w.enumerated ++ [first] ++ [disks])
    (hvolumes : x.volumes = v.createFile disk.devicePath) :
    Authorised selected typedConfirmation w x ↔ NoNewVolume selected w x.enumerated := by
  have hevents : x.volumes.events =
      w.volumes.events ++ (log ++ [.opened disk.devicePath v.next]) := by
    rw [hvolumes, ← List.append_assoc, ← hlog]
    rfl
  constructor
  · rintro ⟨-, -, before, disks', disk', log', henumerated', hdisk', -, -, hevents', hlocked⟩
    -- both speak of the same enumeration and of the same events
    obtain ⟨-, hlast⟩ := List.append_inj' (henumerated.symm.trans henumerated') rfl
    cases hlast
    cases hdisk.symm.trans hdisk'
    obtain rfl : log ++ [.opened disk.devicePath v.next] = log' :=
      List.append_cancel_left (hevents.symm.trans hevents')
    intro first' disks' a' b henum ha' hb volume hm
    have hlists : [first, disks] = [first', disks'] := by
      rw [henumerated, List.append_assoc] at henum
      exact List.append_cancel_left henum
    cases hlists
    cases ha.symm.trans ha'
    cases hdisk.symm.trans hb
    have hvolume := hlocked volume hm
    rw [hvolumes] at hvolume
    exact (hheld.lockHeld_createFile_iff _ _).1 hvolume
  · intro hnew
    refine ⟨hconfirmed, hsafe, [first], disks, disk, log ++ [.opened disk.devicePath v.next],
      henumerated, hdisk, hidentity, hreasons, hevents, fun volume hm => ?_⟩
    rw [hvolumes]
    refine (hheld.lockHeld_createFile_iff _ _).2 (hnew first disks a disk ?_ ha hdisk volume hm)
    rw [henumerated, List.append_assoc]
    rfl

/-- The body of the `with` statement, once the volumes of the first enumeration are locked. -/
theorem wp_eraseLocked {w₁ : StorageWorld} {first : List PhysicalDisk} {a : PhysicalDisk}
    {log : List VolumeEvent}
    (hconfirmed : stripUpper typedConfirmation = expectedEraseConfirmation selected)
    (hsafe : selected.safetyReasons = []) (hraw : w₁.raw = [])
    (hfirst : w₁.enumerated = w.enumerated ++ [first]) (ha : diskOf selected first = some a)
    (hlog : w₁.volumes.events = w.volumes.events ++ log)
    (hheld : Exclusive a.volumes log w₁.volumes) :
    wp storageContract (eraseLocked initializeStream selected)
      (fun _ w' => Secured selected typedConfirmation w w')
      (fun _ w' => Secured selected typedConfirmation w w') w₁ := by
  refine wp_seq wp_currentIdentity ?_ fun _ w' h => secured_of_raw_eq_nil (h.trans hraw)
  rintro disk w₂ ⟨hvolumes, hraw₂, ⟨disks, henumerated, hdisk⟩, hidentity⟩
  split
  · exact secured_of_raw_eq_nil (hraw₂.trans hraw)
  rename_i hreasons
  -- Up to here nothing was written; the handle is opened while the volumes are locked.
  have hopen : wp volumeContract (WinHandle.open disk.devicePath genericReadWrite 0)
      (fun _ v => v = w₂.volumes.createFile disk.devicePath) (fun _ _ => True) w₂.volumes := by
    refine wp_native fun failure => ⟨fun _ v hp => ?_, fun _ _ _ => trivial⟩
    cases failure with
    | none =>
      cases hp
      rfl
    | some failure => cases hp
  refine wp_seq (wp_onVolumes hopen) ?_ fun _ w' h => secured_of_raw_eq_nil ?_
  swap
  · rw [h.2]
    exact hraw₂.trans hraw
  rintro handle w₃ ⟨hcreated, hw₃⟩
  refine wp_finally_secured (wp_mono (wp_onlyWrites ?_) ?_ ?_)
  · exact .bind (uses_onStream _) fun _ => .bind (uses_perform.2 trivial) fun _ =>
      .bind (uses_perform.2 trivial) fun _ => trivial
  all_goals
    rintro _ w₄ ⟨-, -, hwrites⟩ x hx
    have hraw₃ : w₃.raw = [] := by
      rw [hw₃]
      exact hraw₂.trans hraw
    obtain hx | ⟨hxv, hxe⟩ := hwrites x hx
    · rw [hraw₃] at hx
      cases hx
    have henumerated₃ : w₃.enumerated = w.enumerated ++ [first] ++ [disks] := by
      rw [hw₃]
      exact henumerated.trans (by rw [hfirst])
    exact authorised_iff hconfirmed hsafe ha hlog hheld hdisk hidentity (of_not_not hreasons)
      (hxe.trans henumerated₃) (by rw [hxv, hcreated, hvolumes])

theorem wp_initializeMbrExfat (hraw : w.raw = []) :
    wp storageContract (initializeMbrExfat initializeStream selected typedConfirmation)
      (fun _ w' => Secured selected typedConfirmation w w')
      (fun _ w' => Secured selected typedConfirmation w w') w := by
  simp only [initializeMbrExfat]
  split
  · exact secured_of_raw_eq_nil hraw
  rename_i hconfirmed
  split
  · exact secured_of_raw_eq_nil hraw
  rename_i hsafe
  have hrequested : wp storageContract (storage .isRequested) (fun _ w' => w' = w)
      (fun _ w' => w' = w) w := by
    refine wp_perform.2 ⟨trivial, ?_, ?_⟩ <;> rintro _ w' ⟨failure, answer, h⟩ <;>
      exact (Prod.mk.inj h).2.symm
  refine wp_seq hrequested ?_ fun _ _ h => secured_of_raw_eq_nil (by rw [h, hraw])
  rintro requested _ rfl
  split
  · exact secured_of_raw_eq_nil hraw
  refine wp_seq wp_currentIdentity ?_ fun _ _ h => secured_of_raw_eq_nil (h.trans hraw)
  rintro a w₁ ⟨hvolumes, hraw₁, ⟨first, hfirst, ha⟩, -⟩
  have hclear : wp volumeContract (native .clearHandles) (fun _ v => v = w₁.volumes.init)
      (fun _ _ => False) w₁.volumes :=
    wp_native fun _ => ⟨fun _ v hp => (Prod.mk.inj hp).2.symm, fun _ _ hp => by cases hp⟩
  refine wp_seq (wp_onVolumes hclear) ?_ fun _ _ h => h.1.elim
  rintro _ w₂ ⟨hinit, hw₂⟩
  have hraw₂ : w₂.raw = [] := by
    rw [hw₂]
    exact hraw₁.trans hraw
  refine wp_seq (wp_onVolumes (wp_enter a.volumes (by rw [hinit]; rfl))) ?_
    fun _ _ h => secured_of_raw_eq_nil (by rw [h.2]; exact hraw₂)
  rintro _ w₃ ⟨⟨log, hlog, -, hheld⟩, hw₃⟩
  refine wp_finally_secured (wp_eraseLocked (of_not_not hconfirmed) (of_not_not hsafe) ?_ ?_ ha ?_
    hheld)
  · rw [hw₃]
    exact hraw₂
  · rw [hw₃, hw₂]
    exact hfirst
  · rw [hlog, hinit, hvolumes]
    rfl

end Erase

theorem storageContract_admits (σ : StorageReplies) :
    storageContract.Admits fun n (w : StorageWorld) o => w.perform (σ.failure n) (σ.answer n) o :=
  fun n _ _ => ⟨σ.failure n, σ.answer n, rfl⟩

/-- **No raw write without full authorisation**, exactly as long as no new volume has turned up on
the disk between the two enumerations: the formatter may be any program, the hardware may become
anything between two calls, and any call may fail. -/
theorem rawWrites_authorised_iff (initializeStream : PhysicalDisk → RawProgram ρ)
    (selected : PhysicalDisk) (typedConfirmation : String) (σ : StorageReplies) (v : VolumeWorld) :
    let w : StorageWorld := { volumes := v }
    let outcome := runStorage σ (initializeMbrExfat initializeStream selected typedConfirmation) w
    ∀ x ∈ outcome.world.raw,
      (Authorised selected typedConfirmation w x ↔ NoNewVolume selected w x.enumerated) := by
  intro w outcome
  have hwp : wp storageContract (initializeMbrExfat initializeStream selected typedConfirmation)
      (fun _ w' => Secured selected typedConfirmation w w')
      (fun _ w' => Secured selected typedConfirmation w w') w := wp_initializeMbrExfat rfl
  obtain ⟨hok, herror⟩ := run_of_wp (storageContract_admits σ) (n := 0) hwp
  suffices hsecured : Secured selected typedConfirmation w outcome.world from hsecured
  cases hr : outcome.result with
  | ok a => exact hok a hr
  | error e => exact herror e hr

/-! ### A volume that turns up -/

/-- The selected disk, with these volumes. -/
def sampleUsbDisk (volumes : List VolumeInfo) : PhysicalDisk where
  number := 1
  devicePath := "\\\\.\\PhysicalDrive1"
  instanceId := "USBSTOR\\DISK"
  model := "Portable SSD"
  usb := true
  volumes := volumes

/-- Every call goes through; from the second enumeration on the disk has these volumes. -/
def sampleReplies (volumes : List VolumeInfo) : StorageReplies where
  failure _ := none
  answer n o :=
    match o with
    | .isRequested => .ok false
    | .enumerateUsbDisks => .ok [sampleUsbDisk (if n = 1 then [] else volumes)]
    | .volume (.createFile ..) => .ok 0
    | .volume (.getValue _) => .ok true
    | .volume .getHandles => .ok []
    | .volume (.deviceIoControl ..) => .ok ()
    | .volume (.closeHandle _) => .ok ()
    | .volume (.appendHandle _) => .ok ()
    | .volume .clearHandles => .ok ()
    | .raw .tell => .ok 0
    | .raw (.read _) => .ok []
    | .raw (.seek ..) => .ok ()
    | .raw (.write _) => .ok ()
    | .raw .flush => .ok ()
    | .updateProperties => .ok ()

/-- A formatter that writes one byte. -/
def writeOne : PhysicalDisk → RawProgram Unit :=
    fun _ => Prog.perform (S := rawInterface) (.write [0])

/-- The run in which the volumes turn up. -/
def sampleErase (volumes : List VolumeInfo) : Outcome PyError Unit StorageWorld :=
  runStorage (sampleReplies volumes)
    (initializeMbrExfat writeOne (sampleUsbDisk []) " Erase PhysicalDrive 1")
    { volumes := ⟨[], 0, fun _ => false, []⟩ }

/-- Nothing turns up, and one write is authorised. -/
theorem rawWrites_authorised_sample : ∃ x, (sampleErase []).world.raw = [x] ∧
    Authorised (sampleUsbDisk []) " Erase PhysicalDrive 1"
      { volumes := ⟨[], 0, fun _ => false, []⟩ } x := by
  refine ⟨_, rfl, (rawWrites_authorised_iff writeOne (sampleUsbDisk []) " Erase PhysicalDrive 1"
    (sampleReplies []) ⟨[], 0, fun _ => false, []⟩ _ (List.mem_singleton_self _)).2 ?_⟩
  rintro first disks a b henumerated ha hb volume hm
  obtain ⟨rfl, rfl⟩ : first = [sampleUsbDisk []] ∧ disks = [sampleUsbDisk []] := by
    have h : [[sampleUsbDisk []], [sampleUsbDisk []]] = [first, disks] := henumerated
    cases h
    exact ⟨rfl, rfl⟩
  cases hb
  cases hm

/-- A volume that turns up while the locks are taken is overwritten although nobody has locked
it. -/
theorem not_rawWrites_authorised :
    ¬ ∀ x ∈ (sampleErase [{ guidPath := "E:" }]).world.raw, Authorised (sampleUsbDisk [])
      " Erase PhysicalDrive 1" { volumes := ⟨[], 0, fun _ => false, []⟩ } x := by
  intro h
  obtain ⟨before, disks, disk, log, henumerated, hdisk, -, -, hlog, hheld⟩ :=
    (h _ (List.mem_singleton_self _)).current
  have hdisks : [[sampleUsbDisk []]] ++ [[sampleUsbDisk [{ guidPath := "E:" }]]] =
      before ++ [disks] := henumerated
  obtain ⟨-, hlast⟩ := List.append_inj' hdisks rfl
  cases hlast
  cases hdisk
  obtain ⟨handle, ⟨-, hlocked⟩, -⟩ := hheld { guidPath := "E:" } (List.mem_singleton_self _)
  have hopened : log = [.opened "\\\\.\\PhysicalDrive1" 0] := hlog.symm
  rw [hopened] at hlocked
  cases List.mem_singleton.1 hlocked

end Ps2Ripper
