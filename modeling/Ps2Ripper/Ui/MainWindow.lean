import Ps2Ripper.Windows.DeviceEnumeration

/-!
# The drive that the window shows

The handlers of `ui/main_window.py` that touch the disk combo, the selected disk and the OPL root,
as a machine whose events are the actions of the user and the signals of the background tasks.
Labels, dialogs and the optical combo are left out: what a dialog or a task answers is part of the
event.

* `MainWindow`, `WindowEvent`, `MainWindow.step`: the window and its handlers;
* `MainWindow.Agrees`: the combo, the selected disk and the OPL root agree;
* `selection_agrees`: they do in every run in which a finished format finds its disk still shown;
* `not_selection_agrees`: otherwise the window acts on a disk that it does not show.
-/

namespace Ps2Ripper

/-- The points at which the volumes of a disk are mounted, in order. -/
def PhysicalDisk.mountPoints (disk : PhysicalDisk) : List String :=
  disk.volumes.flatMap (·.mountPoints)

/-- The background tasks. -/
inductive Task
  | enumerateDisks
  | format (disk : PhysicalDisk)
  | enumerateOptical
  | inspect
  | rip (oplRoot : String)

/-- What a task reports: its result, or the signal `error`. -/
inductive TaskResult
  | error
  | disks (disks : List PhysicalDisk)
  | formatted (disk : PhysicalDisk) (directoriesCreated : Bool)
  | optical
  | disc (disc : DiscIdentity)
  | installed

inductive WindowEvent
  | chooseDisk (index : ℕ)
  | refreshDisks
  | toggleReformat
  | prepare (confirmed directoriesCreated : Bool)
  | refreshOptical
  | scanDisc
  | startRip
  | ripNext
  | taskResult (result : TaskResult)
  | taskFinished

/-- `currentIndex` is that of the disk combo, `reformat` the checkbox, `running` the task whose
result has not been delivered. -/
structure MainWindow where
  disks : List PhysicalDisk := []
  currentIndex : Option ℕ := none
  selectedDisk : Option PhysicalDisk := none
  oplRoot : Option String := none
  disc : Option DiscIdentity := none
  busy : Bool := false
  reformat : Bool := false
  running : Option Task := none

namespace MainWindow

variable (w : MainWindow)

/-- The disk that the combo shows. -/
def shown : Option PhysicalDisk := w.currentIndex.bind fun index => w.disks[index]?

def runTask (task : Task) : MainWindow :=
  if w.busy then w else { w with busy := true, running := some task }

/-- Another disk than the previous one invalidates the OPL root and the disc. -/
def invalidate (disk : PhysicalDisk) : MainWindow :=
  match w.selectedDisk with
  | none => w
  | some previous =>
    if previous.number ≠ disk.number ∨ previous.identityTuple ≠ disk.identityTuple then
      { w with oplRoot := none, disc := none }
    else w

def showDisk : MainWindow :=
  match w.shown with
  | none => { w with reformat := false }
  | some disk => { w.invalidate disk with selectedDisk := some disk, reformat := false }

/-- Clearing the combo leaves no current index. -/
def refreshDisks : MainWindow :=
  { w with
    oplRoot := none
    selectedDisk := none
    disc := none
    reformat := false
    currentIndex := none }.runTask .enumerateDisks

/-- The first item that is added becomes the current one. -/
def disksReady (disks : List PhysicalDisk) : MainWindow :=
  { w with disks, currentIndex := if disks.isEmpty then none else some 0 }.showDisk

def prepareSelectedDisk (confirmed directoriesCreated : Bool) : MainWindow :=
  match w.selectedDisk with
  | none => w
  | some disk =>
    if (validateOplCompatibility disk).1 ∧ !w.reformat then
      match disk.mountPoints.head? with
      | none => w
      | some mount =>
        if directoriesCreated then { w with oplRoot := some mount }.runTask .enumerateOptical else w
    else if !w.reformat then w
    else if disk.safetyReasons ≠ [] then w
    else if !confirmed then w
    else w.runTask (.format disk)

/-- The OPL root stays when the directories cannot be created on it. -/
def formatComplete (disk : PhysicalDisk) (directoriesCreated : Bool) : MainWindow :=
  let w := { w with
    disks := w.disks.map fun item => if item.number = disk.number then disk else item
    selectedDisk := some disk }
  if !(validateOplCompatibility disk).1 then w
  else
    match disk.mountPoints.head? with
    | none => w
    | some mount =>
      let w := { w with oplRoot := some mount }
      if directoriesCreated then { w with reformat := false } else w

def discReady (disc : DiscIdentity) : MainWindow :=
  { w with disc := if disc.gameId = "" then none else some disc }

def startRip : MainWindow :=
  match w.disc, w.oplRoot with
  | some _, some root => w.runTask (.rip root)
  | _, _ => w

/-- The handler of a result. -/
def deliver : TaskResult → MainWindow
  | .disks disks => w.disksReady disks
  | .formatted disk directoriesCreated => w.formatComplete disk directoriesCreated
  | .disc disc => w.discReady disc
  | .error | .optical | .installed => w

/-- The results that a task can have; the disk of `wait_for_remount` has passed
`verify_same_identity`. -/
def Delivers : Task → TaskResult → Prop
  | _, .error => True
  | .enumerateDisks, .disks _ => True
  | .format selected, .formatted disk _ => verifySameIdentity selected disk = .ok ()
  | .enumerateOptical, .optical => True
  | .inspect, .disc _ => True
  | .rip _, .installed => True
  | _, _ => False

/-- The events that the enabled controls and the running task admit. -/
def Admits : WindowEvent → Prop
  | .chooseDisk index => w.currentIndex.isSome ∧ index < w.disks.length
  | .refreshDisks => w.busy = false
  | .toggleReformat => w.busy = false ∧ ∃ disk, w.shown = some disk ∧ disk.destructiveAccessAllowed
  | .prepare .. => w.busy = false ∧ w.shown.isSome
  | .refreshOptical | .scanDisc => w.busy = false ∧ w.oplRoot.isSome
  | .startRip => w.busy = false ∧ w.oplRoot.isSome ∧ w.disc.isSome
  | .ripNext => True
  | .taskResult result => ∃ task, w.running = some task ∧ Delivers task result
  | .taskFinished => w.busy = true ∧ w.running.isNone

/-- The window after an event. -/
def handle : WindowEvent → MainWindow
  | .chooseDisk index =>
    if w.currentIndex = some index then w else { w with currentIndex := some index }.showDisk
  | .refreshDisks => w.refreshDisks
  | .toggleReformat => { w with reformat := !w.reformat }
  | .prepare confirmed directoriesCreated => w.prepareSelectedDisk confirmed directoriesCreated
  | .refreshOptical => w.runTask .enumerateOptical
  | .scanDisc => w.runTask .inspect
  | .startRip => w.startRip
  | .ripNext => { w with disc := none }
  | .taskResult result => { w with running := none }.deliver result
  | .taskFinished => { w with busy := false }

end MainWindow

/-- The windows that runs of admitted events reach whose steps all meet `C`. -/
inductive Reachable (C : MainWindow → WindowEvent → Prop) : MainWindow → Prop
  | start : Reachable C {}
  | step {w : MainWindow} {e : WindowEvent} :
      Reachable C w → w.Admits e → C w e → Reachable C (w.handle e)

namespace MainWindow

/-! ### The disk that is shown and the disk that is used -/

/-- The disk that is shown is the selected one, and the OPL root is one of its mount points. -/
structure Agrees (w : MainWindow) : Prop where
  selected : ∀ disk, w.shown = some disk → w.selectedDisk = some disk
  root : ∀ disk root, w.shown = some disk → w.oplRoot = some root → root ∈ disk.mountPoints

/-- Entries of one number and one identity are the same entry. -/
def Distinct (disks : List PhysicalDisk) : Prop :=
  ∀ a ∈ disks, ∀ b ∈ disks, a.number = b.number → a.identityTuple = b.identityTuple → a = b

/-- An enumeration lists every disk once; a finished format finds its disk still shown, and an OPL
root that it does not set is a mount point of the formatted disk. -/
def Settled (w : MainWindow) : WindowEvent → Prop
  | .taskResult (.disks disks) => Distinct disks
  | .taskResult (.formatted disk _) =>
    (∃ current, w.shown = some current ∧ current.number = disk.number) ∧
      ((validateOplCompatibility disk).1 = true ∨
        ∀ root, w.oplRoot = some root → root ∈ disk.mountPoints)
  | _ => True

/-! ### The invariant -/

/-- What every step keeps. -/
structure Sound (w : MainWindow) : Prop where
  agrees : Agrees w
  hidden : w.shown = none → w.selectedDisk = none ∧ w.oplRoot = none
  distinct : Distinct w.disks
  idle : w.busy = false → w.running = none
  loading : w.running = some .enumerateDisks → w.shown = none
  index : ∀ index, w.currentIndex = some index → index < w.disks.length

variable {w : MainWindow}

/-- A window that shows and selects nothing. -/
theorem sound_of_nothing (hindex : w.currentIndex = none) (hselected : w.selectedDisk = none)
    (hroot : w.oplRoot = none) (hdistinct : Distinct w.disks)
    (hidle : w.busy = false → w.running = none) : Sound w := by
  have hshown : w.shown = none := by rw [shown, hindex, Option.bind_none]
  exact
    { agrees := ⟨fun disk hd => (Option.some_ne_none disk (hd.symm.trans hshown)).elim,
        fun disk root hd => (Option.some_ne_none disk (hd.symm.trans hshown)).elim⟩
      hidden := fun _ => ⟨hselected, hroot⟩
      distinct := hdistinct
      idle := hidle
      loading := fun _ => hshown
      index := fun index hi => by
        rw [hindex] at hi
        cases hi }

/-- Parts of the window that the invariant does not look at. -/
theorem Sound.congr (h : Sound w) {w' : MainWindow} (hdisks : w'.disks = w.disks)
    (hindex : w'.currentIndex = w.currentIndex) (hselected : w'.selectedDisk = w.selectedDisk)
    (hroot : w'.oplRoot = w.oplRoot) (hidle : w'.busy = false → w'.running = none)
    (hloading : w'.running = some .enumerateDisks → w.shown = none) : Sound w' := by
  have hshown : w'.shown = w.shown := by rw [shown, shown, hindex, hdisks]
  exact
    { agrees :=
        ⟨fun disk hd => hselected.trans (h.agrees.selected disk (hshown ▸ hd)),
          fun disk root hd hr => h.agrees.root disk root (hshown ▸ hd) (hroot ▸ hr)⟩
      hidden := fun hnone => by
        rw [hselected, hroot]
        exact h.hidden (hshown ▸ hnone)
      distinct := hdisks ▸ h.distinct
      idle := hidle
      loading := fun hl => hshown.trans (hloading hl)
      index := fun index hi => hdisks ▸ h.index index (hindex ▸ hi) }

/-- Starting a task is harmless, except for an enumeration while a disk is shown. -/
theorem Sound.runTask (h : Sound w) {task : Task}
    (htask : task = .enumerateDisks → w.shown = none) :
    Sound (w.runTask task) := by
  unfold MainWindow.runTask
  split
  · exact h
  · exact h.congr rfl rfl rfl rfl nofun fun hl => htask (Option.some.inj hl)

/-- The first mount point of a disk that is ready. -/
theorem exists_mount {disk : PhysicalDisk} (h : (validateOplCompatibility disk).1 = true) :
    ∃ mount, disk.mountPoints.head? = some mount := by
  have hreasons : volumeReasons disk.volumes = [] := by
    simp only [validateOplCompatibility, List.isEmpty_iff, List.append_eq_nil_iff] at h
    exact h.2
  have hmounts : ∃ volume, disk.volumes = [volume] ∧ volume.mountPoints ≠ [] := by
    unfold volumeReasons at hreasons
    split at hreasons
    · rename_i volume hvolumes
      refine ⟨volume, hvolumes, fun hnil => ?_⟩
      rw [hnil] at hreasons
      split at hreasons <;> simp at hreasons
    · simp at hreasons
  obtain ⟨volume, hvolumes, hne⟩ := hmounts
  obtain ⟨mount, rest, hmount⟩ := List.exists_cons_of_ne_nil hne
  exact ⟨mount, by simp [PhysicalDisk.mountPoints, hvolumes, hmount]⟩

/-! ### The handlers -/

@[simp] theorem disks_invalidate (disk : PhysicalDisk) : (w.invalidate disk).disks = w.disks := by
  unfold invalidate
  repeat' split
  all_goals rfl

@[simp] theorem currentIndex_invalidate (disk : PhysicalDisk) :
    (w.invalidate disk).currentIndex = w.currentIndex := by
  unfold invalidate
  repeat' split
  all_goals rfl

@[simp] theorem busy_invalidate (disk : PhysicalDisk) : (w.invalidate disk).busy = w.busy := by
  unfold invalidate
  repeat' split
  all_goals rfl

@[simp] theorem running_invalidate (disk : PhysicalDisk) :
    (w.invalidate disk).running = w.running := by
  unfold invalidate
  repeat' split
  all_goals rfl

/-- An OPL root survives only if the previous disk was the same. -/
theorem same_of_oplRoot_invalidate {disk : PhysicalDisk} {root : String}
    (h : (w.invalidate disk).oplRoot = some root) : w.oplRoot = some root ∧
      ∀ previous, w.selectedDisk = some previous →
        previous.number = disk.number ∧ previous.identityTuple = disk.identityTuple := by
  unfold invalidate at h
  split at h
  · rename_i hnone
    exact ⟨h, fun previous hp => by rw [hnone] at hp; cases hp⟩
  · rename_i previous hprevious
    split at h
    · cases h
    · rename_i hsame
      refine ⟨h, fun previous' hp => ?_⟩
      rw [hprevious] at hp
      cases hp
      exact ⟨of_not_not fun hne => hsame (.inl hne), of_not_not fun hne => hsame (.inr hne)⟩

/-- After `_show_disk` window and selection agree, if the OPL root belonged to the previous disk and
that disk is the shown one when it is the same hardware. -/
theorem showDisk_sound (hdistinct : Distinct w.disks) (hidle : w.busy = false → w.running = none)
    (hloading : w.running ≠ some .enumerateDisks)
    (hindex : ∀ index, w.currentIndex = some index → index < w.disks.length)
    (hhidden : w.shown = none → w.selectedDisk = none ∧ w.oplRoot = none)
    (hroot : ∀ disk root, w.shown = some disk → w.oplRoot = some root →
      ∃ previous, w.selectedDisk = some previous ∧ (previous.number = disk.number →
        previous.identityTuple = disk.identityTuple → root ∈ disk.mountPoints)) :
    Sound w.showDisk := by
  unfold showDisk
  cases hshown : w.shown with
  | none =>
    have hsame : ({ w with reformat := false } : MainWindow).shown = none := hshown
    exact
      { agrees := ⟨fun disk hd => (Option.some_ne_none disk (hd.symm.trans hsame)).elim,
          fun disk root hd => (Option.some_ne_none disk (hd.symm.trans hsame)).elim⟩
        hidden := fun _ => hhidden hshown
        distinct := hdistinct
        idle := hidle
        loading := fun hl => (hloading hl).elim
        index := hindex }
  | some disk =>
    have hsame : ({ w.invalidate disk with selectedDisk := some disk, reformat := false } :
        MainWindow).shown = some disk := by
      simpa only [shown, disks_invalidate, currentIndex_invalidate] using hshown
    refine
      { agrees := ⟨fun disk' hd => hsame.symm.trans hd, fun disk' root hd hr => ?_⟩
        hidden := fun hnone => (Option.some_ne_none disk (hsame.symm.trans hnone)).elim
        distinct := by simpa using hdistinct
        idle := by simpa using hidle
        loading := by simpa using fun hl => (hloading hl).elim
        index := by simpa using hindex }
    obtain rfl := Option.some.inj (hsame.symm.trans hd)
    obtain ⟨hold, hprevious⟩ := same_of_oplRoot_invalidate hr
    obtain ⟨previous, hp, hmem⟩ := hroot disk root hshown hold
    exact hmem (hprevious previous hp).1 (hprevious previous hp).2

theorem exists_shown (h : Sound w) (hcombo : w.currentIndex.isSome) :
    ∃ disk, w.shown = some disk := by
  obtain ⟨index, hindex⟩ := Option.isSome_iff_exists.1 hcombo
  refine ⟨w.disks.get ⟨index, h.index index hindex⟩, ?_⟩
  rw [shown, hindex]
  exact List.getElem?_eq_getElem _

theorem mem_disks_of_shown {disk : PhysicalDisk} (h : w.shown = some disk) : disk ∈ w.disks := by
  obtain ⟨index, -, hdisk⟩ := Option.bind_eq_some_iff.1 h
  exact List.mem_of_getElem? hdisk

theorem chooseDisk_sound (h : Sound w) {index : ℕ} (hcombo : w.currentIndex.isSome)
    (hindex : index < w.disks.length) :
    Sound { w with currentIndex := some index }.showDisk := by
  obtain ⟨current, hcurrent⟩ := exists_shown h hcombo
  have hshown : ({ w with currentIndex := some index } : MainWindow).shown =
      some (w.disks.get ⟨index, hindex⟩) := List.getElem?_eq_getElem hindex
  refine showDisk_sound h.distinct h.idle (fun hl => ?_) ?_ (fun hnone => ?_)
    fun disk root hd hr => ?_
  · rw [h.loading hl] at hcurrent
    cases hcurrent
  · rintro _ ⟨⟩
    exact hindex
  · rw [hshown] at hnone
    cases hnone
  · refine ⟨current, h.agrees.selected current hcurrent, fun hnumber hidentity => ?_⟩
    have hmem : disk ∈ w.disks :=
      mem_disks_of_shown (w := { w with currentIndex := some index }) hd
    rw [← h.distinct current (mem_disks_of_shown hcurrent) disk hmem hnumber hidentity]
    exact h.agrees.root current root hcurrent hr

/-- A task that is not an enumeration of the disks may start at any time. -/
theorem runTask_sound (h : Sound w) {task : Task} (htask : task ≠ .enumerateDisks) :
    Sound (w.runTask task) := h.runTask fun heq => (htask heq).elim

theorem refreshDisks_sound (h : Sound w) : Sound w.refreshDisks := by
  have hcleared : Sound { w with
      oplRoot := none
      selectedDisk := none
      disc := none
      reformat := false
      currentIndex := none } := sound_of_nothing rfl rfl rfl h.distinct h.idle
  exact hcleared.runTask fun _ => rfl

theorem disksReady_sound (h : Sound w) (hloading : w.running = some .enumerateDisks)
    {disks : List PhysicalDisk} (hdistinct : Distinct disks) :
    Sound ({ w with running := none }.disksReady disks) := by
  obtain ⟨hselected, hroot⟩ := h.hidden (h.loading hloading)
  refine showDisk_sound hdistinct (fun _ => rfl) (Option.some_ne_none _).symm (fun index hi => ?_)
    (fun _ => ⟨hselected, hroot⟩) fun disk root _ hr => ?_
  · by_cases hempty : disks.isEmpty
    · rw [if_pos hempty] at hi
      cases hi
    · rw [if_neg hempty] at hi
      cases hi
      exact List.length_pos_iff.2 fun hnil => hempty (List.isEmpty_iff.2 hnil)
  · rw [hroot] at hr
    cases hr

/-- The formatted disk takes the place of the entries with its number. -/
theorem distinct_replace {disks : List PhysicalDisk} (h : Distinct disks) (disk : PhysicalDisk) :
    Distinct (disks.map fun item => if item.number = disk.number then disk else item) := by
  rintro _ hmem _ hmem' hnumber hidentity
  obtain ⟨a, ha, rfl⟩ := List.mem_map.1 hmem
  obtain ⟨b, hb, rfl⟩ := List.mem_map.1 hmem'
  by_cases hna : a.number = disk.number <;> by_cases hnb : b.number = disk.number
  · rw [if_pos hna, if_pos hnb]
  · rw [if_pos hna, if_neg hnb] at hnumber
    exact (hnb hnumber.symm).elim
  · rw [if_neg hna, if_pos hnb] at hnumber
    exact (hna hnumber).elim
  · rw [if_neg hna, if_neg hnb] at hnumber hidentity ⊢
    exact h a ha b hb hnumber hidentity

theorem formatComplete_sound (h : Sound w) {disk current : PhysicalDisk}
    (hshown : w.shown = some current) (hnumber : current.number = disk.number)
    (hready : (validateOplCompatibility disk).1 = true ∨
      ∀ root, w.oplRoot = some root → root ∈ disk.mountPoints) (directoriesCreated : Bool) :
    Sound ({ w with running := none }.formatComplete disk directoriesCreated) := by
  obtain ⟨index, hindex, hcurrent⟩ := Option.bind_eq_some_iff.1 hshown
  let disks := w.disks.map fun item => if item.number = disk.number then disk else item
  have hreplaced : disks[index]? = some disk := by
    rw [List.getElem?_map, hcurrent, Option.map_some, if_pos hnumber]
  -- the entry that is shown is the formatted disk, whatever becomes of the OPL root
  have hsound : ∀ w' : MainWindow, w'.disks = disks → w'.currentIndex = w.currentIndex →
      w'.selectedDisk = some disk → w'.running = none →
      (∀ root, w'.oplRoot = some root → root ∈ disk.mountPoints) → Sound w' := by
    intro w' hdisks hcombo hselected hrunning hroot
    have hshown' : w'.shown = some disk := by
      rw [shown, hcombo, hindex, hdisks]
      exact hreplaced
    exact
      { agrees := ⟨fun disk' hd => hselected.trans (hshown'.symm.trans hd),
        fun disk' root hd hr => by
          rw [← Option.some.inj (hshown'.symm.trans hd)]
          exact hroot root hr⟩
        hidden := fun hnone => (Option.some_ne_none disk (hshown'.symm.trans hnone)).elim
        distinct := hdisks ▸ distinct_replace h.distinct disk
        idle := fun _ => hrunning
        loading := fun hl => (Option.some_ne_none _ (hl.symm.trans hrunning)).elim
        index := fun i hi => by
          rw [hdisks, List.length_map]
          exact h.index i (hcombo ▸ hi) }
  unfold formatComplete
  by_cases hcompatible : (validateOplCompatibility disk).1 = true
  · obtain ⟨mount, hmount⟩ := exists_mount hcompatible
    simp only [hcompatible, Bool.not_true, Bool.false_eq_true, if_false, hmount]
    have hroot : ∀ root, some mount = some root → root ∈ disk.mountPoints := by
      rintro _ ⟨⟩
      exact List.mem_of_mem_head? hmount
    split
    · exact hsound _ rfl rfl rfl rfl hroot
    · exact hsound _ rfl rfl rfl rfl hroot
  · simp only [Bool.eq_false_of_not_eq_true hcompatible, Bool.not_false, if_true]
    exact hsound _ rfl rfl rfl rfl (hready.resolve_left hcompatible)

theorem prepare_sound (h : Sound w) (confirmed directoriesCreated : Bool) :
    Sound (w.prepareSelectedDisk confirmed directoriesCreated) := by
  unfold prepareSelectedDisk
  split
  · exact h
  rename_i disk hdisk
  split
  · split
    · exact h
    rename_i mount hmount
    split
    · refine runTask_sound ?_ nofun
      have hmem : mount ∈ disk.mountPoints := List.mem_of_mem_head? hmount
      exact
        { agrees :=
            { selected := h.agrees.selected
              root := fun disk' root hd hr => by
                cases hr
                have hsame := (h.agrees.selected disk' hd).symm.trans hdisk
                rw [Option.some.inj hsame]
                exact hmem }
          hidden := fun hnone => by
            have hselected := (h.hidden hnone).1
            rw [hdisk] at hselected
            cases hselected
          distinct := h.distinct
          idle := h.idle
          loading := h.loading
          index := h.index }
    · exact h
  · repeat' split
    all_goals first | exact h | exact runTask_sound h nofun

/-- One event. -/
theorem Sound.step (h : Sound w) {e : WindowEvent} (hadmits : w.Admits e) (hsettled : Settled w e) :
    Sound (w.handle e) := by
  cases e with
  | chooseDisk index =>
    show Sound (if w.currentIndex = some index then w else _)
    split
    · exact h
    · exact chooseDisk_sound h hadmits.1 hadmits.2
  | refreshDisks => exact refreshDisks_sound h
  | toggleReformat => exact h.congr rfl rfl rfl rfl h.idle h.loading
  | prepare confirmed directoriesCreated => exact prepare_sound h confirmed directoriesCreated
  | refreshOptical => exact runTask_sound h nofun
  | scanDisc => exact runTask_sound h nofun
  | startRip =>
    show Sound w.startRip
    unfold startRip
    split
    · exact runTask_sound h nofun
    · exact h
  | ripNext => exact h.congr rfl rfl rfl rfl h.idle h.loading
  | taskFinished =>
    exact h.congr rfl rfl rfl rfl (fun _ => Option.isNone_iff_eq_none.1 hadmits.2) h.loading
  | taskResult result =>
    have hdone : Sound { w with running := none } :=
      h.congr rfl rfl rfl rfl (fun _ => rfl) fun hl => (Option.some_ne_none _ hl.symm).elim
    obtain ⟨task, htask, hdelivers⟩ := hadmits
    cases result with
    | disks disks =>
      cases task with
      | enumerateDisks => exact disksReady_sound h htask hsettled
      | _ => exact hdelivers.elim
    | formatted disk directoriesCreated =>
      obtain ⟨⟨current, hshown, hnumber⟩, hready⟩ := hsettled
      exact formatComplete_sound h hshown hnumber hready directoriesCreated
    | disc disc =>
      exact hdone.congr rfl rfl rfl rfl (fun _ => rfl) fun hl =>
        (Option.some_ne_none _ hl.symm).elim
    | _ => exact hdone

theorem sound_of_reachable (h : Reachable Settled w) : Sound w := by
  induction h with
  | start => exact sound_of_nothing rfl rfl rfl nofun fun _ => rfl
  | step _ hadmits hsettled ih => exact ih.step hadmits hsettled

/-- The window starts its destructive and its writing task on the disk that it shows. -/
structure ActsOnShown (w : MainWindow) : Prop where
  format : ∀ confirmed directoriesCreated disk, w.Admits (.prepare confirmed directoriesCreated) →
    (w.handle (.prepare confirmed directoriesCreated)).running = some (.format disk) →
    w.shown = some disk
  rip : ∀ root, w.Admits .startRip → (w.handle .startRip).running = some (.rip root) →
    ∃ disk, w.shown = some disk ∧ root ∈ disk.mountPoints

theorem running_runTask {task : Task} (h : w.busy = false) :
    (w.runTask task).running = some task := by
  rw [runTask, h]
  rfl

theorem Sound.actsOnShown (h : Sound w) : ActsOnShown w where
  format confirmed directoriesCreated disk := by
    rintro ⟨hbusy, hsome⟩ hrunning
    obtain ⟨current, hcurrent⟩ := Option.isSome_iff_exists.1 hsome
    have hselected := h.agrees.selected current hcurrent
    have hidle : w.running ≠ some (.format disk) := by
      rw [h.idle hbusy]
      exact (Option.some_ne_none _).symm
    simp only [handle, prepareSelectedDisk, hselected] at hrunning
    split at hrunning
    · split at hrunning
      · exact (hidle hrunning).elim
      · split at hrunning
        · rw [running_runTask (by exact hbusy)] at hrunning
          cases hrunning
        · exact (hidle hrunning).elim
    · repeat' split at hrunning
      all_goals first
        | exact (hidle hrunning).elim
        | (rw [running_runTask hbusy] at hrunning; cases hrunning; exact hcurrent)
  rip root := by
    rintro ⟨hbusy, hroot, hdisc⟩ hrunning
    obtain ⟨root', hroot⟩ := Option.isSome_iff_exists.1 hroot
    obtain ⟨disc, hdisc⟩ := Option.isSome_iff_exists.1 hdisc
    simp only [handle, startRip, hroot, hdisc, running_runTask hbusy] at hrunning
    cases hrunning
    cases hshown : w.shown with
    | none =>
      rw [(h.hidden hshown).2] at hroot
      cases hroot
    | some disk => exact ⟨disk, rfl, h.agrees.root disk root hshown hroot⟩

end MainWindow

open MainWindow

/-- **The drive that is shown is the drive that is acted on**, in every window that is reached by
steps in which a finished format finds its disk still shown. -/
theorem selection_agrees {w : MainWindow} (h : Reachable Settled w) : Agrees w ∧ ActsOnShown w :=
  ⟨(sound_of_reachable h).agrees, (sound_of_reachable h).actsOnShown⟩

/-! ### A format that finishes behind another entry -/

/-- Whenever another disk is shown by then, a finished format breaks the agreement. -/
theorem MainWindow.not_agrees_formatComplete {w : MainWindow} {disk current : PhysicalDisk}
    (hshown : w.shown = some current) (hother : current.number ≠ disk.number)
    (directoriesCreated : Bool) : ¬ Agrees (w.formatComplete disk directoriesCreated) := by
  have hfields : (w.formatComplete disk directoriesCreated).selectedDisk = some disk ∧
      (w.formatComplete disk directoriesCreated).currentIndex = w.currentIndex ∧
      (w.formatComplete disk directoriesCreated).disks =
        w.disks.map fun item => if item.number = disk.number then disk else item := by
    unfold formatComplete
    repeat' split
    all_goals exact ⟨rfl, rfl, rfl⟩
  obtain ⟨hselected, hindex, hdisks⟩ := hfields
  obtain ⟨index, hcombo, hcurrent⟩ := Option.bind_eq_some_iff.1 hshown
  have hstill : (w.formatComplete disk directoriesCreated).shown = some current := by
    rw [shown, hindex, hcombo, hdisks]
    show (w.disks.map _)[index]? = some current
    rw [List.getElem?_map, hcurrent, Option.map_some, if_neg hother]
  intro h
  have hsame : disk = current := Option.some.inj (hselected.symm.trans (h.selected current hstill))
  exact hother (congrArg PhysicalDisk.number hsame.symm)

/-- A disk without a partition table. -/
def sampleRawDisk (number : ℕ) (instanceId : String) : PhysicalDisk where
  number := number
  devicePath := instanceId
  instanceId := instanceId
  model := "Portable SSD"
  usb := true
  partitionStyle := .raw

/-- The first disk after it was formatted. -/
def sampleFormattedDisk : PhysicalDisk :=
  { sampleRawDisk 1 "USBSTOR\\A" with
    partitionStyle := .mbr
    partitions := [{ number := 1 }]
    volumes := [
      { guidPath := "E:", mountPoints := ["E:"], filesystem := some "exFAT", writable := true }] }

def sampleDisks : List PhysicalDisk := [sampleRawDisk 1 "USBSTOR\\A", sampleRawDisk 2 "USBSTOR\\B"]

theorem distinct_sampleDisks : Distinct sampleDisks := by
  rintro a ha b hb hnumber -
  simp only [sampleDisks, List.mem_cons, List.not_mem_nil, or_false] at ha hb
  rcases ha with rfl | rfl <;> rcases hb with rfl | rfl <;> first | rfl | cases hnumber

/-- Two disks are listed, and the first one is being formatted. -/
def formattingWindow : MainWindow :=
  [.refreshDisks, .taskResult (.disks sampleDisks), .taskFinished, .toggleReformat,
    .prepare true true].foldl handle {}

theorem reachable_formattingWindow {C : MainWindow → WindowEvent → Prop}
    (hC : ∀ w e, Settled w e → C w e) : Reachable C formattingWindow := by
  have h₁ := Reachable.start.step (C := C) (e := .refreshDisks) rfl (hC _ _ trivial)
  have h₂ := h₁.step (e := .taskResult (.disks sampleDisks)) ⟨_, rfl, trivial⟩
    (hC _ _ distinct_sampleDisks)
  have h₃ := h₂.step (e := .taskFinished) ⟨rfl, rfl⟩ (hC _ _ trivial)
  have h₄ := h₃.step (e := .toggleReformat) ⟨rfl, _, rfl, rfl⟩ (hC _ _ trivial)
  exact h₄.step (e := .prepare true true) ⟨rfl, rfl⟩ (hC _ _ trivial)

/-- The formatted disk is still shown when the format finishes. -/
theorem selection_agrees_sample :
    Agrees (formattingWindow.handle (.taskResult (.formatted sampleFormattedDisk true))) := by
  have hdone := (reachable_formattingWindow (C := Settled) fun _ _ => id).step
    (e := .taskResult (.formatted sampleFormattedDisk true)) ⟨_, rfl, rfl⟩
    ⟨⟨_, rfl, rfl⟩, .inl (by decide +kernel)⟩
  exact (selection_agrees hdone).1

/-- The user shows the second disk before the format of the first one finishes. -/
theorem not_selection_agrees :
    ¬ ∀ w, Reachable (fun _ _ => True) w → Agrees w ∧ ActsOnShown w := by
  intro h
  have hother := (reachable_formattingWindow fun _ _ _ => trivial).step (e := .chooseDisk 1)
    ⟨rfl, by decide⟩ trivial
  have hdone := hother.step (e := .taskResult (.formatted sampleFormattedDisk true)) ⟨_, rfl, rfl⟩
    trivial
  exact not_agrees_formatComplete rfl (by decide) true (h _ hdone).1

end Ps2Ripper
