import Ps2Ripper.Storage.Allocation
import Ps2Ripper.Storage.Partutils

/-!
# The chains of a volume

A volume with its open chains, and what is done to them: clusters are allocated, chains are cut off
and erased, and opened again.

* `OpenVolume`, `ChainOp`, `OpenVolume.step`, `OpenVolume.run`: a volume, and the operations one
  after the other;
* `eraseChain`, `closeChain`: clusters are given back by what an entry or an open file says of them;
* `ChainRecord.Describes`, `OpenVolume.AsksAll`: that this is true of the chain;
* `OpenVolume.Sound`: no cluster has two owners, none is lost, and the bitmap and the table say so;
* `OpenVolume.run_sound`: this holds after any operations;
* `reopen_eq`, `mount_sound`: what is on the disk suffices to find the chains and the free clusters.
-/

namespace Ps2Ripper

open Binary Runs Bitmap
open scoped List

/-- A volume, with the runs of its chains. -/
structure OpenVolume where
  bitmap : Bitmap
  chains : List Dict

/-- What is said of a chain outside its runs, by a directory entry (`Start()`, `IsContig()` and
`u64DataLength`) or by the open file (`start`, `nofat` and `filesize`). -/
structure ChainRecord where
  start : ℕ
  contiguous : Bool
  length : ℕ

/-- The clusters of so many bytes. -/
def clustersFor (cluster length : ℕ) : ℕ := (length + cluster - 1) / cluster

/-- What is done to the `k`-th chain: `count` clusters are added; what is behind the cluster `x` is
cut off; it is erased with its directory entry; its file is closed, after its entry may have been
deleted. -/
inductive ChainOp where
  | create
  | alloc (k count : ℕ)
  | trunc (k x : ℕ)
  | erase (k : ℕ) (entry : ChainRecord)
  | close (k : ℕ) (deleted : Bool) (file : ChainRecord)

/-- The chain that an operation is about. -/
def ChainOp.chain? : ChainOp → Option ℕ
  | .create => none
  | .alloc k _ | .trunc k _ | .erase k _ | .close k _ _ => some k

/-- What `Dirtable.erase` gives back: as many clusters as the entry says if it calls them
contiguous, or those that the table leads through. -/
def eraseChain (b : Bitmap) (cluster : ℕ) (entry : ChainRecord) : Except AllocError Bitmap :=
  if entry.start = 0 then .ok b
  else if entry.contiguous then b.free1 entry.start (clustersFor cluster entry.length)
  else b.free (b.fat.size + 1) entry.start

/-- What `Handle.close` gives back, of a file whose entry was deleted: as many clusters as its size
says if it is contiguous, or its runs. -/
def closeChain (b : Bitmap) (cluster : ℕ) (deleted : Bool) (file : ChainRecord) (runs : Dict) :
    Except AllocError Bitmap :=
  if deleted = false ∨ file.start = 0 then .ok b
  else if file.contiguous then b.free1 file.start (clustersFor cluster file.length)
  else if runs = [] then b.free (b.fat.size + 1) file.start
  else b.freeRuns runs

/-! ### What the operations are for -/

/-- Files as lists of clusters, on a volume of `n` clusters of which some are `used` otherwise.  A
file gets clusters that nobody has, and is refused only if there are not enough. -/
inductive FileStep (n : ℕ) (used : List ℕ) : List (List ℕ) → ChainOp → List (List ℕ) → Prop
  | create (files : List (List ℕ)) : FileStep n used files .create (files ++ [[]])
  | alloc {files : List (List ℕ)} {k : ℕ} {file new : List ℕ} (hk : files[k]? = some file)
      (hnodup : new.Nodup)
      (hnew : ∀ c ∈ new, (2 ≤ c ∧ c < 2 + n) ∧ c ∉ files.flatten ∧ c ∉ used) :
      FileStep n used files (.alloc k new.length) (files.set k (file ++ new))
  | refuse {files : List (List ℕ)} {k count : ℕ}
      (hfull : n < files.flatten.length + used.length + count) :
      FileStep n used files (.alloc k count) files
  | trunc {files : List (List ℕ)} {k x : ℕ} {file : List ℕ} (hk : files[k]? = some file) :
      FileStep n used files (.trunc k x) (files.set k (file.take (x + 1)))
  | erase (files : List (List ℕ)) (k : ℕ) (entry : ChainRecord) :
      FileStep n used files (.erase k entry) (files.set k [])
  | keep (files : List (List ℕ)) (k : ℕ) (file : ChainRecord) :
      FileStep n used files (.close k false file) files
  | delete (files : List (List ℕ)) (k : ℕ) (file : ChainRecord) :
      FileStep n used files (.close k true file) (files.set k [])
  | absent {files : List (List ℕ)} {op : ChainOp} {k : ℕ} (hop : op.chain? = some k)
      (hk : files[k]? = none) :
      FileStep n used files op files

/-- Operations one after the other. -/
inductive FileRun (n : ℕ) (used : List ℕ) : List (List ℕ) → List ChainOp → List (List ℕ) → Prop
  | nil (files : List (List ℕ)) : FileRun n used files [] files
  | cons {files files' files'' : List (List ℕ)} {op : ChainOp} {ops : List ChainOp}
      (hstep : FileStep n used files op files') (hrest : FileRun n used files' ops files'') :
      FileRun n used files (op :: ops) files''

/-- `_get_frags()`: the runs of a chain that is opened, of `size` clusters if it needs no table. -/
def getRuns (fat : Fat) (start : ℕ) (nofat : Bool) (size : ℕ) : Option (Dict × Fat) :=
  if nofat then some ([(start, size)], fat) else fat.getFrags (fat.size + 1) start []

/-- A record agrees with the runs of its chain: it has its first cluster, calls it contiguous if it
is one run, and has as many bytes then as need its clusters. -/
structure ChainRecord.Describes (cluster : ℕ) (record : ChainRecord) (runs : Dict) : Prop where
  start : record.start = (runs.headD (0, 0)).1
  contiguous : runs ≠ [] → (record.contiguous = true ↔ runs.length = 1)
  length : runs.length = 1 → clustersFor cluster record.length = clusters runs

namespace OpenVolume

/-- The `k`-th chain has other runs. -/
def replace (v : OpenVolume) (k : ℕ) (out : Except AllocError (Bitmap × Dict)) (refused : Bitmap) :
    OpenVolume × Option AllocError :=
  match out with
  | .ok (b, runs) => ({ bitmap := b, chains := v.chains.set k runs }, none)
  | .error e => ({ v with bitmap := refused }, some e)

/-- One operation, on a volume with clusters of so many bytes.  A chain that is not there is left
alone. -/
def step (cluster : ℕ) (v : OpenVolume) (op : ChainOp) : OpenVolume × Option AllocError :=
  match op with
  | .create => ({ v with chains := v.chains ++ [[]] }, none)
  | .alloc k count =>
    match v.chains[k]? with
    | none => (v, none)
    | some runs =>
      v.replace k ((v.bitmap.alloc runs count).map fun out => out.2) v.bitmap.mapCompact
  | .trunc k x =>
    match v.chains[k]? with
    | none => (v, none)
    | some runs => v.replace k (v.bitmap.trunc runs x) v.bitmap
  | .erase k entry =>
    match v.chains[k]? with
    | none => (v, none)
    | some _ => v.replace k ((eraseChain v.bitmap cluster entry).map fun b => (b, [])) v.bitmap
  | .close k deleted file =>
    match v.chains[k]? with
    | none => (v, none)
    | some runs => v.replace k ((closeChain v.bitmap cluster deleted file runs).map fun b =>
        (b, if deleted then [] else runs)) v.bitmap

/-- The operations one after the other, and what was refused. -/
def run (cluster : ℕ) : OpenVolume → List ChainOp → OpenVolume × List AllocError
  | v, [] => (v, [])
  | v, op :: ops =>
    let out := v.step cluster op
    let rest := run cluster out.1 ops
    (rest.1, out.2.toList ++ rest.2)

/-- The files of a volume: the clusters of each, in their order. -/
def files (v : OpenVolume) : List (List ℕ) := v.chains.map expand

/-- What a caller keeps to: something is allocated, a chain is cut off inside, and what is said of a
chain that is given back is true of it. -/
def Asks (cluster : ℕ) (v : OpenVolume) : ChainOp → Prop
  | .alloc _ count => 0 < count
  | .trunc k x => ∀ runs, v.chains[k]? = some runs → x < clusters runs
  | .erase k entry => ∀ runs, v.chains[k]? = some runs → entry.Describes cluster runs
  | .close k true file => ∀ runs, v.chains[k]? = some runs → file.Describes cluster runs
  | _ => True

/-- A caller keeps to it all the time. -/
def AsksAll (cluster : ℕ) : OpenVolume → List ChainOp → Prop
  | _, [] => True
  | v, op :: ops => v.Asks cluster op ∧ AsksAll cluster (v.step cluster op).1 ops

/-- Every cluster is free, or of one chain, or of those `used` for other things; and the table leads
through the chains. -/
structure Sound (n : ℕ) (used : List ℕ) (v : OpenVolume) : Prop where
  regionLength : v.bitmap.regionLength = n
  bitmap : v.bitmap.Sound (v.chains.flatMap expand ++ used)
  chains : ∀ runs ∈ v.chains, ChainOk v.bitmap.fat runs

variable {v : OpenVolume} {used : List ℕ} {k n : ℕ} {runs runs' : Dict} {b : Bitmap}

/-- The clusters of a chain, and those of the others. -/
theorem Sound.focus (h : v.Sound n used) (hk : v.chains[k]? = some runs) :
    ∃ rest, v.chains.Perm (runs :: rest) ∧ (∀ runs', (v.chains.set k runs').Perm (runs' :: rest)) ∧
      v.bitmap.Sound (expand runs ++ (rest.flatMap expand ++ used)) ∧
      ChainOk v.bitmap.fat runs := by
  obtain ⟨hlt, hget⟩ := List.getElem?_eq_some_iff.1 hk
  have hperm : v.chains.Perm (runs :: v.chains.eraseIdx k) :=
    hget ▸ (List.getElem_cons_eraseIdx_perm hlt).symm
  refine ⟨v.chains.eraseIdx k, hperm, fun runs' => List.set_perm_cons_eraseIdx hlt runs', ?_,
    h.chains runs (List.mem_of_getElem? hk)⟩
  refine h.bitmap.of_perm ?_
  rw [← List.append_assoc, ← List.flatMap_cons]
  exact (hperm.flatMap_right expand).append_right used

/-- Another bitmap and other runs of one chain; the entries of the other chains are as they were. -/
theorem Sound.replaced (h : v.Sound n used) {rest : List Dict}
    (hperm : v.chains.Perm (runs :: rest))
    (hset : (v.chains.set k runs').Perm (runs' :: rest))
    (hb : b.Sound (expand runs' ++ (rest.flatMap expand ++ used))) (hchain : ChainOk b.fat runs')
    (hsame : ∀ c ∈ rest.flatMap expand ++ used, b.fat.entry c = v.bitmap.fat.entry c)
    (hregion : b.regionLength = v.bitmap.regionLength) :
    Sound n used { bitmap := b, chains := v.chains.set k runs' } := by
  refine ⟨hregion.trans h.regionLength, hb.of_perm ?_, fun x hx => ?_⟩
  · rw [← List.append_assoc, ← List.flatMap_cons]
    exact (hset.flatMap_right expand).symm.append_right used
  · rcases List.mem_cons.1 (hset.mem_iff.1 hx) with rfl | hx
    · exact hchain
    · refine (h.chains x (hperm.mem_iff.2 (List.mem_cons_of_mem _ hx))).congr fun c hc => ?_
      exact hsame c (List.mem_append_left _ (List.mem_flatMap.2 ⟨x, hx, hc⟩))

theorem first_ne_zero {r : ℕ × ℕ} {rest : Dict} {others : List ℕ}
    (h : b.Sound (expand (r :: rest) ++ others)) (hpos : 0 < r.2) : r.1 ≠ 0 := by
  have hmem : r.1 ∈ expand (r :: rest) ++ others := by
    rw [expand_cons]
    simp [hpos]
  have hbounds := h.owned_bounds hmem
  omega

/-- A single run is given back at once, others through the table. -/
theorem eraseChain_spec {cluster : ℕ} {entry : ChainRecord} {others : List ℕ}
    (h : b.Sound (expand runs ++ others)) (hchain : ChainOk b.fat runs)
    (hentry : entry.Describes cluster runs) :
    ∃ b', eraseChain b cluster entry = .ok b' ∧ Released others b (clusters runs) b' := by
  unfold eraseChain
  rcases runs with _ | ⟨r, rest⟩
  · have hstart : entry.start = 0 := hentry.start
    rw [if_pos hstart]
    exact ⟨b, rfl, h, rfl, rfl, by simp [clusters]⟩
  have hpos := hchain.pos r List.mem_cons_self
  have hstart : entry.start = r.1 := hentry.start
  have hkind := hentry.contiguous (List.cons_ne_nil r rest)
  rw [hstart, if_neg (first_ne_zero h hpos)]
  rcases rest with _ | ⟨r', rest⟩
  · rw [if_pos (hkind.2 rfl), hentry.length rfl]
    exact free1_released (by simpa [clusters] using h) (by simpa [clusters] using hpos)
  · rw [if_neg (mt hkind.1 (by simp))]
    have hrounds : (r' :: rest).length < b.fat.size + 1 := by
      have hle : (r :: r' :: rest).length ≤ b.regionLength := h.runs_le hchain.pos
      rw [h.size]
      simp only [List.length_cons] at hle ⊢
      omega
    exact free_spec _ h hchain.pos hchain.separate (hchain.linked (by simp)) hrounds

theorem closeChain_spec {cluster : ℕ} {file : ChainRecord} {others : List ℕ}
    (h : b.Sound (expand runs ++ others)) (hchain : ChainOk b.fat runs)
    (hfile : file.Describes cluster runs) :
    ∃ b', closeChain b cluster true file runs = .ok b' ∧ Released others b (clusters runs) b' := by
  unfold closeChain
  rcases runs with _ | ⟨r, rest⟩
  · have hstart : file.start = 0 := hfile.start
    rw [if_pos (.inr hstart)]
    exact ⟨b, rfl, h, rfl, rfl, by simp [clusters]⟩
  have hpos := hchain.pos r List.mem_cons_self
  have hstart : file.start = r.1 := hfile.start
  have hkind := hfile.contiguous (List.cons_ne_nil r rest)
  rw [hstart, if_neg (by simpa using first_ne_zero h hpos)]
  rcases rest with _ | ⟨r', rest⟩
  · rw [if_pos (hkind.2 rfl), hfile.length rfl]
    exact free1_released (by simpa [clusters] using h) (by simpa [clusters] using hpos)
  · rw [if_neg (mt hkind.1 (by simp)), if_neg (List.cons_ne_nil r _)]
    exact freeRuns_spec h hchain.pos

theorem files_set (v : OpenVolume) (k : ℕ) (b : Bitmap) (runs' : Dict) :
    files { bitmap := b, chains := v.chains.set k runs' } = v.files.set k (expand runs') :=
  List.map_set

theorem files_getElem? (hk : v.chains[k]? = some runs) : v.files[k]? = some (expand runs) := by
  rw [files, List.getElem?_map, hk]
  rfl

theorem files_absent (hk : v.chains[k]? = none) : v.files[k]? = none := by
  rw [files, List.getElem?_map, hk]
  rfl

theorem flatten_files (v : OpenVolume) : v.files.flatten = v.chains.flatMap expand := rfl

theorem replace_self (hk : v.chains[k]? = some runs) (refused : Bitmap) :
    v.replace k (.ok (v.bitmap, runs)) refused = (v, none) := by
  obtain ⟨hlt, rfl⟩ := List.getElem?_eq_some_iff.1 hk
  rw [replace, List.set_getElem_self]

/-- What an operation is to do, and what it may be refused for. -/
structure Kept (n : ℕ) (used : List ℕ) (v : OpenVolume) (op : ChainOp)
    (out : OpenVolume × Option AllocError) : Prop where
  files : FileStep n used v.files op out.1.files
  sound : Sound n used out.1
  refused : ∀ e ∈ out.2, ∃ message, e = .exhausted message

/-- **One operation.**  It does to the files what it is for, and keeps what holds of the volume. -/
theorem Sound.step {cluster : ℕ} (h : v.Sound n used) (op : ChainOp) (hop : v.Asks cluster op) :
    Kept n used v op (v.step cluster op) := by
  have hnone : ∀ e ∈ (none : Option AllocError), ∃ message, e = .exhausted message :=
    fun e he => nomatch he
  cases op with
  | create =>
    refine ⟨?_, ⟨h.regionLength, ?_, fun x hx => ?_⟩, hnone⟩
    · have hfiles : files { v with chains := v.chains ++ [[]] } = v.files ++ [[]] := by simp [files]
      exact hfiles ▸ FileStep.create v.files
    · have hsame : (v.chains ++ [[]]).flatMap expand = v.chains.flatMap expand := by simp
      exact hsame ▸ h.bitmap
    · rcases List.mem_append.1 hx with hx | hx
      · exact h.chains x hx
      · rw [List.mem_singleton.1 hx]
        exact ChainOk.nil _
  | alloc k count =>
    rw [OpenVolume.step]
    rcases hk : v.chains[k]? with _ | runs
    · exact ⟨.absent rfl (files_absent hk), h, hnone⟩
    obtain ⟨rest, hperm, hset, hb, hchain⟩ := h.focus hk
    dsimp only
    by_cases hfree : (count : ℤ) ≤ v.bitmap.freeClusters
    · obtain ⟨l, b', runs', halloc, hext, -⟩ := alloc_spec hb hchain hop hfree
      rw [halloc]
      refine ⟨?_, h.replaced hperm (hset runs') hext.sound hext.chain hext.same hext.regionLength,
        hnone⟩
      obtain ⟨new, hnew, rfl⟩ := hext.taken
      have hfiles : v.files.flatten.Perm (expand runs ++ rest.flatMap expand) := by
        rw [flatten_files, ← List.flatMap_cons]
        exact hperm.flatMap_right expand
      have hnodup := hext.sound.owned_nodup
      rw [hnew, List.append_assoc] at hnodup
      have hnodup' := (List.nodup_append.1 hnodup).2.1
      show FileStep n used v.files _ (files { bitmap := b', chains := v.chains.set k runs' })
      rw [files_set, hnew]
      refine .alloc (files_getElem? hk) (List.nodup_append.1 hnodup').1 fun c hc => ⟨?_, ?_, ?_⟩
      · have hbounds := hext.sound.owned_bounds (c := c) (by simp [hnew, hc])
        rwa [hext.regionLength, h.regionLength] at hbounds
      · rw [hfiles.mem_iff, List.mem_append, not_or]
        refine ⟨fun hmem => ?_, fun hmem => ?_⟩
        · exact (List.nodup_append.1 hnodup).2.2 c hmem c (List.mem_append_left _ hc) rfl
        · exact (List.nodup_append.1 hnodup').2.2 c hc c (List.mem_append_left _ hmem) rfl
      · exact fun hmem =>
          (List.nodup_append.1 hnodup').2.2 c hc c (List.mem_append_right _ hmem) rfl
    · have hless : v.bitmap.freeClusters < count := not_le.1 hfree
      rw [alloc_exhausted hless]
      refine ⟨.refuse ?_, ⟨?_, h.bitmap.mapCompact, fun x hx => ?_⟩, fun e he => ?_⟩
      · have hlength := h.bitmap.perm.length_eq
        have hcount := h.bitmap.count
        rw [List.length_append, List.length_append, List.length_range', h.regionLength] at hlength
        rw [flatten_files]
        omega
      · exact (mapCompact_regionLength _).trans h.regionLength
      · show ChainOk v.bitmap.mapCompact.fat x
        rw [mapCompact_fat]
        exact h.chains x hx
      · obtain rfl := Option.some.inj he
        exact ⟨_, rfl⟩
  | trunc k x =>
    rw [OpenVolume.step]
    rcases hk : v.chains[k]? with _ | runs
    · exact ⟨.absent rfl (files_absent hk), h, hnone⟩
    obtain ⟨rest, hperm, hset, hb, hchain⟩ := h.focus hk
    have hx := hop runs hk
    obtain ⟨b', runs', htrunc, hshort⟩ := trunc_spec hb hchain hx
    dsimp only
    rw [htrunc]
    refine ⟨?_, h.replaced hperm (hset runs') hshort.sound hshort.chain hshort.same
      hshort.regionLength, hnone⟩
    have hlength : clusters runs - (clusters runs - x - 1) = x + 1 := by omega
    have hfile := hshort.kept
    rw [hlength] at hfile
    show FileStep n used v.files _ (files { bitmap := b', chains := v.chains.set k runs' })
    rw [files_set, hfile]
    exact .trunc (files_getElem? hk)
  | erase k entry =>
    rw [OpenVolume.step]
    rcases hk : v.chains[k]? with _ | runs
    · exact ⟨.absent rfl (files_absent hk), h, hnone⟩
    obtain ⟨rest, hperm, hset, hb, hchain⟩ := h.focus hk
    obtain ⟨b', herase, hreleased⟩ := eraseChain_spec hb hchain (hop runs hk)
    dsimp only
    rw [herase]
    refine ⟨?_, h.replaced hperm (hset []) hreleased.sound (ChainOk.nil _)
      (fun c _ => by rw [hreleased.same]) hreleased.regionLength, hnone⟩
    show FileStep n used v.files _ (files { bitmap := b', chains := v.chains.set k [] })
    rw [files_set]
    exact .erase v.files k entry
  | close k deleted file =>
    rw [OpenVolume.step]
    rcases hk : v.chains[k]? with _ | runs
    · exact ⟨.absent rfl (files_absent hk), h, hnone⟩
    obtain ⟨rest, hperm, hset, hb, hchain⟩ := h.focus hk
    cases deleted with
    | false =>
      have hsame : v.replace k
          ((closeChain v.bitmap cluster false file runs).map fun b => (b, runs)) v.bitmap
            = (v, none) := by
        rw [closeChain, if_pos (.inl rfl)]
        exact replace_self hk v.bitmap
      show Kept n used v _ (v.replace k _ _)
      simp only [Bool.false_eq_true, if_false, hsame]
      exact ⟨.keep v.files k file, h, hnone⟩
    | true =>
      obtain ⟨b', hclose, hreleased⟩ := closeChain_spec hb hchain (hop runs hk)
      dsimp only
      rw [hclose]
      refine ⟨?_, h.replaced hperm (hset []) hreleased.sound (ChainOk.nil _)
        (fun c _ => by rw [hreleased.same]) hreleased.regionLength, hnone⟩
      show FileStep n used v.files _ (files { bitmap := b', chains := v.chains.set k [] })
      rw [files_set]
      exact .delete v.files k file

/-- **The clusters of a volume.**  Whatever is done to its chains, by entries and files that agree
with them, the files get, keep and lose the clusters that they should; no cluster ever has two
owners, and none is lost; and nothing is refused but more clusters than there are. -/
theorem run_sound {cluster : ℕ} (h : v.Sound n used) (ops : List ChainOp)
    (hops : v.AsksAll cluster ops) :
    FileRun n used v.files ops (v.run cluster ops).1.files ∧ Sound n used (v.run cluster ops).1 ∧
      ∀ e ∈ (v.run cluster ops).2, ∃ message, e = .exhausted message := by
  induction ops generalizing v with
  | nil => exact ⟨.nil _, h, fun e he => absurd he List.not_mem_nil⟩
  | cons op ops ih =>
    have hstep := h.step op hops.1
    obtain ⟨hrun, hsound, hrefused⟩ := ih hstep.sound hops.2
    refine ⟨.cons hstep.files hrun, hsound, fun e he => ?_⟩
    rcases List.mem_append.1 he with he | he
    · exact hstep.refused e (Option.mem_toList.1 he)
    · exact hrefused e he

/-- Ten clusters, a file in two runs, and a table that leads from the one to the other. -/
def sampleOpenVolume : OpenVolume where
  bitmap :=
    { regionLength := 10
      bits := [0x27, 0]
      freeClusters := 6
      freeClustersMap := [(5, 2), (8, 4)]
      freeClustersFlag := false
      fat :=
        { size := 10
          slots := fun i => if i = 3 then 4 else if i = 4 then 7 else if i = 7 then Fat.last else 0
          decoded := fun _ => none
          decoded_eq := fun _ _ h => nomatch h } }
  chains := [[(3, 2), (7, 1)]]

theorem sampleOpenVolume_sound : Sound 10 [2] sampleOpenVolume := by
  refine ⟨rfl, ⟨by decide, by decide, by decide, fun k => ?_, by decide, rfl, by decide⟩,
    fun runs hruns => ?_⟩
  · by_cases hk : k < 16
    · interval_cases k <;> decide
    · have hzero : lsbFirst.bit (List.take 2 [0x27, 0]) k = false :=
        FreeSpace.bit_take_of_le (by omega)
      have howned : k + 2 ∉ [3, 4, 7, 2] := by
        simp only [List.mem_cons, List.not_mem_nil, or_false]
        omega
      exact iff_of_false (hzero ▸ Bool.false_ne_true)
        howned
  · obtain rfl := List.mem_singleton.1 hruns
    refine ⟨by decide, ⟨by decide, trivial⟩, fun _ => ⟨fun i hi hi' => ?_, fun i hi hi' => ?_⟩⟩
    · interval_cases i <;> decide
    · interval_cases i; decide

theorem run_sound_sample : ∃ v, v = (sampleOpenVolume.run 2048
    [.create, .alloc 1 2, .erase 0 ⟨3, false, 6144⟩, .close 1 true ⟨8, true, 4000⟩,
      .alloc 1 10]).1 ∧
    Sound 10 [2] v := by
  have hfirst : ∀ runs, (sampleOpenVolume.run 2048 [.create, .alloc 1 2]).1.chains[0]? = some runs →
      ChainRecord.Describes 2048 ⟨3, false, 6144⟩ runs := by
    intro runs hruns
    have hchain : (sampleOpenVolume.run 2048 [.create, .alloc 1 2]).1.chains[0]? =
        some [(3, 2), (7, 1)] := by decide
    obtain rfl := Option.some.inj (hchain.symm.trans hruns)
    exact ⟨rfl, by decide, by decide⟩
  have hsecond : ∀ runs, (sampleOpenVolume.run 2048
      [.create, .alloc 1 2, .erase 0 ⟨3, false, 6144⟩]).1.chains[1]? = some runs →
      ChainRecord.Describes 2048 ⟨8, true, 4000⟩ runs := by
    intro runs hruns
    have hchain : (sampleOpenVolume.run 2048
        [.create, .alloc 1 2, .erase 0 ⟨3, false, 6144⟩]).1.chains[1]? = some [(8, 2)] := by
      decide +kernel
    obtain rfl := Option.some.inj (hchain.symm.trans hruns)
    exact ⟨rfl, by decide, by decide⟩
  exact ⟨_, rfl, (run_sound sampleOpenVolume_sound
    [.create, .alloc 1 2, .erase 0 ⟨3, false, 6144⟩, .close 1 true ⟨8, true, 4000⟩, .alloc 1 10]
    ⟨trivial, Nat.succ_pos 1, hfirst, hsecond, Nat.succ_pos 9, trivial⟩).2.1⟩

/-- An entry that says less than the chain has: its second cluster is neither free nor of a file. -/
example : (sampleOpenVolume.run 2048 [.create, .alloc 1 2, .erase 1 ⟨8, true, 2000⟩]).1.chains[1]? =
      some [] ∧
    (sampleOpenVolume.run 2048
      [.create, .alloc 1 2, .erase 1 ⟨8, true, 2000⟩]).1.bitmap.freeClusters =
      5 := by decide +kernel

/-! ### Opening a volume again -/

/-- A bitmap is opened whose bits are those of the clusters that have an owner. -/
theorem mount_spec {bits : Bytes} {owned : List ℕ} {fat : Fat} (hnodup : owned.Nodup)
    (hbounds : ∀ c ∈ owned, 2 ≤ c ∧ c < 2 + n)
    (hbits : ∀ k, lsbFirst.bit bits k = true ↔ k + 2 ∈ owned) (hlength : n ≤ 8 * bits.length)
    (hsize : fat.size = n) (hrepresentable : n + 1 < Fat.reserved) :
    ∃ b, mount n bits fat = some b ∧ b.Sound owned ∧ b.fat = fat ∧ b.regionLength = n := by
  have hlast : FreeSpace.endOfClusters n ≤ bits.length := by
    rw [FreeSpace.endOfClusters]
    omega
  have hpadding : ∀ k, n ≤ k → k < 8 * FreeSpace.endOfClusters n → lsbFirst.bit bits k = false := by
    intro k hk _
    by_contra hset
    have := hbounds _ ((hbits k).1 (by simpa using hset))
    omega
  obtain ⟨map, hmap, hproper, hexpand⟩ := FreeSpace.mapFreeSpace_spec bits n hlast hpadding
  have hset : ((List.range' 2 n).filter fun c => !(!lsbFirst.bit bits (c - 2))).Perm owned := by
    refine (List.perm_ext_iff_of_nodup (List.Nodup.filter _ List.nodup_range') hnodup).2 fun c => ?_
    rw [List.mem_filter, List.mem_range'_1, Bool.not_not]
    constructor
    · rintro ⟨hc, hbit⟩
      rw [hbits, Nat.sub_add_cancel hc.1] at hbit
      exact hbit
    · intro hc
      refine ⟨hbounds c hc, (hbits _).2 ?_⟩
      rwa [Nat.sub_add_cancel (hbounds c hc).1]
  refine ⟨⟨n, bits, (FreeSpace.freeClusters bits n).length, map, false, fat⟩, ?_, ?_, rfl, rfl⟩
  · rw [mount, hmap]
    rfl
  · exact
      { perm := by
          rw [hexpand, FreeSpace.freeClusters]
          exact (hset.symm.append_left _).trans (List.filter_append_perm _ _)
        pos := hproper.pos
        count := by rw [hexpand]
        bits := hbits
        length := hlength
        size := hsize
        representable := hrepresentable }

/-- The clusters that are free and those that have an owner are all. -/
theorem count_eq {owned : List ℕ} (h : b.Sound owned) :
    b.freeClusters + owned.length = b.regionLength := by
  have hlength := h.perm.length_eq
  rw [List.length_append, List.length_range'] at hlength
  rw [h.count]
  omega

/-- **Opening a volume again.**  From the bitmap and the table on the disk the same free clusters
are found, and from the first cluster of each chain its runs. -/
theorem mount_sound (h : v.Sound n used) (fat : Fat) (hfat : Fat.Same v.bitmap.fat fat) :
    ∃ b, mount n v.bitmap.bits fat = some b ∧ Sound n used { bitmap := b, chains := v.chains } ∧
      b.freeClusters = v.bitmap.freeClusters ∧
      ∀ r rest, r :: rest ∈ v.chains → ∃ fat', Fat.Same fat fat' ∧
        getRuns fat r.1 (rest = []) (clusters (r :: rest)) = some (r :: rest, fat') := by
  have hn := h.regionLength
  have hold := h.bitmap
  obtain ⟨b, hmount, hsound, rfl, hregion⟩ := mount_spec (n := n) hold.owned_nodup
    (fun c hc => hn ▸ hold.owned_bounds hc) hold.bits (hn ▸ hold.length)
    (hfat.size.trans (hold.size.trans hn)) (hn ▸ hold.representable)
  have hfree : b.freeClusters = v.bitmap.freeClusters := by
    have hnew := count_eq hsound
    have hall := count_eq hold
    rw [hregion] at hnew
    rw [hn] at hall
    omega
  have hchains : ∀ runs ∈ v.chains, ChainOk b.fat runs := fun runs hruns =>
    (h.chains runs hruns).congr fun c _ => by rw [hfat.entry]
  refine ⟨b, hmount, ⟨hregion, hsound, hchains⟩, hfree,
    fun r rest hmem => ?_⟩
  obtain ⟨k, hk⟩ := List.getElem?_of_mem hmem
  have hv : Sound n used { bitmap := b, chains := v.chains } :=
    ⟨hregion, hsound, hchains⟩
  obtain ⟨others, -, -, hb, hchain⟩ := hv.focus hk
  rcases rest with _ | ⟨r', rest⟩
  · refine ⟨b.fat, .refl _, ?_⟩
    rw [getRuns, if_pos (by simp), clusters]
    simp
  · have hproper := hchain.proper (List.nodup_append.1 hb.owned_nodup).1
    have hwithin : b.fat.Within (r :: r' :: rest) := by
      intro c hc
      have hbounds := hb.owned_bounds (List.mem_append_left _ hc)
      rw [hb.realLast]
      exact ⟨hbounds.1, by have := hbounds.2; dsimp only at this ⊢; omega⟩
    have hrounds : (r' :: rest).length < b.fat.size + 1 := by
      have hle := hb.runs_le hchain.pos
      rw [hb.size]
      simp only [List.length_cons] at hle ⊢
      omega
    obtain ⟨fat', hfrags, hsame⟩ := Fat.getFrags_eq [] hproper hwithin (hchain.linked (by simp))
      hchain.separate _ hrounds
    refine ⟨fat', hsame, ?_⟩
    rw [getRuns, if_neg (by simp), hfrags]
    rfl

theorem mount_sound_sample : ∃ b, mount 10 [0x27, 0] sampleOpenVolume.bitmap.fat = some b ∧
    Sound 10 [2] { bitmap := b, chains := [[(3, 2), (7, 1)]] } := by
  obtain ⟨b, hmount, hsound, -⟩ := mount_sound sampleOpenVolume_sound _ (.refl _)
  exact ⟨b, hmount, hsound⟩

/-! ### A volume that was just formatted -/

theorem markSystem_spec (b : Bitmap) {bitmapClusters upcaseClusters : ℕ}
    (hlength : bitmapClusters + upcaseClusters + 1 ≤ 8 * b.bits.length) :
    ∃ bits, b.markSystem bitmapClusters upcaseClusters = .ok { b with bits } ∧
      bits.length = b.bits.length ∧ ∀ k, lsbFirst.bit bits k =
        if k < bitmapClusters + upcaseClusters + 1 then true else lsbFirst.bit b.bits k := by
  obtain ⟨bits₁, hset₁, hlength₁, hbits₁⟩ := set_spec b false le_rfl
    (by omega : 2 + bitmapClusters ≤ 2 + 8 * b.bits.length)
  have hroom₂ : 2 + bitmapClusters + upcaseClusters ≤ 2 + 8 * bits₁.length := by omega
  obtain ⟨bits₂, hset₂, hlength₂, hbits₂⟩ := set_spec { b with bits := bits₁ } false
    (by omega : 2 ≤ 2 + bitmapClusters) hroom₂
  have hroom₃ : 2 + bitmapClusters + upcaseClusters + 1 ≤ 2 + 8 * bits₂.length := by
    have : bits₂.length = bits₁.length := hlength₂
    omega
  obtain ⟨bits₃, hset₃, hlength₃, hbits₃⟩ := set_spec { b with bits := bits₂ } false
    (by omega : 2 ≤ 2 + bitmapClusters + upcaseClusters) hroom₃
  refine ⟨bits₃, ?_, hlength₃.trans (hlength₂.trans hlength₁), fun k => ?_⟩
  · rw [markSystem, hset₁]
    show (Bitmap.set { b with bits := bits₁ } (2 + bitmapClusters) upcaseClusters false >>= _) = _
    rw [hset₂]
    exact hset₃
  · rw [hbits₃, hbits₂, hbits₁]
    grind

theorem bit_zeros (len k : ℕ) : lsbFirst.bit (zeros len) k = false := by
  have hzero : (zeros len).getD (k / 8) 0 = 0 := by
    rw [zeros, List.getD_eq_getElem?_getD, List.getElem?_replicate]
    split <;> rfl
  rw [BitOrder.bit, hzero]
  simp

/-- **A volume that was just formatted.**  On the blank clusters of the bitmap the formatter marks
those of the bitmap, the table and the root directory; when the volume is opened then, exactly these
have an owner, and as many are free as the formatter says. -/
theorem format_sound (n len bitmapClusters upcaseClusters : ℕ) (fat fat' : Fat)
    (hlength : n ≤ 8 * len) (hfit : bitmapClusters + upcaseClusters + 1 ≤ n)
    (hrepresentable : n + 1 < Fat.reserved) (hfat' : fat'.size = n) :
    ∃ b b' b'', mount n (zeros len) fat = some b ∧
      b.markSystem bitmapClusters upcaseClusters = .ok b' ∧
      mount n (b'.bits.take (FreeSpace.endOfClusters n)) fat' = some b'' ∧
      Sound n (List.range' 2 (bitmapClusters + upcaseClusters + 1)) ⟨b'', []⟩ ∧
      b''.freeClusters = (n : ℤ) - bitmapClusters - upcaseClusters - 1 := by
  have hlast : FreeSpace.endOfClusters n ≤ len ∧ n ≤ 8 * FreeSpace.endOfClusters n := by
    rw [FreeSpace.endOfClusters]
    omega
  obtain ⟨map, hmap, -, -⟩ := FreeSpace.mapFreeSpace_spec (zeros len) n
    (by rw [length_zeros]; exact hlast.1) fun k _ _ => bit_zeros len k
  obtain ⟨bits, hmark, hbits, hset⟩ := markSystem_spec
    ⟨n, zeros len, (FreeSpace.freeClusters (zeros len) n).length, map, false, fat⟩
    (by rw [length_zeros]; omega : bitmapClusters + upcaseClusters + 1 ≤ 8 * (zeros len).length)
  rw [length_zeros] at hbits
  have howned : ∀ k, lsbFirst.bit (bits.take (FreeSpace.endOfClusters n)) k = true ↔
      k + 2 ∈ List.range' 2 (bitmapClusters + upcaseClusters + 1) := by
    intro k
    rw [List.mem_range'_1]
    by_cases hk : k < 8 * FreeSpace.endOfClusters n
    · rw [FreeSpace.bit_take hk, hset]
      by_cases hmarked : k < bitmapClusters + upcaseClusters + 1
      · simp only [hmarked, if_true, true_iff]
        omega
      · rw [if_neg hmarked, bit_zeros]
        simp only [Bool.false_eq_true, false_iff]
        omega
    · rw [FreeSpace.bit_take_of_le (by omega)]
      simp only [Bool.false_eq_true, false_iff]
      omega
  obtain ⟨b'', hmount, hsound, -, hregion⟩ := mount_spec (n := n) List.nodup_range'
    (fun c hc => by rw [List.mem_range'_1] at hc; omega) howned
    (by rw [List.length_take]; omega) hfat' hrepresentable
  refine ⟨_, _, b'', by rw [mount, hmap]; rfl, hmark, hmount,
    ⟨hregion, hsound, fun _ h => absurd h List.not_mem_nil⟩, ?_⟩
  have hcount := count_eq hsound
  rw [List.length_range', hregion] at hcount
  push_cast at hcount
  omega

theorem format_sound_sample : ∃ b, Sound 100 (List.range' 2 4) ⟨b, []⟩ ∧ b.freeClusters = 96 := by
  obtain ⟨-, -, b, -, -, -, hsound, hfree⟩ := format_sound 100 512 1 2
    { sampleOpenVolume.bitmap.fat with size := 100 }
      { sampleOpenVolume.bitmap.fat with size := 100 }
    (by decide) (by decide) (by decide) rfl
  exact ⟨b, hsound, hfree⟩

end OpenVolume

end Ps2Ripper
