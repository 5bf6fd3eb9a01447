import Ps2Ripper.Storage.Chains
import Ps2Ripper.Storage.VhdSpec

/-!
# A chain is a file

The class `Chain` of `FATtools/FAT.py` on an exFAT volume: the bytes of a file or a directory, which
lie in runs of clusters.

* `ChainMap`, `ChainFile`: the runs and the sizes, and where the chain and the stream below it
  stand;
* `seek`, `maxrun4len`, `read`, `write`: the calls, run by run;
* `Placed`: the runs lie in the volume, and no cluster is there twice;
* `chain_run`: programs that stay in the file have the result that they have over plain bytes, and
  change nothing but its bytes;
* `OpenVolume.run_isolated`: so they change no other file of a volume.
-/

namespace Ps2Ripper

open Binary Interactive Prog Runs

/-- Where a chain lies, and its size in clusters and in bytes. -/
structure ChainMap where
  dataoffs : ℕ
  cluster : ℕ
  runs : Dict
  nofat : Bool
  isdirectory : Bool
  writable : Bool
  size : ℕ
  filesize : ℕ

/-- An open chain over the stream of the volume. -/
structure ChainFile extends ChainMap where
  pos : ℕ
  vco : ℕ
  lastvlcn : ℕ × ℕ
  stream : DiskImage

abbrev ChainM : Type → Type := EStateM PyError ChainFile

/-- The offset of a cluster. -/
def ChainMap.cl2offset (m : ChainMap) (cluster : ℕ) : ℕ := m.dataoffs + (cluster - 2) * m.cluster

namespace ChainFile

/-- The cluster with a number in the chain, where `first` clusters lie before the runs. -/
def locate (vcn : ℕ) : Dict → ℕ → Option ℕ
  | [], _ => none
  | r :: rest, first =>
    if first ≤ vcn ∧ vcn < first + r.2 then some (r.1 + vcn - first)
    else locate vcn rest (first + r.2)

/-- The run of a cluster, and the runs behind it. -/
def findRun (lcn : ℕ) : Dict → Option ((ℕ × ℕ) × Dict)
  | [] => none
  | r :: rest => if r.1 ≤ lcn ∧ lcn < r.1 + r.2 then some (r, rest) else findRun lcn rest

/-- The stream is put where the chain stands. -/
def aim (c : ChainFile) : ChainFile :=
  match locate (c.pos / c.cluster) c.runs 0 with
  | some lcn => { c with
      vco := c.pos % c.cluster
      lastvlcn := (c.pos / c.cluster, lcn)
      stream := c.stream.seek (c.cl2offset lcn + c.pos % c.cluster : ℕ) 0 }
  | none => { c with vco := c.pos % c.cluster }

section Calls

-- `_alloc`, which makes a chain longer
variable (alloc : ℕ → ChainM Unit)

/-- A chain is made longer if it stands behind its end, or else stops there. -/
def extend : ChainM Unit := do
  let c ← get
  if c.size < c.pos then
    if c.writable then alloc ((c.pos + c.cluster - 1) / c.cluster - c.size / c.cluster)
    else modify fun c => { c with pos := c.size }
  else pure ()

def seek (offset whence : ℤ) : ChainM Unit := do
  modify fun c => { c with pos :=
    (if whence = 1 then (c.pos : ℤ) + offset
      else if whence = 2 then (if c.size = 0 then (c.pos : ℤ) else c.size + offset)
      else offset).toNat }
  extend alloc
  modify aim

/-- The bytes up to the end of the run, and not more clusters than `length` bytes need. -/
def maxrun4len (length : ℕ) : ChainM ℕ := fun c =>
  let n := (length + c.cluster - 1) / c.cluster
  match findRun c.lastvlcn.2 c.runs with
  | none => .error (.otherError "FATAL! maxrun4len did NOT find current LCN!") c
  | some (r, rest) =>
    let left := r.1 + r.2 - c.lastvlcn.2
    let next :=
      if n < left then c.lastvlcn.2 + n
      else match rest with
        | [] => Fat.last
        | r' :: _ => r'.1
    .ok (min n left * c.cluster) { c with lastvlcn := (c.lastvlcn.1 + n, next) }

def readStream (n : ℕ) : ChainM Bytes := fun c =>
  .ok (c.stream.read n).1 { c with stream := (c.stream.read n).2, pos := c.pos + n }

def writeStream (data : Bytes) : ChainM Unit := fun c =>
  .ok () { c with stream := c.stream.write data, pos := c.pos + data.length }

/-- The rounds of `read`; each of them gets a byte at least. -/
def readLoop : ℕ → ℕ → ChainM Bytes
  | 0, _ => pure []
  | rounds + 1, size =>
    if size = 0 then pure []
    else do
      let most ← maxrun4len size
      let c ← get
      let n := min size (most - c.vco)
      let data ← readStream n
      seek alloc (c.pos + n : ℕ) 0
      return data ++ (← readLoop rounds (size - n))

/-- `read(size)`: nothing behind the end of the file is read. -/
def read (size : ℤ) : ChainM Bytes := do
  let c ← get
  let size := if size < 0 then c.filesize else size.toNat
  let size := if c.filesize < c.pos + size then c.filesize - c.pos else size
  if size = 0 then pure []
  else do
    seek alloc c.pos 0
    if c.nofat then readStream size else readLoop alloc size size

def writeLoop : ℕ → Bytes → ChainM Unit
  | 0, _ => pure ()
  | rounds + 1, data =>
    if data = [] then pure ()
    else do
      let most ← maxrun4len data.length
      let c ← get
      let n := min data.length (most - c.vco)
      writeStream (data.take n)
      seek alloc (c.pos + n : ℕ) 0
      writeLoop rounds (data.drop n)

/-- The clusters that data needs behind the end of the chain. -/
def makeRoom (length : ℕ) : ChainM Unit := do
  let c ← get
  if c.size < c.pos + length then
    alloc ((c.pos + length - c.size + c.cluster - 1) / c.cluster)
  else pure ()

/-- The rest of the clusters of a directory is blank. -/
def blankTip (grown : Bool) : ChainM Unit := modify fun c =>
  if grown ∧ c.isdirectory ∧ c.pos < c.size then
    { c with stream := c.stream.write (zeros (c.size - c.pos)) }
  else c

def write (data : Bytes) : ChainM Unit :=
  if data = [] then pure ()
  else do
    let c ← get
    let grown : Bool := c.size < c.pos + data.length
    makeRoom alloc data.length
    seek alloc c.pos 0
    let c ← get
    if c.nofat then
      writeStream data
      modify fun c => { c with filesize := max c.filesize c.pos }
    else
      writeLoop alloc data.length data
      modify fun c => { c with filesize := max c.filesize c.pos }
      blankTip grown

/-- The calls; `flush` is one of the stream below. -/
def call : (o : RawOp) → ChainM o.Answer
  | .seek offset whence => seek alloc offset whence
  | .tell => return (← get).pos
  | .read size => read alloc size
  | .write data => write alloc data
  | .flush => pure ()

/-- Carry out one call. -/
def perform (c : ChainFile) (o : RawOp) : Except PyError o.Answer × ChainFile :=
  match call alloc o c with
  | .ok a c' => (.ok a, c')
  | .error e c' => (.error e, c')

end Calls

end ChainFile

/-! ### Where the bytes of a chain lie -/

namespace ChainMap

variable (m : ChainMap)

/-- The cluster with a number in the chain. -/
def lcn (k : ℕ) : ℕ := (expand m.runs).getD k 0

/-- Where a byte of the chain lies. -/
def place (x : ℕ) : ℕ := m.cl2offset (m.lcn (x / m.cluster)) + x % m.cluster

/-- The chain lies in a volume of `total` bytes, and no cluster is there twice. -/
structure Placed (total : ℕ) : Prop where
  cluster_pos : 0 < m.cluster
  proper : Proper m.runs
  size_eq : m.size = (expand m.runs).length * m.cluster
  contiguous : m.nofat = true → ∃ r, m.runs = [r]
  inside : ∀ l ∈ expand m.runs, 2 ≤ l ∧ m.cl2offset l + m.cluster ≤ total
  filesize_le : m.filesize ≤ m.size

variable {m} {total x y k j : ℕ}

theorem Placed.div_lt (h : m.Placed total) (hx : x < m.size) :
    x / m.cluster < (expand m.runs).length :=
  Nat.div_lt_of_lt_mul (by rw [Nat.mul_comm, ← h.size_eq]; exact hx)

theorem lcn_eq (hk : k < (expand m.runs).length) : (expand m.runs)[k]? = some (m.lcn k) := by
  rw [lcn, List.getD_eq_getElem _ _ hk, List.getElem?_eq_getElem hk]

theorem lcn_mem (hk : k < (expand m.runs).length) : m.lcn k ∈ expand m.runs :=
  List.mem_of_getElem? (lcn_eq hk)

theorem Placed.lcn_inj (h : m.Placed total) (hk : k < (expand m.runs).length)
    (hj : j < (expand m.runs).length) (heq : m.lcn k = m.lcn j) : k = j := by
  rw [lcn, lcn, List.getD_eq_getElem _ _ hk, List.getD_eq_getElem _ _ hj] at heq
  exact (h.proper.nodup.getElem_inj_iff).1 heq

/-- From a byte on, the rest of its cluster lies behind it. -/
theorem Placed.place_le (h : m.Placed total) (hx : x < m.size) :
    m.place x + (m.cluster - x % m.cluster) ≤ total := by
  have hmod := Nat.mod_lt x h.cluster_pos
  have hin := (h.inside _ (lcn_mem (h.div_lt hx))).2
  unfold place
  omega

/-- Bytes of chains in one volume that lie at one place are bytes of one cluster. -/
theorem Placed.lcn_of_place {m' : ChainMap} {total' : ℕ} (h : m.Placed total)
    (h' : m'.Placed total')
    (hdataoffs : m'.dataoffs = m.dataoffs) (hcluster : m'.cluster = m.cluster) (hx : x < m.size)
    (hy : y < m'.size) (heq : m.place x = m'.place y) :
    m.lcn (x / m.cluster) = m'.lcn (y / m.cluster) ∧ x % m.cluster = y % m.cluster := by
  have hkx := h.div_lt hx
  have hky := h'.div_lt hy
  rw [hcluster] at hky
  obtain ⟨hlowx, -⟩ := h.inside _ (lcn_mem hkx)
  obtain ⟨hlowy, -⟩ := h'.inside _ (lcn_mem hky)
  have hsum : (m.lcn (x / m.cluster) - 2) * m.cluster + x % m.cluster =
      (m'.lcn (y / m.cluster) - 2) * m.cluster + y % m.cluster := by
    unfold place cl2offset at heq
    rw [hcluster, hdataoffs] at heq
    omega
  have hdiv := congrArg (· / m.cluster) hsum
  have hmod := congrArg (· % m.cluster) hsum
  simp only [Nat.mul_comm _ m.cluster, Nat.mul_add_div h.cluster_pos, Nat.mul_add_mod,
    Nat.mod_mod, Nat.div_eq_of_lt (Nat.mod_lt _ h.cluster_pos), Nat.add_zero] at hdiv hmod
  exact ⟨by omega, hmod⟩

/-- No two bytes lie at one place. -/
theorem Placed.place_inj (h : m.Placed total) (hx : x < m.size) (hy : y < m.size)
    (heq : m.place x = m.place y) : x = y := by
  obtain ⟨hlcn, hmod⟩ := h.lcn_of_place h rfl rfl hx hy heq
  have hsame : x / m.cluster = y / m.cluster := h.lcn_inj (h.div_lt hx) (h.div_lt hy) hlcn
  rw [← Nat.div_add_mod x m.cluster, ← Nat.div_add_mod y m.cluster, hsame, hmod]

end ChainMap

namespace ChainFile

variable {runs : Dict} {vcn first l : ℕ}

theorem locate_eq (h : first ≤ vcn) : locate vcn runs first = (expand runs)[vcn - first]? := by
  induction runs generalizing first with
  | nil => rfl
  | cons r rest ih =>
    rw [locate, expand_cons]
    by_cases hin : vcn < first + r.2
    · rw [if_pos ⟨h, hin⟩, List.getElem?_append_left (by rw [List.length_range']; omega),
        List.getElem?_range' (by omega)]
      congr 1
      omega
    · rw [if_neg (by omega), ih (by omega),
        List.getElem?_append_right (by rw [List.length_range']; omega), List.length_range']
      congr 1
      omega

/-- The run of a cluster is found, and leads through the chain. -/
theorem findRun_spec {k : ℕ} (h : Proper runs) (hl : (expand runs)[k]? = some l) :
    ∃ r rest, findRun l runs = some (r, rest) ∧ r.1 ≤ l ∧ l < r.1 + r.2 ∧
      ∀ j, l + j < r.1 + r.2 → (expand runs)[k + j]? = some (l + j) := by
  induction runs generalizing k with
  | nil => cases hl
  | cons r rest ih =>
    rw [expand_cons] at hl ⊢
    by_cases hk : k < r.2
    · rw [List.getElem?_append_left (by rw [List.length_range']; omega),
        List.getElem?_range' hk] at hl
      have hl : l = r.1 + k := by
        have hsome := Option.some.inj hl
        omega
      refine ⟨r, rest, by rw [findRun, if_pos (by omega)], by omega, by omega, fun j hj => ?_⟩
      rw [List.getElem?_append_left (by rw [List.length_range']; omega),
        List.getElem?_range' (by omega)]
      congr 1
      omega
    · rw [List.getElem?_append_right (by rw [List.length_range']; omega), List.length_range'] at hl
      have hout : ¬(r.1 ≤ l ∧ l < r.1 + r.2) := by
        intro hin
        have hnodup := h.nodup
        rw [expand_cons] at hnodup
        exact (List.nodup_append.1 hnodup).2.2 l (List.mem_range'_1.2 hin) l
          (List.mem_of_getElem? hl) rfl
      obtain ⟨r', rest', hfind, hle, hlt, hnext⟩ := ih h.tail hl
      refine ⟨r', rest', by rw [findRun, if_neg hout, hfind], hle, hlt, fun j hj => ?_⟩
      rw [List.getElem?_append_right (by rw [List.length_range']; omega), List.length_range',
        Nat.sub_add_comm (by omega)]
      exact hnext j hj

/-! ### Single calls -/

variable {c : ChainFile} {a : ℕ → ChainM Unit} {pos n : ℕ} {d : Bytes}

/-- The bytes of the chain. -/
def shown (c : ChainFile) (x : ℕ) : UInt8 := c.stream.content (c.place x)

/-- The same chain, which stands elsewhere. -/
def moved (c : ChainFile) (pos vco : ℕ) (last : ℕ × ℕ) (stream : DiskImage) : ChainFile :=
  { c with pos := pos, vco := vco, lastvlcn := last, stream := stream }

theorem moved_map (c : ChainFile) (pos vco : ℕ) (last : ℕ × ℕ) (stream : DiskImage) :
    (c.moved pos vco last stream).toChainMap = c.toChainMap := rfl

/-- The stream stands where the chain does. -/
structure Aimed (c : ChainFile) : Prop where
  vco : c.vco = c.pos % c.cluster
  lcn : c.lastvlcn.2 = c.lcn (c.pos / c.cluster)
  stream : c.stream.pos = c.place c.pos

theorem stream_seek {s : DiskImage} (h : n ≤ s.size) : s.seek (n : ℕ) 0 = { s with pos := n } := by
  have hpos : (max 0 (min (n : ℤ) s.size)).toNat = n := by omega
  unfold DiskImage.seek
  simp only [if_neg (by decide : ¬(0 : ℤ) = 1), if_neg (by decide : ¬(0 : ℤ) = 2), hpos]

theorem aim_spec (h : c.Placed c.stream.size) (hpos : c.pos ≤ c.size) :
    ∃ v l p, aim c = c.moved c.pos v l { c.stream with pos := p } ∧
      (c.pos < c.size → (c.moved c.pos v l { c.stream with pos := p }).Aimed) := by
  unfold aim
  rw [locate_eq (Nat.zero_le _), Nat.sub_zero]
  by_cases hlt : c.pos < c.size
  · have hin := h.place_le hlt
    rw [ChainMap.lcn_eq (h.div_lt hlt)]
    refine ⟨c.pos % c.cluster, (c.pos / c.cluster, c.lcn (c.pos / c.cluster)), c.place c.pos, ?_,
      fun _ => ⟨rfl, rfl, rfl⟩⟩
    dsimp only
    rw [stream_seek (by unfold ChainMap.place at hin; omega)]
    rfl
  · have hsize := h.size_eq
    have hend : (expand c.runs).length ≤ c.pos / c.cluster := by
      rw [Nat.le_div_iff_mul_le h.cluster_pos]
      omega
    rw [List.getElem?_eq_none hend]
    exact ⟨c.pos % c.cluster, c.lastvlcn, c.stream.pos, rfl, fun hlt' => absurd hlt' hlt⟩

theorem seek_spec (h : c.Placed c.stream.size) (hpos : n ≤ c.size) :
    ∃ v l p, seek a (n : ℕ) 0 c = .ok () (c.moved n v l { c.stream with pos := p }) ∧
      (n < c.size → (c.moved n v l { c.stream with pos := p }).Aimed) := by
  obtain ⟨v, l, p, haim, haimed⟩ := aim_spec (c := { c with pos := n }) h hpos
  refine ⟨v, l, p, ?_, haimed⟩
  have hextend : extend a { c with pos := n } = .ok () { c with pos := n } := by
    unfold extend
    rw [bind_of_ok (get_eq _)]
    exact congrFun (if_neg (by show ¬c.size < n; omega)) _
  have hmove : (modify fun c : ChainFile => { c with pos :=
      (if (0 : ℤ) = 1 then (c.pos : ℤ) + (n : ℕ)
        else if (0 : ℤ) = 2 then (if c.size = 0 then (c.pos : ℤ) else c.size + (n : ℕ))
        else (n : ℕ)).toNat } : ChainM Unit) c = .ok () { c with pos := n } := rfl
  unfold seek
  rw [bind_of_ok hmove, bind_of_ok hextend]
  exact congrArg (EStateM.Result.ok ()) haim

/-- What is read or written in one round lies together on the disk. -/
theorem maxrun4len_spec (h : c.Placed c.stream.size) (ha : c.Aimed) (hn : 0 < n)
    (hin : c.pos + n ≤ c.size) :
    ∃ most l, maxrun4len n c = .ok most (c.moved c.pos c.vco l c.stream) ∧
      0 < min n (most - c.vco) ∧
      ∀ i < min n (most - c.vco), c.place (c.pos + i) = c.place c.pos + i := by
  have hd := h.cluster_pos
  have hk := h.div_lt (by omega : c.pos < c.size)
  obtain ⟨hlow, -⟩ := h.inside _ (ChainMap.lcn_mem hk)
  obtain ⟨r, rest, hfind, hle, hlt, hnext⟩ := findRun_spec h.proper (ChainMap.lcn_eq hk)
  have hvco := ha.vco
  have hmod := Nat.mod_lt c.pos hd
  obtain ⟨run, hrun⟩ : ∃ run, run =
      min ((n + c.cluster - 1) / c.cluster) (r.1 + r.2 - c.lcn (c.pos / c.cluster)) := ⟨_, rfl⟩
  have hfirst : 1 ≤ (n + c.cluster - 1) / c.cluster := by
    rw [Nat.le_div_iff_mul_le hd]
    omega
  have hrunPos : 1 ≤ run := by omega
  have hmost : c.cluster ≤ run * c.cluster := Nat.le_mul_of_pos_left _ hrunPos
  have hmax : ∃ l, maxrun4len n c = .ok (run * c.cluster) (c.moved c.pos c.vco l c.stream) := by
    unfold maxrun4len
    rw [ha.lcn, hfind, hrun]
    exact ⟨_, rfl⟩
  obtain ⟨l, hmax⟩ := hmax
  refine ⟨run * c.cluster, l, hmax, by omega, fun i hi => ?_⟩
  have hj : (c.vco + i) / c.cluster < run := by
    rw [Nat.div_lt_iff_lt_mul hd]
    omega
  have hsplit : c.pos + i = c.cluster * (c.pos / c.cluster) + (c.vco + i) := by
    have hdiv := Nat.div_add_mod c.pos c.cluster
    omega
  have hlcn : c.lcn (c.pos / c.cluster + (c.vco + i) / c.cluster) =
      c.lcn (c.pos / c.cluster) + (c.vco + i) / c.cluster := by
    have hsome := hnext ((c.vco + i) / c.cluster) (by omega)
    rw [ChainMap.lcn, List.getD_eq_getElem?_getD, hsome]
    rfl
  have hrest := Nat.div_add_mod (c.vco + i) c.cluster
  unfold ChainMap.place ChainMap.cl2offset
  rw [hsplit, Nat.mul_add_div hd, Nat.mul_add_mod, hlcn, Nat.sub_add_comm hlow, Nat.add_mul,
    Nat.mul_comm ((c.vco + i) / c.cluster)]
  omega

/-- The bytes that lie together are read at once. -/
theorem readStream_spec (h : c.Placed c.stream.size) (hstream : c.stream.pos = c.place c.pos)
    (hn : 0 < n) (hin : c.pos + n ≤ c.size)
    (htogether : ∀ i < n, c.place (c.pos + i) = c.place c.pos + i) :
    readStream n c = .ok (stretch c.shown c.pos n)
      (c.moved (c.pos + n) c.vco c.lastvlcn { c.stream with pos := c.stream.pos + n }) := by
  have hend : c.place c.pos + n ≤ c.stream.size := by
    have hlast := h.place_le (by omega : c.pos + (n - 1) < c.size)
    have hmod := Nat.mod_lt (c.pos + (n - 1)) h.cluster_pos
    rw [htogether (n - 1) (by omega)] at hlast
    omega
  have hbytes : c.stream.bytes c.stream.pos (if (n : ℤ) < 0 then c.stream.size else (n : ℤ).toNat) =
      stretch c.shown c.pos n := by
    rw [if_neg (by omega), Int.toNat_natCast, DiskImage.bytes, min_eq_left (by omega)]
    refine List.map_congr_left fun i hi => ?_
    rw [hstream, shown, htogether i (List.mem_range.1 hi)]
  unfold readStream DiskImage.read
  rw [hbytes]
  simp only [length_stretch]
  rfl

/-- Bytes that are written together. -/
theorem place_overlay {m : ChainMap} {total : ℕ} (h : m.Placed total) (f : ℕ → UInt8)
    (hin : pos + d.length ≤ m.size)
    (htogether : ∀ i < d.length, m.place (pos + i) = m.place pos + i) {x : ℕ} (hx : x < m.size) :
    overlay f (m.place pos) d (m.place x) = overlay (fun x => f (m.place x)) pos d x := by
  by_cases hmem : pos ≤ x ∧ x < pos + d.length
  · obtain ⟨i, rfl⟩ := Nat.exists_eq_add_of_le hmem.1
    rw [htogether i (by omega), overlay_add (by omega), overlay_add (by omega)]
  · have hright : overlay (fun x => f (m.place x)) pos d x = f (m.place x) := by
      rcases not_and_or.1 hmem with hlt | hge
      · exact overlay_of_lt (by omega)
      · exact overlay_of_le (by omega)
    rw [hright]
    by_cases hlt : m.place x < m.place pos
    · exact overlay_of_lt hlt
    · refine overlay_of_le (Nat.not_lt.1 fun hge => hmem ?_)
      obtain ⟨i, hi⟩ := Nat.exists_eq_add_of_le (Nat.not_lt.1 hlt)
      have heq := h.place_inj hx (by omega : pos + i < m.size)
        (hi.trans (htogether i (by omega)).symm)
      omega

/-- Nothing else is written. -/
theorem overlay_elsewhere {m : ChainMap} (f : ℕ → UInt8)
    (htogether : ∀ i < d.length, m.place (pos + i) = m.place pos + i) {y : ℕ}
    (hy : ∀ i < d.length, m.place (pos + i) ≠ y) : overlay f (m.place pos) d y = f y := by
  by_cases hlt : y < m.place pos
  · exact overlay_of_lt hlt
  · refine overlay_of_le (Nat.not_lt.1 fun hge => ?_)
    obtain ⟨i, rfl⟩ := Nat.exists_eq_add_of_le (Nat.not_lt.1 hlt)
    exact hy i (by omega) (htogether i (by omega))

/-! ### The loops -/

theorem readLoop_spec {r : ℕ} (h : c.Placed c.stream.size) (ha : 0 < n → c.Aimed)
    (hr : n ≤ r) (hin : c.pos + n ≤ c.size) :
    ∃ v l p, readLoop a r n c = .ok (stretch c.shown c.pos n)
      (c.moved (c.pos + n) v l { c.stream with pos := p }) := by
  induction r generalizing c n with
  | zero =>
    obtain rfl : n = 0 := by omega
    exact ⟨c.vco, c.lastvlcn, c.stream.pos, rfl⟩
  | succ r ih =>
    by_cases hn : n = 0
    · subst hn
      exact ⟨c.vco, c.lastvlcn, c.stream.pos, rfl⟩
    · have haimed := ha (by omega)
      obtain ⟨most, l, hmax, hpos, htogether⟩ := maxrun4len_spec h haimed (by omega) hin
      generalize hk : min n (most - c.vco) = k at hpos htogether
      have hread := readStream_spec (c := c.moved c.pos c.vco l c.stream) h haimed.stream hpos
        (by show c.pos + k ≤ c.size; omega) htogether
      obtain ⟨v', l', p', hseek, haimed'⟩ := seek_spec (a := a) (n := c.pos + k)
        (c := c.moved (c.pos + k) c.vco l { c.stream with pos := c.stream.pos + k }) h
        (by show c.pos + k ≤ c.size; omega)
      obtain ⟨v, l'', p, hloop⟩ := ih (n := n - k)
        (c := c.moved (c.pos + k) v' l' { c.stream with pos := p' }) h
        (fun hleft => haimed' (by show c.pos + k < c.size; omega)) (by omega)
        (by show c.pos + k + (n - k) ≤ c.size; omega)
      refine ⟨v, l'', p, ?_⟩
      have hsum : c.pos + k + (n - k) = c.pos + n := by omega
      have hbytes : stretch c.shown c.pos n =
          stretch c.shown c.pos k ++ stretch c.shown (c.pos + k) (n - k) := by
        rw [← stretch_add]
        congr 1
        omega
      rw [readLoop, if_neg hn, bind_of_ok hmax, bind_of_ok (get_eq _)]
      show (readStream (min n (most - c.vco)) >>= fun data =>
        seek a (c.pos + min n (most - c.vco) : ℕ) 0 >>= fun _ =>
          readLoop a r (n - min n (most - c.vco)) >>= fun rest =>
            pure (data ++ rest)) (c.moved c.pos c.vco l c.stream) = _
      rw [hk, bind_of_ok hread, ← hsum, hbytes]
      exact (bind_of_ok hseek).trans (bind_of_ok hloop)

theorem writeLoop_spec {r : ℕ} (h : c.Placed c.stream.size) (ha : d ≠ [] → c.Aimed)
    (hr : d.length ≤ r) (hin : c.pos + d.length ≤ c.size) :
    ∃ v l p f, writeLoop a r d c =
        .ok () (c.moved (c.pos + d.length) v l ⟨p, c.stream.size, f⟩) ∧
      (∀ x < c.size, f (c.place x) = overlay c.shown c.pos d x) ∧
      ∀ y, (∀ i < d.length, c.place (c.pos + i) ≠ y) → f y = c.stream.content y := by
  induction r generalizing c d with
  | zero =>
    obtain rfl : d = [] := List.eq_nil_of_length_eq_zero (by omega)
    refine ⟨c.vco, c.lastvlcn, c.stream.pos, c.stream.content, rfl, fun x _ => ?_, fun _ _ => rfl⟩
    rw [overlay_nil]
    rfl
  | succ r ih =>
    by_cases hnil : d = []
    · subst hnil
      refine ⟨c.vco, c.lastvlcn, c.stream.pos, c.stream.content, rfl, fun x _ => ?_, fun _ _ => rfl⟩
      rw [overlay_nil]
      rfl
    · have haimed := ha hnil
      have hlength := List.length_pos_of_ne_nil hnil
      obtain ⟨most, l, hmax, hpos, htogether⟩ := maxrun4len_spec h haimed hlength hin
      generalize hk : min d.length (most - c.vco) = k at hpos htogether
      have htake : (d.take k).length = k := List.length_take_of_le (by omega)
      have hdrop : (d.drop k).length = d.length - k := List.length_drop
      have htogether' : ∀ i < (d.take k).length, c.place (c.pos + i) = c.place c.pos + i :=
        fun i hi => htogether i (by omega)
      obtain ⟨f', hf'⟩ : ∃ f', f' = overlay c.stream.content (c.place c.pos) (d.take k) := ⟨_, rfl⟩
      obtain ⟨q, hwrite⟩ : ∃ q, writeStream (d.take k) (c.moved c.pos c.vco l c.stream) =
          .ok () (c.moved (c.pos + k) c.vco l ⟨q, c.stream.size, f'⟩) := by
        refine ⟨min c.stream.size (c.place c.pos + k), ?_⟩
        have hraw : writeStream (d.take k) (c.moved c.pos c.vco l c.stream) =
            .ok () (c.moved (c.pos + (d.take k).length) c.vco l
              ⟨min c.stream.size (c.stream.pos + (d.take k).length), c.stream.size,
                overlay c.stream.content c.stream.pos (d.take k)⟩) := rfl
        rw [hraw, haimed.stream, htake, ← hf']
      obtain ⟨v', l', p', hseek, haimed'⟩ := seek_spec (a := a) (n := c.pos + k)
        (c := c.moved (c.pos + k) c.vco l ⟨q, c.stream.size, f'⟩) h
        (by show c.pos + k ≤ c.size; omega)
      obtain ⟨v, l'', p, f, hloop, hshown, hframe⟩ := ih (d := d.drop k)
        (c := c.moved (c.pos + k) v' l' ⟨p', c.stream.size, f'⟩) h
        (fun hleft => haimed' (by
          have hmore := List.length_pos_of_ne_nil hleft
          show c.pos + k < c.size
          omega)) (by omega) (by show c.pos + k + _ ≤ c.size; omega)
      refine ⟨v, l'', p, f, ?_, fun x hx => ?_, fun y hy => ?_⟩
      · have hsum : c.pos + k + (d.drop k).length = c.pos + d.length := by omega
        rw [writeLoop, if_neg hnil, bind_of_ok hmax, bind_of_ok (get_eq _)]
        show (writeStream (d.take (min d.length (most - c.vco))) >>= fun _ =>
          seek a (c.pos + min d.length (most - c.vco) : ℕ) 0 >>= fun _ =>
            writeLoop a r (d.drop (min d.length (most - c.vco))))
              (c.moved c.pos c.vco l c.stream) = _
        rw [hk, bind_of_ok hwrite, ← hsum]
        exact (bind_of_ok hseek).trans hloop
      · have hpart : f' (c.place x) = overlay c.shown c.pos (d.take k) x := by
          rw [hf']
          exact place_overlay h _ (by omega) htogether' hx
        have happend := overlay_append c.shown c.pos (d.take k) (d.drop k)
        rw [List.take_append_drop, htake] at happend
        rw [happend]
        exact (hshown x hx).trans (overlay_apply_congr hpart)
      · refine (hframe y fun i hi => ?_).trans ?_
        · show c.place (c.pos + k + i) ≠ y
          rw [Nat.add_assoc]
          exact hy (k + i) (by omega)
        · show f' y = _
          rw [hf']
          exact overlay_elsewhere _ htogether' fun i hi => hy i (by omega)

/-! ### The calls -/

/-- In a single run all bytes lie together. -/
theorem place_add {m : ChainMap} {total : ℕ} (h : m.Placed total) (hfat : m.nofat = true) {i : ℕ}
    (hin : pos + i < m.size) : m.place (pos + i) = m.place pos + i := by
  obtain ⟨r, hr⟩ := h.contiguous hfat
  have hplace : ∀ x < m.size, m.place x = m.cl2offset r.1 + x := by
    intro x hx
    have hk := h.div_lt hx
    have hlcn := ChainMap.lcn_eq hk
    rw [hr, expand_cons, expand_nil, List.append_nil] at hlcn hk
    rw [List.length_range'] at hk
    rw [List.getElem?_range' hk] at hlcn
    have heq : r.1 + 1 * (x / m.cluster) = m.lcn (x / m.cluster) := Option.some.inj hlcn
    have hmem : r.1 ∈ expand m.runs := by
      rw [hr, expand_cons, expand_nil, List.append_nil, List.mem_range'_1]
      omega
    have hdiv := Nat.div_add_mod x m.cluster
    obtain ⟨hlow, -⟩ := h.inside _ hmem
    unfold ChainMap.place ChainMap.cl2offset
    rw [← heq, Nat.one_mul, Nat.sub_add_comm hlow, Nat.add_mul, Nat.mul_comm (x / m.cluster)]
    omega
  rw [hplace _ hin, hplace pos (by omega), Nat.add_assoc]

theorem read_spec {wanted : ℕ} (h : c.Placed c.stream.size) (hpos : c.pos ≤ c.filesize)
    (hn : n = min wanted (c.filesize - c.pos)) :
    ∃ v l p, read a (wanted : ℕ) c =
      .ok (stretch c.shown c.pos n) (c.moved (c.pos + n) v l { c.stream with pos := p }) := by
  have hle := h.filesize_le
  have hcount : (if c.filesize < c.pos + wanted then c.filesize - c.pos else wanted) = n := by
    split <;> omega
  unfold read
  rw [bind_of_ok (get_eq c)]
  simp only [if_neg (by omega : ¬(wanted : ℤ) < 0), Int.toNat_natCast, hcount]
  by_cases hnone : n = 0
  · subst hnone
    exact ⟨c.vco, c.lastvlcn, c.stream.pos, rfl⟩
  · rw [if_neg hnone]
    obtain ⟨v, l, p, hseek, haimed⟩ := seek_spec (a := a) h (by omega : c.pos ≤ c.size)
    have hhere := haimed (by omega)
    rw [bind_of_ok hseek]
    by_cases hfat : c.nofat = true
    · rw [if_pos hfat, readStream_spec (c := c.moved c.pos v l { c.stream with pos := p }) h
        hhere.stream (by omega) (by show c.pos + n ≤ c.size; omega)
        fun i hi => place_add h hfat (by show c.pos + i < c.size; omega)]
      exact ⟨_, _, _, rfl⟩
    · obtain ⟨v', l', p', hloop⟩ := readLoop_spec (a := a) (r := n)
        (c := c.moved c.pos v l { c.stream with pos := p }) h (fun _ => hhere) le_rfl
        (by show c.pos + n ≤ c.size; omega)
      rw [if_neg hfat]
      exact ⟨v', l', p', hloop⟩

theorem modify_filesize (h : c.pos ≤ c.filesize) :
    (modify fun c : ChainFile => { c with filesize := max c.filesize c.pos } : ChainM Unit) c =
      .ok () c := by
  show EStateM.Result.ok () { c with filesize := max c.filesize c.pos } = _
  rw [max_eq_left h]

theorem write_spec (h : c.Placed c.stream.size) (hnil : d ≠ [])
    (hin : c.pos + d.length ≤ c.filesize) :
    ∃ v l p f, write a d c =
        .ok () (c.moved (c.pos + d.length) v l ⟨p, c.stream.size, f⟩) ∧
      (∀ x < c.size, f (c.place x) = overlay c.shown c.pos d x) ∧
      ∀ y, (∀ i < d.length, c.place (c.pos + i) ≠ y) → f y = c.stream.content y := by
  have hle := h.filesize_le
  have hlength := List.length_pos_of_ne_nil hnil
  obtain ⟨v, l, p, hseek, haimed⟩ := seek_spec (a := a) h (by omega : c.pos ≤ c.size)
  have hhere := haimed (by omega)
  have hroom : makeRoom a d.length c = .ok () c := by
    unfold makeRoom
    rw [bind_of_ok (get_eq c), if_neg (by omega)]
    rfl
  have hgrown : decide (c.size < c.pos + d.length) = false := decide_eq_false (by omega)
  unfold write
  rw [if_neg hnil, bind_of_ok (get_eq c), hgrown, bind_of_ok hroom, bind_of_ok hseek,
    bind_of_ok (get_eq _)]
  by_cases hfat : c.nofat = true
  · obtain rfl : p = c.place c.pos := hhere.stream
    have hwrite : writeStream d (c.moved c.pos v l { c.stream with pos := c.place c.pos }) =
        .ok () (c.moved (c.pos + d.length) v l
          ⟨min c.stream.size (c.place c.pos + d.length), c.stream.size,
            overlay c.stream.content (c.place c.pos) d⟩) := rfl
    have htogether : ∀ i < d.length, c.place (c.pos + i) = c.place c.pos + i :=
      fun i hi => place_add h hfat (by omega)
    rw [moved_map, if_pos hfat, bind_of_ok hwrite, modify_filesize hin]
    exact ⟨v, l, _, _, rfl, fun x hx => place_overlay h _ (by omega) htogether hx,
      fun y hy => overlay_elsewhere _ htogether hy⟩
  · obtain ⟨v', l', p', f, hloop, hshown, hframe⟩ := writeLoop_spec (a := a)
      (r := d.length) (c := c.moved c.pos v l { c.stream with pos := p }) h
      (fun _ => hhere) le_rfl (by show c.pos + d.length ≤ c.size; omega)
    rw [moved_map, if_neg hfat, bind_of_ok hloop, bind_of_ok (modify_filesize hin)]
    exact ⟨v', l', p', f, rfl, hshown, hframe⟩

/-- The chain `m` shows the file `s`, and the rest of the volume is `rest`. -/
structure Shows (c : ChainFile) (m : ChainMap) (rest : ℕ → UInt8) (s : DiskImage) : Prop where
  map : c.toChainMap = m
  placed : c.Placed c.stream.size
  size : c.filesize = s.size
  pos : c.pos = s.pos
  pos_le : s.pos ≤ s.size
  shown : ∀ x < s.size, c.shown x = s.content x
  rest : ∀ y, (∀ x < m.filesize, m.place x ≠ y) → c.stream.content y = rest y

variable {m : ChainMap} {rest : ℕ → UInt8} {s : DiskImage} {c' : ChainFile}

theorem Shows.pos_le_size (h : c.Shows m rest s) : s.size ≤ c.size := h.size ▸ h.placed.filesize_le

theorem perform_of_ok {o : RawOp} {b : o.Answer} (h : call a o c = .ok b c') :
    perform a c o = (.ok b, c') := by
  unfold perform
  rw [h]

theorem Shows.seek (h : c.Shows m rest s) {offset : ℤ} (hpos : 0 ≤ offset) (hlt : offset < s.size) :
    ∃ c', seek a offset 0 c = .ok () c' ∧ c'.Shows m rest (s.seek offset 0) := by
  have hle := h.pos_le_size
  obtain ⟨n, rfl⟩ := Int.eq_ofNat_of_zero_le hpos
  obtain ⟨v, l, p, hseek, -⟩ := seek_spec (a := a) h.placed (by omega : n ≤ c.size)
  refine ⟨_, hseek, ?_⟩
  rw [stream_seek (by omega)]
  exact ⟨h.map, h.placed, h.size, rfl, by show n ≤ s.size; omega, h.shown, h.rest⟩

theorem Shows.read (h : c.Shows m rest s) {size : ℤ} (hsize : 0 ≤ size) :
    ∃ c', read a size c = .ok (s.read size).1 c' ∧ c'.Shows m rest (s.read size).2 := by
  obtain ⟨wanted, rfl⟩ := Int.eq_ofNat_of_zero_le hsize
  have hfile := h.size
  have hpos := h.pos
  have hin := h.pos_le
  obtain ⟨n, hn⟩ : ∃ n, n = min wanted (s.size - s.pos) := ⟨_, rfl⟩
  have hbytes : (s.read (wanted : ℕ)).1 = stretch s.content s.pos n := by
    show s.bytes s.pos (if (wanted : ℤ) < 0 then s.size else (wanted : ℤ).toNat) = _
    rw [if_neg (by omega), Int.toNat_natCast, hn]
    rfl
  have hcount : n = min wanted (c.filesize - c.pos) := by rw [hfile, hpos, hn]
  obtain ⟨v, l, p, hread⟩ := read_spec (a := a) h.placed (by omega) hcount
  have hsame : stretch c.shown c.pos n = stretch s.content s.pos n := by
    rw [hpos]
    exact stretch_congr fun i hi => h.shown _ (by omega)
  rw [hsame, ← hbytes] at hread
  refine ⟨_, hread, h.map, h.placed, h.size, ?_, ?_, h.shown, h.rest⟩
  · show c.pos + n = s.pos + ((s.read (wanted : ℕ)).1).length
    rw [hbytes, length_stretch, hpos]
  · show s.pos + ((s.read (wanted : ℕ)).1).length ≤ s.size
    rw [hbytes, length_stretch]
    omega

theorem Shows.write (h : c.Shows m rest s) (hin : s.pos + d.length ≤ s.size) :
    ∃ c', write a d c = .ok () c' ∧ c'.Shows m rest (s.write d) := by
  have hle := h.pos_le_size
  have hfile := h.size
  have hpos := h.pos
  by_cases hnil : d = []
  · subst hnil
    refine ⟨c, rfl, h.map, h.placed, h.size, ?_, Nat.min_le_left .., fun x hx => ?_, h.rest⟩
    · show c.pos = min s.size (s.pos + 0)
      omega
    · rw [h.shown x hx]
      exact (congrFun (overlay_nil s.content s.pos) x).symm
  · obtain ⟨v, l, p, f, hwrite, hshown, hframe⟩ :=
      write_spec (a := a) h.placed hnil (by omega)
    refine ⟨_, hwrite, h.map, h.placed, h.size, ?_, Nat.min_le_left .., fun x hx => ?_,
      fun y hy => ?_⟩
    · show c.pos + d.length = min s.size (s.pos + d.length)
      omega
    · have hx : x < s.size := hx
      show f (c.place x) = overlay s.content s.pos d x
      rw [hshown x (by omega), hpos]
      exact overlay_apply_congr (h.shown x hx)
    · refine (hframe y fun i hi => ?_).trans (h.rest y hy)
      have hmap := h.map
      subst hmap
      exact hy (c.pos + i) (by omega)

/-- One call on the file. -/
theorem Shows.perform {o : RawOp} (h : c.Shows m rest s) (ho : InsideCall s o) :
    ∃ c', perform a c o = ((s.perform o).1, c') ∧ c'.Shows m rest (s.perform o).2 := by
  cases o with
  | seek offset whence =>
    obtain ⟨rfl, hpos, hlt⟩ := ho
    obtain ⟨c', hseek, hshows⟩ := h.seek hpos hlt
    exact ⟨c', perform_of_ok (o := .seek offset 0) hseek, hshows⟩
  | tell =>
    have hpos : (s.perform .tell).1 = .ok c.pos := congrArg Except.ok h.pos.symm
    exact ⟨c, by rw [hpos]; rfl, h⟩
  | read size =>
    obtain ⟨c', hread, hshows⟩ := h.read ho
    exact ⟨c', perform_of_ok (o := .read size) hread, hshows⟩
  | write data =>
    obtain ⟨c', hwrite, hshows⟩ := h.write ho
    exact ⟨c', perform_of_ok (o := .write data) hwrite, hshows⟩
  | flush => exact ⟨c, rfl, h⟩

end ChainFile

/-! ### Programs on a chain -/

def runChain {α : Type} (alloc : ℕ → ChainM Unit) (p : RawProgram α) (c : ChainFile) :
    Outcome PyError α ChainFile :=
  run (fun _ c o => ChainFile.perform alloc c o) p 0 c

/-- A program that stays in the file has the result that it has over plain bytes. -/
theorem ChainFile.Shows.run {α : Type} {a : ℕ → ChainM Unit} {p : RawProgram α} {c : ChainFile}
    {m : ChainMap} {rest : ℕ → UInt8} {s : DiskImage} (h : c.Shows m rest s) (hp : Inside p s) :
    (runChain a p c).result = (runImage p s).result ∧
      (runChain a p c).world.Shows m rest (runImage p s).world :=
  run_inside (f := ChainFile.perform a) (R := fun c s => c.Shows m rest s)
    (fun _ _ _ h ho => h.perform ho) hp h 0

/-- An open chain shows its file. -/
theorem ChainFile.shows_self {c : ChainFile} (hc : c.Placed c.stream.size)
    (hpos : c.pos ≤ c.filesize) :
    c.Shows c.toChainMap c.stream.content ⟨c.pos, c.filesize, c.shown⟩ :=
  ⟨rfl, hc, rfl, rfl, hpos, fun _ _ => rfl, fun _ _ => rfl⟩

/-- **A chain is a file.**  Whatever runs a chain lies in, a program that stays in the file has the
result that it has over the bytes of the file, one after the other; these are what it leaves there,
and every other byte of the volume is as it was. -/
theorem chain_run {α : Type} (alloc : ℕ → ChainM Unit) (p : RawProgram α) (c : ChainFile)
    (hc : c.Placed c.stream.size) (hpos : c.pos ≤ c.filesize)
    (hp : Inside p ⟨c.pos, c.filesize, c.shown⟩) :
    let out := runChain alloc p c
    let plain := runImage p ⟨c.pos, c.filesize, c.shown⟩
    out.result = plain.result ∧ out.world.toChainMap = c.toChainMap ∧
      (∀ x < c.filesize, out.world.stream.content (c.place x) = plain.world.content x) ∧
      ∀ y, (∀ x < c.filesize, c.place x ≠ y) → out.world.stream.content y = c.stream.content y := by
  intro out plain
  obtain ⟨hresult, hend⟩ := (ChainFile.shows_self hc hpos).run (a := alloc) hp
  have hkept : plain.world.size = c.filesize := size_runImage p ⟨c.pos, c.filesize, c.shown⟩ 0
  refine ⟨hresult, hend.map, fun x hx => ?_, hend.rest⟩
  have hshown := hend.shown x (hkept.symm ▸ hx)
  unfold ChainFile.shown at hshown
  rw [hend.map] at hshown
  exact hshown

/-- Eight clusters of one sector in three runs. -/
def sampleChain : ChainFile where
  dataoffs := 1024
  cluster := 512
  runs := [(3, 1), (7, 4), (12, 3)]
  nofat := false
  isdirectory := false
  writable := true
  size := 4096
  filesize := 4096
  pos := 0
  vco := 0
  lastvlcn := (0, 3)
  stream := ⟨0, 8192, fun _ => 0⟩

theorem placed_sampleChain : sampleChain.Placed 8192 :=
  ⟨by decide, ⟨by decide, by decide⟩, by decide, fun h => absurd h (by decide), by decide,
    by decide⟩

theorem chain_run_sample :
    let out := runChain (fun _ => pure ()) writeAndReadBack sampleChain
    let plain := runImage writeAndReadBack ⟨0, 4096, sampleChain.shown⟩
    out.result = plain.result ∧ out.world.toChainMap = sampleChain.toChainMap ∧
      (∀ x < 4096, out.world.stream.content (sampleChain.place x) = plain.world.content x) ∧
      ∀ y, (∀ x < 4096, sampleChain.place x ≠ y) → out.world.stream.content y = 0 :=
  chain_run (fun _ => pure ()) writeAndReadBack sampleChain placed_sampleChain (Nat.zero_le _)
    (inside_writeAndReadBack sampleChain.shown)

/-! ### The files of a volume -/

/-- A chain that was opened over the runs of a file, in a volume whose clusters begin at
`dataoffs`. -/
structure ChainMap.Over (m : ChainMap) (dataoffs cluster : ℕ) (runs : Dict) : Prop where
  dataoffs_eq : m.dataoffs = dataoffs
  cluster_eq : m.cluster = cluster
  runs_eq : m.runs = runs
  size_eq : m.size = Bitmap.clusters runs * cluster
  contiguous : m.nofat = true → ∃ r, runs = [r]
  filesize_le : m.filesize ≤ m.size

namespace OpenVolume

variable {v : OpenVolume} {used : List ℕ} {n k j dataoffs cluster total : ℕ} {runs others : Dict}
  {m : ChainMap}

theorem Sound.run (h : v.Sound n used) {ops : List ChainOp} (hops : v.AsksAll cluster ops) :
    Sound n used (v.run cluster ops).1 := by
  induction ops generalizing v with
  | nil => exact h
  | cons op ops ih => exact ih (h.step op hops.1).sound hops.2

/-- The clusters of a file lie in the volume. -/
theorem Sound.placed (h : v.Sound n used) (hk : v.chains[k]? = some runs)
    (hm : m.Over dataoffs cluster runs) (hcluster : 0 < cluster)
    (hroom : dataoffs + n * cluster ≤ total) : m.Placed total := by
  obtain ⟨rest, -, -, hb, hchain⟩ := h.focus hk
  have hnodup := (List.nodup_append.1 hb.owned_nodup).1
  refine ⟨hm.cluster_eq ▸ hcluster, hm.runs_eq ▸ ⟨hchain.pos, hnodup⟩, ?_,
    hm.runs_eq ▸ hm.contiguous, fun l hl => ?_, hm.filesize_le⟩
  · rw [hm.size_eq, hm.runs_eq, hm.cluster_eq, Bitmap.length_expand]
  · rw [hm.runs_eq] at hl
    obtain ⟨hlow, hhigh⟩ := hb.owned_bounds (List.mem_append_left _ hl)
    rw [h.regionLength] at hhigh
    have hend : (l - 2 + 1) * cluster ≤ n * cluster := Nat.mul_le_mul_right _ (by omega)
    rw [Nat.add_mul, Nat.one_mul] at hend
    refine ⟨hlow, ?_⟩
    unfold ChainMap.cl2offset
    rw [hm.dataoffs_eq, hm.cluster_eq]
    omega

/-- No cluster is in two files. -/
theorem Sound.apart (h : v.Sound n used) (hk : v.chains[k]? = some runs)
    (hj : v.chains[j]? = some others) (hne : k ≠ j) {l : ℕ} (hl : l ∈ expand runs) :
    l ∉ expand others := by
  obtain ⟨hklt, hkeq⟩ := List.getElem?_eq_some_iff.1 hk
  obtain ⟨hjlt, hjeq⟩ := List.getElem?_eq_some_iff.1 hj
  have hnodup := (List.nodup_append.1 h.bitmap.owned_nodup).1
  have hpairs := List.pairwise_iff_getElem.1 (List.nodup_flatMap.1 hnodup).2
  subst hkeq hjeq
  rcases Nat.lt_or_gt_of_ne hne with hlt | hlt
  · exact fun hl' => hpairs k j hklt hjlt hlt hl hl'
  · exact fun hl' => hpairs j k hjlt hklt hlt hl' hl

/-- **Files do not meet.**  Whatever was done to the chains of a sound volume, by entries and files
that agree with them, each of them is a file: a program that stays in it has the result that it has
over plain bytes, and changes no byte of another file. -/
theorem run_isolated {α : Type} (alloc : ℕ → ChainM Unit) (p : RawProgram α) (h : v.Sound n used)
    (ops : List ChainOp) (hops : v.AsksAll cluster ops) (hne : k ≠ j)
    (hk : (v.run cluster ops).1.chains[k]? = some runs)
    (hj : (v.run cluster ops).1.chains[j]? = some others)
    (c : ChainFile) (hc : c.Over dataoffs cluster runs) (hm : m.Over dataoffs cluster others)
    (hcluster : 0 < cluster) (hroom : dataoffs + n * cluster ≤ c.stream.size)
    (hpos : c.pos ≤ c.filesize) (hp : Inside p ⟨c.pos, c.filesize, c.shown⟩) :
    let out := runChain alloc p c
    out.result = (runImage p ⟨c.pos, c.filesize, c.shown⟩).result ∧
      ∀ x < m.size, out.world.stream.content (m.place x) = c.stream.content (m.place x) := by
  intro out
  have hsound := h.run hops
  have hplaced := hsound.placed hk hc hcluster hroom
  have hother := hsound.placed hj hm hcluster hroom
  obtain ⟨hresult, hend⟩ := (ChainFile.shows_self hplaced hpos).run (a := alloc) hp
  refine ⟨hresult, fun x hx => hend.rest _ fun y hy heq => ?_⟩
  have hin : y < c.size := lt_of_lt_of_le hy hplaced.filesize_le
  obtain ⟨hlcn, -⟩ := hplaced.lcn_of_place hother (hm.dataoffs_eq.trans hc.dataoffs_eq.symm)
    (hm.cluster_eq.trans hc.cluster_eq.symm) hin hx heq
  have hmem := ChainMap.lcn_mem (hplaced.div_lt hin)
  have hmem' := ChainMap.lcn_mem (hother.div_lt hx)
  rw [hm.cluster_eq, ← hc.cluster_eq, ← hlcn, hm.runs_eq] at hmem'
  rw [hc.runs_eq] at hmem
  exact hsound.apart hk hj hne hmem hmem'

/-- A file in two runs. -/
def sampleFile : ChainFile where
  dataoffs := 0
  cluster := 2048
  runs := [(3, 2), (7, 1)]
  nofat := false
  isdirectory := false
  writable := true
  size := 6144
  filesize := 4096
  pos := 0
  vco := 0
  lastvlcn := (0, 3)
  stream := ⟨0, 20480, fun _ => 0⟩

/-- The file behind it. -/
def sampleNeighbour : ChainMap where
  dataoffs := 0
  cluster := 2048
  runs := [(8, 2)]
  nofat := true
  isdirectory := false
  writable := true
  size := 4096
  filesize := 4096

theorem run_isolated_sample :
    let out := runChain (fun _ => pure ()) writeAndReadBack sampleFile
    out.result = (runImage writeAndReadBack ⟨0, 4096, sampleFile.shown⟩).result ∧
      ∀ x < 4096, out.world.stream.content (sampleNeighbour.place x) = 0 :=
  run_isolated (fun _ => pure ()) writeAndReadBack sampleOpenVolume_sound [.create, .alloc 1 2]
    ⟨trivial, Nat.succ_pos 1, trivial⟩ Nat.zero_ne_one
    (by decide : (sampleOpenVolume.run 2048 _).1.chains[0]? = some [(3, 2), (7, 1)])
    (by decide : (sampleOpenVolume.run 2048 _).1.chains[1]? = some [(8, 2)]) sampleFile
    ⟨rfl, rfl, rfl, rfl, fun h => absurd h (by decide), by decide⟩
    (m := sampleNeighbour) ⟨rfl, rfl, rfl, rfl, fun _ => ⟨_, rfl⟩, le_rfl⟩
    (by decide) (by decide) (Nat.zero_le _) (inside_writeAndReadBack sampleFile.shown)

end OpenVolume

end Ps2Ripper
