import Ps2Ripper.Core.Readiness

/-!
# Successful runs

* the image of a disc is opened like the disc itself: the byte source behind a ripped file is the
  one that the drive presented (`ofBytes_blocks`, `ofBytes_userData`);
* a run without failures returns exactly when it is `Ready` (`returns_iff_ready`);
* a small disc for which it is, with the same image as a DVD and as a CD.
-/

namespace Ps2Ripper

open Interactive Prog

/-! ### A ripped image and its disc -/

theorem Disc.blocks_succ (d : Disc) (lba n : ℕ) :
    d.blocks lba (n + 1) = d.block lba ++ d.blocks (lba + 1) n := by
  simp [Disc.blocks, List.range'_succ]

theorem Disc.getElem?_blocks (d : Disc) (lba n i : ℕ) :
    (d.blocks lba n)[i]? =
      if i < n * 2048 then some ((d.block (lba + i / 2048)).getD (i % 2048) 0) else none := by
  induction n generalizing lba i with
  | zero => simp [Disc.blocks]
  | succ n ih =>
    have hlen := d.block_length lba
    rw [Disc.blocks_succ]
    by_cases hi : i < 2048
    · have hd : i / 2048 = 0 := Nat.div_eq_of_lt hi
      rw [List.getElem?_append_left (by omega), if_pos (by omega), hd, Nat.mod_eq_of_lt hi,
        List.getD_eq_getElem?_getD, Nat.add_zero, List.getElem?_eq_getElem (by omega),
        Option.getD_some]
    · have hd : lba + 1 + (i - 2048) / 2048 = lba + i / 2048 := by omega
      have hm : (i - 2048) % 2048 = i % 2048 := by omega
      rw [List.getElem?_append_right (by omega), hlen, ih, hd, hm]
      by_cases hj : i - 2048 < n * 2048
      · rw [if_pos hj, if_pos (by omega)]
      · rw [if_neg hj, if_neg (by omega)]

/-- The file that a DVD rip leaves behind is opened like the DVD. -/
theorem ofBytes_blocks (d : Disc) (n : ℕ) :
    ByteSource.ofBytes (d.blocks 0 n) = ByteSource.ofStream d n none := by
  simp only [ByteSource.ofBytes, ByteSource.ofStream, d.length_blocks, ByteSource.mk.injEq,
    true_and]
  funext i
  rw [d.getElem?_blocks, Nat.zero_add]
  split
  · rename_i hi
    split at hi <;> simp_all
  · rename_i hi
    split at hi <;> simp_all

theorem Disc.getElem?_userData (d : Disc) {lba n : ℕ} {data : Bytes}
    (h : d.userData lba n = some data) (i : ℕ) (hi : i < n * 2048) :
    ∃ sector, extract2048UserData (d.raw (lba + i / 2048)) = .ok sector ∧
      data[i]? = some (sector.getD (i % 2048) 0) := by
  induction n generalizing lba data i with
  | zero => omega
  | succ n ih =>
    simp only [Disc.userData, Option.bind_eq_bind, Option.bind_eq_some_iff, Option.pure_def,
      Option.some.injEq] at h
    obtain ⟨first, hfirst, rest, hrest, rfl⟩ := h
    have hok : extract2048UserData (d.raw lba) = .ok first := by
      cases hx : extract2048UserData (d.raw lba) with
      | error e => simp [hx, Except.toOption] at hfirst
      | ok x => simp_all [Except.toOption]
    have hlen := length_of_extract2048UserData hok
    by_cases hlt : i < 2048
    · have hd : i / 2048 = 0 := Nat.div_eq_of_lt hlt
      refine ⟨first, by rw [hd, Nat.add_zero, hok], ?_⟩
      rw [List.getElem?_append_left (by omega), Nat.mod_eq_of_lt hlt, List.getD_eq_getElem?_getD,
        List.getElem?_eq_getElem (by omega), Option.getD_some]
    · obtain ⟨sector, hsector, hget⟩ := ih hrest (i - 2048) (by omega)
      have hd : lba + 1 + (i - 2048) / 2048 = lba + i / 2048 := by omega
      have hm : (i - 2048) % 2048 = i % 2048 := by omega
      rw [hd] at hsector
      rw [hm] at hget
      exact ⟨sector, hsector, by rw [List.getElem?_append_right (by omega), hlen, hget]⟩

/-- The file that a conversion leaves behind is opened like the data track. -/
theorem ofBytes_userData (d : Disc) {track : CDTrack} {data : Bytes}
    (h : d.userData track.startLba track.sectors = some data) :
    ByteSource.ofBytes data = ByteSource.ofStream d 0 (some track) := by
  have hlen := d.length_userData h
  simp only [ByteSource.ofBytes, ByteSource.ofStream, hlen, ByteSource.mk.injEq, true_and]
  funext i
  by_cases hi : i < track.sectors * 2048
  · obtain ⟨sector, hsector, hget⟩ := d.getElem?_userData h i hi
    simp [hi, hsector, hget, Except.map]
  · have hnone : data[i]? = none := List.getElem?_eq_none (by omega)
    simp [hi, hnone]

/-! ### Runs without failures -/

variable {m : Machine} {r : RipRequest} {w : World} {α : Type}

/-- Every step goes through. -/
def noFaults : Oracle := fun _ _ => {}

/-- Without failures a program that does not raise returns. -/
theorem exists_run_eq_ok {p : Program α} {Q : α → World → Prop} {n : ℕ}
    (h : wp (calm m) p Q (fun _ _ => False) w) :
    ∃ a w' n', run (handlers m noFaults) p n w = ⟨.ok a, w', n'⟩ ∧ Q a w' := by
  obtain ⟨a, ha, hq⟩ := exists_ok_of_wp (n := n)
    (allowing_admits (σ := noFaults) (A := fun _ c => c = {}) fun _ _ => rfl) h
  exact ⟨a, _, _, by rw [← ha], hq⟩

/-- Without failures `rip_and_install` returns exactly when it is `Ready`. -/
theorem returns_iff_ready (hhidden : HiddenFresh w) (htasks : TasksFresh w) :
    (∃ result, (execute m noFaults (ripAndInstall m.toExternals r) w).result = .ok result) ↔
      Ready m r w := by
  have h := run_of_wp (n := 0) (allowing_admits (A := fun _ c => c = {}) fun _ _ => rfl)
    (calm_ripAndInstall (m := m) (r := r) hhidden htasks)
  constructor
  · rintro ⟨result, hresult⟩
    exact h.1 result hresult
  · intro hready
    cases hresult : (execute m noFaults (ripAndInstall m.toExternals r) w).result with
    | ok result => exact ⟨result, rfl⟩
    | error e => exact absurd hready (h.2 e hresult)

/-- A program that only talks to the drive has the result that the drive determines. -/
theorem result_of_consult {p : Program α} (hp : p.Uses (Op.Within ∅ ∅)) {a : α}
    (h : consult m p = .ok a) : (execute m noFaults p w).result = .ok a := by
  have hrun := run_of_wp (n := 0) (allowing_admits (A := fun _ c => c = {}) fun _ _ => rfl)
    (calm_consult (m := m) (w := w) hp)
  cases hresult : (execute m noFaults p w).result with
  | ok b =>
    have hb := (hrun.1 b hresult).1
    rw [h] at hb
    cases hb
    rfl
  | error e => exact absurd h (hrun.2 e hresult a)

/-! ### A small disc -/

/-- A text in ASCII. -/
def ascii (s : String) : Bytes := s.toList.map fun c => UInt8.ofNat c.toNat

/-- Fill up with a byte, as the fields and the sectors of ISO 9660 are. -/
def padTo (n : ℕ) (b : UInt8) (data : Bytes) : Bytes :=
  data.take n ++ List.replicate (n - data.length) b

@[simp] theorem length_padTo (n : ℕ) (b : UInt8) (data : Bytes) : (padTo n b data).length = n := by
  simp only [padTo, List.length_append, List.length_take, List.length_replicate]
  omega

/-- A number below 256 in both byte orders, four bytes each. -/
def both32 (n : UInt8) : Bytes := [n, 0, 0, 0, 0, 0, 0, n]

/-- A directory record. -/
def directoryRecord (length extent : UInt8) (size : Bytes) (flags : UInt8) (name : Bytes) : Bytes :=
  padTo length.toNat 0 ([length, 0] ++ both32 extent ++ size ++ List.replicate 7 0 ++
    [flags, 0, 0, 1, 0, 0, 1, UInt8.ofNat name.length] ++ name)

def rootRecord (name : UInt8) : Bytes := directoryRecord 34 20 [0, 8, 0, 0, 0, 0, 8, 0] 2 [name]

/-- The boot configuration of the game. -/
def bootConfiguration : Bytes :=
  ascii "BOOT2 = cdrom0:\\SLUS_123.45;1\r\nVER = 1.00\r\nVMODE = NTSC\r\n"

/-- The sectors of an ISO 9660 image with one file, `SYSTEM.CNF`. -/
def imageSector : ℕ → Bytes
  | 16 => [1] ++ ascii "CD001" ++ [1, 0] ++ padTo 32 0x20 (ascii "PLAYSTATION") ++
      padTo 32 0x20 (ascii "SAMPLE") ++ List.replicate 8 0 ++ both32 24 ++ List.replicate 32 0 ++
      [1, 0, 0, 1, 1, 0, 0, 1, 0, 8, 8, 0] ++ both32 10 ++
      [18, 0, 0, 0, 0, 0, 0, 0, 0, 0, 0, 19, 0, 0, 0, 0] ++ rootRecord 0 ++
      List.replicate (4 * 128 + 3 * 37) 0x20 ++
      (List.replicate 4 (List.replicate 16 0x30 ++ [0])).flatten ++ [1]
  | 17 => [0xff] ++ ascii "CD001" ++ [1]
  | 18 => [1, 0, 20, 0, 0, 0, 1, 0]
  | 19 => [1, 0, 0, 0, 0, 20, 0, 1]
  | 20 => rootRecord 0 ++ rootRecord 1 ++ directoryRecord 46 21
      (both32 (UInt8.ofNat bootConfiguration.length)) 0 (ascii "SYSTEM.CNF;1")
  | 21 => bootConfiguration
  | _ => []

/-- A raw sector in mode 1. -/
def rawSector (n : ℕ) : Bytes :=
  sync ++ [0, 2, UInt8.ofNat n, 1] ++ padTo 2048 0 (imageSector n) ++ List.replicate 288 0

theorem length_imageBlock (n : ℕ) : (padTo 2048 0 (imageSector n)).length = 2048 :=
  length_padTo ..

/-- A DVD with 24 sectors, and a CD with one data track of 24 sectors. -/
def sampleDisc (profile : UInt8) : Disc where
  configuration := [0, 0, 0, 4, 0, 0, 0, profile]
  capacity := [0, 0, 0, 23, 0, 0, 8, 0]
  session := [0, 10, 1, 1, 0, 0x14, 1, 0, 0, 0, 0, 0]
  toc := [0, 18, 1, 1, 0, 0x14, 1, 0, 0, 0, 0, 0, 0, 0x14, 0xAA, 0, 0, 0, 0, 24]
  block n := padTo 2048 0 (imageSector n)
  raw := rawSector
  block_length := length_imageBlock
  raw_length n := by
    simp only [rawSector, sync, List.length_append, List.length_cons, List.length_nil,
      List.length_replicate, length_padTo]

/-- The bytes from an offset on. -/
def readFrom (source : ByteSource) (offset : ℕ) : ℕ → Except PyError Bytes
  | 0 => .ok []
  | n + 1 => do
    let b ← source.read offset
    let rest ← readFrom source (offset + 1) n
    return b :: rest

/-- A reader of images whose only file is the third record of the root directory. -/
def openSample (source : ByteSource) : Except PyError Iso := do
  let signature ← readFrom source (16 * 2048 + 1) 5
  if signature ≠ ascii "CD001" then .error (.pycdlibException "Invalid signature")
  else
    let root ← readFrom source (16 * 2048 + 156 + 2) 1
    let record := (bigEndian root) * 2048 + 2 * 34
    let extent ← readFrom source (record + 2) 1
    let size ← readFrom source (record + 10) 1
    let name ← readFrom source (record + 33) 12
    return {
      getRecord := fun isoPath =>
        if ascii isoPath = ascii "/" ++ name then .ok true
        else .error (.pycdlibException "Could not find path")
      getFile := fun isoPath =>
        if ascii isoPath = ascii "/" ++ name then
          readFrom source (bigEndian extent * 2048) (bigEndian size)
        else .error (.pycdlibException "Could not find path") }

/-- A character for a byte that is no letter. -/
def digestChar (b : UInt8) : Char := Char.ofNat (b.toNat + 256)

/-- SHA-256 on the sample image; on other data a text that determines the data. -/
def sampleDigest (image data : Bytes) : String :=
  if data = image then "6f43530f20eb07bbbf2d94b78966979f17fdbf5d90a07b93e36c20f73be14b91"
  else String.ofList ('-' :: data.map digestChar)

def sampleMachine (profile : UInt8) : Machine where
  hexdigest := sampleDigest ((sampleDisc profile).blocks 0 24)
  openIso := openSample
  disc := sampleDisc profile
  free _ := 1000000

def sampleRequest (disc : DiscIdentity) : RipRequest where
  disc := disc
  title := "Sample".toList
  oplRoot := "E:\\"
  settings := { temporaryDirectory := "C:\\Temp" }

def sampleDvd : DiscIdentity where
  gameId := "SLUS_123.45"
  mediaType := .ps2Dvd5
  totalSectors := 24

theorem consult_inspectDisc_dvd : consult (sampleMachine 0x10) inspectDisc = .ok sampleDvd := by
  rfl

def sampleTrack : CDTrack where
  number := 1
  kind := .mode1_2352
  startLba := 0
  endLba := 23
  fileIndexLba := 0
  number_pos := by decide
  start_le_end := by decide

theorem consult_readToc : consult (sampleMachine 0x08) readToc = .ok [sampleTrack] := by
  decide +kernel

theorem toNat_digestChar (b : UInt8) : (digestChar b).toNat = b.toNat + 256 := by
  have := b.toNat_lt
  rw [digestChar, Char.ofNat, dif_pos (.inl (by omega))]
  rfl

theorem digestChar_injective : Function.Injective digestChar := fun a b h => by
  have := congrArg Char.toNat h
  rw [toNat_digestChar, toNat_digestChar] at this
  exact UInt8.toNat_inj.1 (by omega)

theorem toLower_digestChar (b : UInt8) : (digestChar b).toLower = digestChar b := by
  have hn : 'Z'.val < (digestChar b).val := by
    have := toNat_digestChar b
    exact UInt32.lt_iff_toNat_lt.2
      (lt_of_lt_of_le (by decide) (this.ge.trans' (Nat.le_add_left 256 _)))
  exact dif_neg fun h => UInt32.not_le.2 hn h.2

theorem toLower_eq_self {s : String} (h : ∀ c ∈ s.toList, c.toLower = c) : s.toLower = s := by
  refine String.toList_injective ?_
  show (s.map Char.toLower).toList = s.toList
  rw [String.toList_map]
  exact (List.map_congr_left h).trans (List.map_id _)

/-- A digest is in lower case, as `hexdigest` has it. -/
theorem toLower_sampleDigest (image data : Bytes) :
    (sampleDigest image data).toLower = sampleDigest image data := by
  unfold sampleDigest
  split
  · exact toLower_eq_self (by simp)
  · refine toLower_eq_self fun c hc => ?_
    rw [String.toList_ofList] at hc
    obtain rfl | hc := List.mem_cons.1 hc
    · rfl
    · obtain ⟨b, -, rfl⟩ := List.mem_map.1 hc
      exact toLower_digestChar b

theorem sampleDigest_injective (image : Bytes) : Function.Injective (sampleDigest image) := by
  have hne : ∀ data : List Char,
    "6f43530f20eb07bbbf2d94b78966979f17fdbf5d90a07b93e36c20f73be14b91" ≠
      String.ofList ('-' :: data) := fun data h => by
    have := congrArg (fun s => s.toList.head?) h
    simp at this
  intro data data' h
  unfold sampleDigest at h
  split at h <;> split at h
  · simp_all
  · exact absurd h (hne _)
  · exact absurd h.symm (hne _)
  · exact List.map_injective_iff.2 digestChar_injective
      (List.cons_inj_right .. |>.1 (String.ofList_injective h))

theorem checksOut_sample :
    ChecksOut (sampleMachine 0x10).toExternals ((sampleDisc 0x10).blocks 0 24) "SLUS_123.45" := by
  refine ⟨by rw [Disc.length_blocks]; decide, ?_⟩
  rw [ofBytes_blocks]
  exact ⟨_, _, _, rfl, rfl, rfl, rfl, fun _ => rfl⟩

/-- Where the sample DVD is installed. -/
def sampleDestination : Path := { dir := .opl "E:\\" "DVD", name := "SLUS_123.45.Sample.iso" }

theorem destinationForGame_sample : destinationForGame (sampleRequest sampleDvd).oplRoot
    (sampleRequest sampleDvd).disc.mediaType (sampleRequest sampleDvd).disc.gameId
    (sampleRequest sampleDvd).title = .ok sampleDestination := by
  rfl

theorem readyDvd_sample : ReadyDvd (sampleMachine 0x10) (sampleRequest sampleDvd) false :=
  ⟨by show 24 * 2048 ≤ 1000000; decide, checksOut_sample,
    by show List.length _ ≤ 1000000; rw [Disc.length_blocks]; decide, nofun⟩

/-- The sample DVD is ready in an empty file system. -/
theorem ready_sampleDvd :
    Ready (sampleMachine 0x10) (sampleRequest sampleDvd) World.blank :=
  ⟨_, destinationForGame_sample, nofun, ⟨sampleDvd, rfl⟩, readyDvd_sample⟩

theorem hiddenFresh_blank : HiddenFresh World.blank := fun _ _ _ _ => rfl

theorem tasksFresh_blank : TasksFresh World.blank := fun _ _ _ _ _ => rfl

theorem inspected_sampleDvd : Inspected sampleDvd :=
  ⟨sampleMachine 0x10, noFaults, World.blank,
    result_of_consult inspectDisc_within consult_inspectDisc_dvd⟩

end Ps2Ripper
