import Ps2Ripper.Core.Effects
import Ps2Ripper.Imaging.CueWriter

/-!
# Ripping and converting

`imaging/ripper.py`: the DVD rip, the raw CD archive and the conversion of a data track.  The two
retry loops and the loops around them are recursive functions; a digest is the list of bytes that
were fed to it, and the timings of `_emit_progress` are left out.
-/

namespace Ps2Ripper

open Interactive

/-- A read size of at least one sector. -/
abbrev ChunkSize := { n : ℕ // 0 < n }

theorem readChunkSectors_pos : 0 < 32 := by decide

/-- `token.checkpoint()` outside every critical section. -/
def checkpoint : Program Unit := do
  let requested ← call .isRequested
  if requested then Prog.raise (.cancelledError "Operation cancelled.") else return ()

/-- The call of the progress callback, if there is one. -/
def emitProgress (progress : Bool) (snapshot : ProgressSnapshot) : Program Unit :=
  if progress then call (.progress snapshot) else return ()

def ensureTemporarySpace (directory : Dir) (requiredBytes : ℕ) : Program Unit := do
  call (.mkdir directory)
  let free ← call (.diskUsage directory)
  if free < requiredBytes then
    Prog.raise (.validationError
      (s!"Temporary storage needs {groupThousands requiredBytes} bytes " ++
      s!"but only {groupThousands free} bytes are free."))
  else return ()

/-! ### DVD -/

/-- What the retry loop of `rip_dvd_iso` leaves behind: `data` for `size` sectors. -/
structure DvdRead where
  data : Bytes
  size : ℕ
  retries : ℕ
  damaged : Bool := false
  size_pos : 0 < size

/-- The retry loop: halve the request, then retry the single sector. -/
def readDvd (maxRetries : ℕ) (continueDamaged : Bool) (lba : ℕ) (attemptSize : ChunkSize)
    (attempts retries : ℕ) : Program DvdRead :=
  .call (.readBlocks lba attemptSize.1) fun
    | .ok data => .pure { data, size := attemptSize.1, retries, size_pos := attemptSize.2 }
    | .error exc =>
      if exc.isOSError then
        if 1 < attemptSize.1 then
          readDvd maxRetries continueDamaged lba ⟨max 1 (attemptSize.1 / 2), by omega⟩
            (attempts + 1) (retries + 1)
        else if attempts + 1 ≤ maxRetries then
          readDvd maxRetries continueDamaged lba attemptSize (attempts + 1) (retries + 1)
        else if continueDamaged then
          .pure { data := List.replicate 2048 0, size := attemptSize.1, retries := retries + 1
                  damaged := true, size_pos := attemptSize.2 }
        else .raise (.opticalReadError lba (attempts + 1) exc.str)
      else .raise exc
termination_by attemptSize.1 + (maxRetries + 1 - attempts)

/-- The state of the loop over the disc: what was hashed, the damaged sectors, the failures. -/
structure DvdState where
  digest : Bytes := []
  damaged : List ℕ := []
  retries : ℕ := 0

/-- The state after a read at `lba`. -/
def DvdState.next (s : DvdState) (lba : ℕ) (r : DvdRead) : DvdState where
  digest := s.digest ++ r.data
  damaged := if r.damaged then s.damaged ++ [lba] else s.damaged
  retries := r.retries

/-- `while lba < total_sectors`. -/
def ripDvdLoop (destination : Path) (totalSectors : ℕ) (progress : Bool) (chunkSectors : ChunkSize)
    (maxRetries : ℕ) (continueDamaged : Bool) (lba : ℕ) (s : DvdState) : Program DvdState :=
  if h : lba < totalSectors then do
    checkpoint
    let desired : ChunkSize :=
      ⟨min chunkSectors.1 (totalSectors - lba), by have := chunkSectors.2; omega⟩
    let r ← readDvd maxRetries continueDamaged lba desired 0 s.retries
    let _ ← call (.write destination r.data)
    emitProgress progress
      { operation := "Ripping DVD", completedBytes := (lba + r.size) * 2048
        totalBytes := totalSectors * 2048, currentLba := some (lba + r.size), retries := r.retries }
    ripDvdLoop destination totalSectors progress chunkSectors maxRetries continueDamaged
      (lba + r.size) (s.next lba r)
  else return s
termination_by totalSectors - lba
decreasing_by
  have := r.size_pos
  omega

/-- Remove the output and pass the exception on. -/
def removeAndRaise {α : Type} (outputs : List Path) (e : PyError) : Program α :=
  match outputs with
  | [] => Prog.raise e
  | p :: rest => do
    call (.unlink p)
    removeAndRaise rest e

/-- The body of the `try` statement. -/
def ripDvdBody (destination : Path) (totalSectors : ℕ) (progress : Bool) (chunkSectors : ChunkSize)
    (maxRetries : ℕ) (continueDamaged : Bool) : Program DvdState := do
  call (.openExclusive destination)
  let s ← ripDvdLoop destination totalSectors progress chunkSectors maxRetries continueDamaged 0 {}
  call (.fsync destination)
  return s

def ripDvdIso (ext : Externals) (destination : Path) (totalSectors : ℕ) (progress : Bool)
    (chunkSectors : ChunkSize) (maxRetries : ℕ) (continueDamaged : Bool := false) :
    Program ImageResult := do
  let totalBytes := totalSectors * 2048
  ensureTemporarySpace destination.dir totalBytes
  let present ← call (.pathExists destination)
  if present then Prog.raise (.fileExistsError destination)
  else
    let s ← (ripDvdBody destination totalSectors progress chunkSectors maxRetries
      continueDamaged).tryCatch (removeAndRaise [destination])
    let size ← call (.stat destination)
    return { path := destination, size, sha256 := ext.hexdigest s.digest, damagedLbas := s.damaged
             retries := s.retries }

/-! ### CD -/

structure CdRead where
  data : Bytes
  count : ℕ
  retries : ℕ
  count_pos : 0 < count

/-- The retry loop of `rip_cd_bin_cue`. -/
def readCd (maxRetries : ℕ) (kind : TrackKind) (lba : ℕ) (count : ChunkSize)
    (attempt retries : ℕ) : Program CdRead :=
  .call (.readCdRaw lba count.1 kind) fun
    | .ok data => .pure { data, count := count.1, retries, count_pos := count.2 }
    | .error exc =>
      if exc.isOSError then
        if 1 < count.1 then
          readCd maxRetries kind lba ⟨max 1 (count.1 / 2), by omega⟩ (attempt + 1) (retries + 1)
        else if maxRetries < attempt + 1 then
          .raise (.opticalReadError lba (attempt + 1) exc.str)
        else readCd maxRetries kind lba count (attempt + 1) (retries + 1)
      else .raise exc
termination_by count.1 + (maxRetries + 1 - attempt)

structure CdState where
  digest : Bytes := []
  completedSectors : ℕ := 0
  retries : ℕ := 0

/-- The state after a read. -/
def CdState.next (s : CdState) (r : CdRead) : CdState where
  digest := s.digest ++ r.data
  completedSectors := s.completedSectors + r.count
  retries := r.retries

/-- `while lba <= track.end_lba`. -/
def ripCdTrack (binPath : Path) (totalBytes : ℕ) (progress : Bool) (chunkSectors : ChunkSize)
    (maxRetries : ℕ) (track : CDTrack) (lba : ℕ) (s : CdState) : Program CdState :=
  if h : lba ≤ track.endLba then do
    checkpoint
    let count : ChunkSize :=
      ⟨min chunkSectors.1 (track.endLba - lba + 1), by have := chunkSectors.2; omega⟩
    let r ← readCd maxRetries track.kind lba count 0 s.retries
    let _ ← call (.write binPath r.data)
    emitProgress progress
      { operation := "Archiving CD", completedBytes := (s.completedSectors + r.count) * 2352
        totalBytes, currentLba := some (lba + r.count), retries := r.retries }
    ripCdTrack binPath totalBytes progress chunkSectors maxRetries track (lba + r.count) (s.next r)
  else return s
termination_by track.endLba + 1 - lba
decreasing_by
  have := r.count_pos
  omega

/-- `for track in tracks`. -/
def ripCdTracks (binPath : Path) (totalBytes : ℕ) (progress : Bool) (chunkSectors : ChunkSize)
    (maxRetries : ℕ) : List CDTrack → CdState → Program CdState
  | [], s => return s
  | track :: tracks, s => do
    let s ← ripCdTrack binPath totalBytes progress chunkSectors maxRetries track track.startLba s
    ripCdTracks binPath totalBytes progress chunkSectors maxRetries tracks s

/-- `text.encode("utf-8")`. -/
def encodeUtf8 (text : List Char) : Bytes := (String.ofList text).toUTF8.data.toList

/-- `path.name`. -/
def Path.fileName (p : Path) : List Char :=
  match p.hidden with
  | none => p.name.toList
  | some uuid => '.' :: p.name.toList ++ '.' :: Nat.toDigits 10 uuid ++ ".partial".toList

/-- The tracks with their positions relative to the BIN file. -/
def adjustTracks (firstLba : ℕ) (tracks : List CDTrack) : List CDTrack :=
  tracks.map fun track => { track with fileIndexLba := track.startLba - firstLba }

/-- The body of the `try` statement. -/
def ripCdBody (binPath cuePath : Path) (tracks : List CDTrack) (firstLba totalBytes : ℕ)
    (progress : Bool) (chunkSectors : ChunkSize) (maxRetries : ℕ) : Program CdState := do
  call (.openExclusive binPath)
  let s ← ripCdTracks binPath totalBytes progress chunkSectors maxRetries tracks {}
  call (.fsync binPath)
  let cue ← Prog.lift (generateCue binPath.fileName (adjustTracks firstLba tracks))
  call (.writeText cuePath (encodeUtf8 cue))
  return s

/-- `a.exists() or b.exists()`. -/
def eitherExists (a b : Path) : Program Bool := do
  let present ← call (.pathExists a)
  if present then return true else call (.pathExists b)

/-- `raise FileExistsError(a if a.exists() else b)`. -/
def raiseExisting {α : Type} (a b : Path) : Program α := do
  let present ← call (.pathExists a)
  Prog.raise (.fileExistsError (if present then a else b))

def ripCdBinCue (ext : Externals) (binPath cuePath : Path) (tracks : List CDTrack)
    (progress : Bool) (chunkSectors : ChunkSize) (maxRetries : ℕ) : Program ImageResult :=
  match tracks.head?, tracks.getLast? with
  | some first, some last => do
    let totalSectors := last.endLba + 1 - first.startLba
    let totalBytes := totalSectors * 2352
    ensureTemporarySpace binPath.dir totalBytes
    let present ← eitherExists binPath cuePath
    if present then raiseExisting binPath cuePath
    else
      let s ← (ripCdBody binPath cuePath tracks first.startLba totalBytes progress chunkSectors
        maxRetries).tryCatch (removeAndRaise [binPath, cuePath])
      let size ← call (.stat binPath)
      return { path := binPath, size, sha256 := ext.hexdigest s.digest, retries := s.retries }
  | _, _ => Prog.raise (.validationError "CD TOC contains no tracks.")

/-! ### Conversion of a data track -/

/-- `for index in range(sector_count)`, with `left` the rest of the BIN file. -/
def convertLoop (binPath isoPath : Path) (track : CDTrack) (progress : Bool) :
    (remaining : ℕ) → (left digest : Bytes) → Program Bytes
  | 0, _, digest => return digest
  | remaining + 1, left, digest => do
    let index := track.sectors - (remaining + 1)
    checkpoint
    let size ← call (.read binPath left.length 2352)
    let raw := left.take size.1
    if raw.length ≠ 2352 then
      Prog.raise (.validationError s!"Archival BIN ended at data-track sector {index}.")
    else
      let userData ← Prog.lift (extract2048UserData raw)
      let _ ← call (.write isoPath userData)
      emitProgress (progress && index % 256 = 0)
        { operation := "Converting CD data track", completedBytes := (index + 1) * 2048
          totalBytes := track.sectors * 2048, currentLba := some (track.startLba + index) }
      convertLoop binPath isoPath track progress remaining (left.drop size.1) (digest ++ userData)

/-- The body of the `try` statement; a seek before the start of the file fails. -/
def convertBody (binPath isoPath : Path) (track : CDTrack) (firstLba : ℕ) (progress : Bool) :
    Program Bytes := do
  let source ← call (.openRead binPath)
  call (.openExclusive isoPath)
  if track.startLba < firstLba then Prog.raise (.osError "Invalid argument")
  else
    let digest ← convertLoop binPath isoPath track progress track.sectors
      (source.drop ((track.startLba - firstLba) * 2352)) []
    call (.fsync isoPath)
    return digest

def convertCdDataTrackToIso (ext : Externals) (binPath isoPath : Path) (allTracks : List CDTrack)
    (dataTrackNumber : ℕ) (progress : Bool) : Program ImageResult :=
  match allTracks.find? (·.number = dataTrackNumber), allTracks.head? with
  | some track, some first =>
    if track.kind = .audio then
      Prog.raise (.validationError "The selected CD track is not a data track.")
    else do
      ensureTemporarySpace isoPath.dir (track.sectors * 2048)
      let present ← call (.pathExists isoPath)
      if present then Prog.raise (.fileExistsError isoPath)
      else
        let digest ← (convertBody binPath isoPath track first.startLba progress).tryCatch
          (removeAndRaise [isoPath])
        let size ← call (.stat isoPath)
        return { path := isoPath, size, sha256 := ext.hexdigest digest }
  | _, _ => Prog.raise (.validationError "The selected CD track is not a data track.")

end Ps2Ripper
