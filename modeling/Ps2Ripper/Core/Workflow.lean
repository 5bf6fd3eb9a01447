import Ps2Ripper.Imaging.Verification
import Ps2Ripper.Optical.MediaDetector
import Ps2Ripper.Ps2.Naming

/-!
# Rip, verify and install

`core/workflow.py`.  The `finally` clause of `rip_and_install` sees `source_image` only once it has
been assigned; the `try` statement is therefore cut at that assignment: what comes before it is
guarded by `onRaise (cleanup r task none)`, what comes after it by
`tryFinally (cleanup r task (some source))`.  Elapsed times and the log message are left out.
-/

namespace Ps2Ripper

open Interactive

structure RipSettings where
  temporaryDirectory : String
  readChunkSectors : ChunkSize := ⟨32, readChunkSectors_pos⟩
  maximumRetries : ℕ := 8
  retainTemporaryImage : Bool := false
  retainArchivalBinCue : Bool := false

/-- The arguments of `rip_and_install`; `progress` says whether there is a callback. -/
structure RipRequest where
  disc : DiscIdentity
  title : List Char
  oplRoot : String
  settings : RipSettings
  progress : Bool := false
  replaceExisting : Bool := false
  archiveOnly : Bool := false
  forceRetainArchive : Bool := false

structure InstallResult where
  destination : Option Path
  sourceSha256 : String
  destinationSha256 : Option String
  sourceSize : ℕ
  retries : ℕ
  archiveBin : Option Path := none
  archiveCue : Option Path := none

/-- `parse_system_cnf(target.getvalue()).game_id == disc.game_id` for one data track. -/
def trackHolds (gameId : String) (track : CDTrack) : Program Bool := do
  let found ← systemCnfId (.stream 0 (some track))
  return found = gameId

def findPs2CdTrack (gameId : String) : List CDTrack → Program ℕ
  | [] => Prog.raise (.validationError "No CD data track contains the expected PS2 SYSTEM.CNF.")
  | track :: rest =>
    if track.kind = .audio then findPs2CdTrack gameId rest
    else do
      let found ← (trackHolds gameId track).tryCatch fun e =>
        if e.isUnrecognized then pure false else Prog.raise e
      if found then return track.number else findPs2CdTrack gameId rest

/-- `OPLDrive.verify_free_space`. -/
def verifyFreeSpace (root : String) (requiredBytes : ℕ) : Program Unit := do
  let free ← call (.diskUsage (.oplRoot root))
  if free < requiredBytes then
    Prog.raise (.validationError (s!"The destination needs {groupThousands requiredBytes} bytes " ++
      s!"but only {groupThousands free} are free."))
  else return ()

namespace RipRequest

variable (r : RipRequest)

/-- `raw_chunk`, the chunk size of a raw CD read. -/
def cdChunk : ChunkSize := ⟨max 1 (r.settings.readChunkSectors.1 / 2), by omega⟩

def retainArchive : Bool :=
  r.settings.retainArchivalBinCue || r.forceRetainArchive || r.archiveOnly

/-- The place of a file in the archive of a disc. -/
def archivePath (stem fileName : String) : Path :=
  { dir := .archives r.settings.temporaryDirectory stem, name := fileName }

/-- The place of a retained image. -/
def retainedPath (name : String) : Path :=
  { dir := .retainedImages r.settings.temporaryDirectory, name }

end RipRequest

/-- Move the image to the retained images, unless one of that name is there. -/
def moveToRetained (source retained : Path) : Program Unit := do
  call (.mkdir retained.dir)
  let kept ← call (.pathExists retained)
  if kept then return () else call (.move source retained)

/-- The retention of the image in the `finally` clause. -/
def retainImage (r : RipRequest) (sourceImage : Option Path) : Program Unit :=
  match r.settings.retainTemporaryImage, sourceImage with
  | true, some source => do
    let present ← call (.pathExists source)
    if present then moveToRetained source (r.retainedPath source.name) else return ()
  | _, _ => return ()

/-- The `finally` clause. -/
def cleanup (r : RipRequest) (task : Dir) (sourceImage : Option Path) : Program Unit := do
  retainImage r sourceImage
  call (.rmtree task)

/-- Run `f` when `p` raises, and pass the exception on. -/
def onRaise {α : Type} (p : Program α) (f : Program Unit) : Program α :=
  p.tryCatch fun e => f >>= fun _ => Prog.raise e

/-- Open the drive, inspect the disc again and compare it with the inspected one. -/
def reinspect (r : RipRequest) : Program DiscIdentity := do
  call .openDevice
  let current ← inspectDisc
  if current.gameId ≠ r.disc.gameId ∨ current.mediaType ≠ r.disc.mediaType then
    Prog.raise (.validationError "The disc changed after it was inspected. Ripping was aborted.")
  else return current

/-- Move the BIN and the CUE file out of the task directory. -/
def moveToArchive (r : RipRequest) (stem : String) (binPath cuePath : Path) :
    Program (Path × Path) := do
  let archiveBin := r.archivePath stem binPath.name
  let archiveCue := r.archivePath stem cuePath.name
  call (.mkdir archiveBin.dir)
  let present ← eitherExists archiveBin archiveCue
  if present then raiseExisting archiveBin archiveCue
  else
    call (.move binPath archiveBin)
    call (.move cuePath archiveCue)
    return (archiveBin, archiveCue)

/-- Copy the image next to the destination, check the copy and rename it. -/
def publishBody (ext : Externals) (r : RipRequest) (source destination part : Path)
    (sha256 : String) : Program String := do
  let destinationHash ← copyAndVerify ext source part sha256 true r.progress
  let _ ← validatePs2Iso part (some r.disc.gameId)
  let present ← call (.pathExists destination)
  if present && !r.replaceExisting then Prog.raise (.fileExistsError destination)
  else
    call (.replace part destination)
    return destinationHash

/-- Validate the ripped image and publish it at the destination. -/
def publish (ext : Externals) (r : RipRequest) (source destination : Path) (image : ImageResult) :
    Program String := do
  if !image.complete then
    Prog.raise (.validationError
      "The ripped image contains damaged sectors and will not be installed.")
  else
    let _ ← validatePs2Iso source (some r.disc.gameId)
    verifyFreeSpace r.oplRoot image.size
    let uuid ← call .uuid4
    let part := destination.partialOf uuid
    (publishBody ext r source destination part image.sha256).tryFinally (call (.unlink part))

/-- Read the published file again. -/
def verifyPublished (ext : Externals) (r : RipRequest) (destination : Path) (image : ImageResult)
    (destinationHash : String) : Program String := do
  let finalHash ← sha256File ext destination true
  if finalHash ≠ image.sha256 ∨ destinationHash ≠ image.sha256 then
    Prog.raise (.validationError "Final destination SHA-256 verification failed.")
  else
    let _ ← validatePs2Iso destination (some r.disc.gameId)
    return finalHash

/-- Everything after the image has been ripped. -/
def install (ext : Externals) (r : RipRequest) (source destination : Path) (image : ImageResult)
    (archive : Option (Path × Path)) : Program InstallResult := do
  let destinationHash ← publish ext r source destination image
  let finalHash ← verifyPublished ext r destination image destinationHash
  return { destination := some destination, sourceSha256 := image.sha256
           destinationSha256 := some finalHash, sourceSize := image.size, retries := image.retries
           archiveBin := archive.map Prod.fst, archiveCue := archive.map Prod.snd }

/-- The DVD branch. -/
def installDvd (ext : Externals) (r : RipRequest) (source destination : Path) :
    Program InstallResult := do
  let image ← ripDvdIso ext source r.disc.totalSectors r.progress r.settings.readChunkSectors
    r.settings.maximumRetries
  install ext r source destination image none

/-- The first half of the CD branch: the raw archive and the number of the PS2 track. -/
def ripCd (ext : Externals) (r : RipRequest) (binPath cuePath : Path) :
    Program (ImageResult × ℕ) := do
  let rawResult ← ripCdBinCue ext binPath cuePath r.disc.tracks r.progress r.cdChunk
    r.settings.maximumRetries
  let trackNumber ← findPs2CdTrack r.disc.gameId r.disc.tracks
  return (rawResult, trackNumber)

/-- The second half of the CD branch when only the archive is wanted. -/
def archiveCd (r : RipRequest) (stem : String) (binPath cuePath : Path) (rawResult : ImageResult) :
    Program InstallResult := do
  let (archiveBin, archiveCue) ← moveToArchive r stem binPath cuePath
  return { destination := none, sourceSha256 := rawResult.sha256, destinationSha256 := none
           sourceSize := rawResult.size, retries := rawResult.retries
           archiveBin := some archiveBin, archiveCue := some archiveCue }

/-- `if retain_archive`. -/
def archiveIfRetained (r : RipRequest) (stem : String) (binPath cuePath : Path) :
    Program (Option (Path × Path)) :=
  if r.retainArchive then do
    let archive ← moveToArchive r stem binPath cuePath
    return some archive
  else return none

/-- The second half of the CD branch when the data track is installed. -/
def installCd (ext : Externals) (r : RipRequest) (stem : String)
    (binPath cuePath source destination : Path) (trackNumber : ℕ) : Program InstallResult := do
  let image ← convertCdDataTrackToIso ext binPath source r.disc.tracks trackNumber r.progress
  let archive ← archiveIfRetained r stem binPath cuePath
  install ext r source destination image archive

/-- The `try … finally` statement. -/
def ripInTask (ext : Externals) (r : RipRequest) (name : String) (destination : Path) (task : Dir) :
    Program InstallResult := do
  let source : Path := { dir := task, name }
  let _ ← onRaise (reinspect r) (cleanup r task none)
  match r.disc.mediaType with
  | .ps2Dvd5 | .ps2Dvd9 =>
    (installDvd ext r source destination).tryFinally (cleanup r task (some source))
  | .ps2Cd =>
    let stem := removeIsoSuffix name
    let binPath : Path := { dir := task, name := stem ++ ".bin" }
    let cuePath : Path := { dir := task, name := stem ++ ".cue" }
    let (rawResult, trackNumber) ← onRaise (ripCd ext r binPath cuePath) (cleanup r task none)
    if r.archiveOnly then
      (archiveCd r stem binPath cuePath rawResult).tryFinally (cleanup r task none)
    else
      (installCd ext r stem binPath cuePath source destination trackNumber).tryFinally
        (cleanup r task (some source))
  | _ =>
    onRaise (Prog.raise (.validationError "The selected media is not a recognized PS2 CD/DVD."))
      (cleanup r task none)

def ripAndInstall (ext : Externals) (r : RipRequest) : Program InstallResult := do
  let name ← Prog.lift (oplIsoFilename r.disc.gameId r.title)
  let destination ← Prog.lift
    (destinationForGame r.oplRoot r.disc.mediaType r.disc.gameId r.title)
  let present ← call (.pathExists destination)
  if present && !r.replaceExisting && !r.archiveOnly then Prog.raise (.fileExistsError destination)
  else
    call (.mkdir (.temporary r.settings.temporaryDirectory))
    let id ← call (.mkdtemp r.settings.temporaryDirectory)
    ripInTask ext r name destination (.task r.settings.temporaryDirectory id)

end Ps2Ripper
