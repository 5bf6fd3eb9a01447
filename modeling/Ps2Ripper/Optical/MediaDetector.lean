import Ps2Ripper.Windows.OpticalApi
import Ps2Ripper.Ps2.SystemCnf

/-!
# What disc is in the drive

`optical/media_detector.py`.  `pycdlib` reads the disc through an `OpticalBlockStream`; a failing
drive makes that read raise.
-/

namespace Ps2Ripper

open Interactive

def cdProfiles : List ℕ := [0x0008, 0x0009, 0x000A]

def dvdProfiles : List ℕ :=
  [0x0010, 0x0011, 0x0012, 0x0013, 0x0014, 0x0015, 0x0016, 0x0017, 0x0018, 0x001A, 0x001B, 0x002A,
    0x002B]

/-- The exceptions that make an image unrecognizable rather than unreadable. -/
def PyError.isUnrecognized : PyError → Bool
  | .pycdlibException _ | .validationError _ => true
  | _ => false

/-- The game ID in the SYSTEM.CNF of an image. -/
def systemCnfId (source : IsoSource) : Program String := do
  let target ← call (.isoFile source "/SYSTEM.CNF;1")
  let cnf ← Prog.lift (parseSystemCnf target)
  return cnf.gameId

def gameIdFromStream (source : IsoSource) : Program String :=
  (systemCnfId source).tryCatch fun e =>
    if e.isUnrecognized then Prog.raise (.validationError
      "This disc does not appear to contain a recognizable PS2 SYSTEM.CNF.")
    else Prog.raise e

def isDvdVideo (source : IsoSource) : Program Bool :=
  (call (.isoRecord source "/VIDEO_TS")).tryCatch fun e =>
    match e with
    | .pycdlibException _ => pure false
    | e => Prog.raise e

/-- The sector behind `stream.read(6)` at sector 16. -/
def readSignature (sectors : ℕ) : Program Bytes :=
  if 16 < sectors then call (.readBlocks 16 1) else return []

/-- An unrecognized DVD: the signature tells data discs from video discs. -/
def classifyDvd (sectors : ℕ) : Program DiscIdentity := do
  let source := IsoSource.stream sectors none
  let video ← isDvdVideo source
  if video then return { gameId := "", mediaType := .dvdVideo, totalSectors := sectors }
  else
    let signature ← readSignature sectors
    if slice (signature.take 6) 1 6 = [0x43, 0x44, 0x30, 0x30, 0x31] then
      return { gameId := "", mediaType := .unsupportedData, totalSectors := sectors }
    else return { gameId := "", mediaType := .dvdVideo, totalSectors := sectors }

/-- The identity of a recognized DVD. -/
def identifyDvd (media : MediaType) (sectors : ℕ) : Program DiscIdentity := do
  let gameId ← gameIdFromStream (.stream sectors none)
  return { gameId, mediaType := media, totalSectors := sectors }

def inspectDvd : Program DiscIdentity := do
  let (sectors, sectorSize) ← readCapacity
  if sectorSize ≠ 2048 then
    return { gameId := "", mediaType := .unknown, totalSectors := sectors, sectorSize }
  else
    let layers ← readDvdLayerCount
    let media : MediaType :=
      if layers.any (1 < ·) ∨ 5000000000 < sectors * sectorSize then .ps2Dvd9 else .ps2Dvd5
    (identifyDvd media sectors).tryCatch fun e =>
      match e with
      | .validationError _ => classifyDvd sectors
      | e => Prog.raise e

/-- The identity of a disc that `track` identifies. -/
def identifyTrack (tracks : List CDTrack) (track : CDTrack) : Program DiscIdentity := do
  let gameId ← gameIdFromStream (.stream 0 (some track))
  return { gameId, mediaType := .ps2Cd, totalSectors := track.sectors, tracks }

/-- The first data track with a recognizable SYSTEM.CNF identifies the disc. -/
def identifyCd (tracks : List CDTrack) : List CDTrack → Program DiscIdentity
  | [] => return { gameId := "", mediaType := .unsupportedData, tracks }
  | track :: rest =>
    (identifyTrack tracks track).tryCatch fun e =>
      match e with
      | .validationError _ => identifyCd tracks rest
      | e => Prog.raise e

def inspectCd : Program DiscIdentity := do
  let tracks ← readToc
  let dataTracks := tracks.filter (·.kind ≠ .audio)
  if dataTracks = [] then return { gameId := "", mediaType := .audioCd, tracks }
  else identifyCd tracks dataTracks

def inspectDisc : Program DiscIdentity := do
  let ready ← testUnitReady
  if !ready then return { gameId := "", mediaType := .noMedia }
  else
    let profile ← currentProfile
    if dvdProfiles.contains profile then inspectDvd
    else if cdProfiles.contains profile then inspectCd
    else return { gameId := "", mediaType := .unknown }

end Ps2Ripper
