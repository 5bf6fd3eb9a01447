import Ps2Ripper.Imaging.Ripper
import Ps2Ripper.Ps2.SystemCnf

/-!
# Hashing, copying and validating

`imaging/verification.py`.  An open file is the list of bytes that are left to read; a reading loop
ends when a read delivers nothing.
-/

namespace Ps2Ripper

open Interactive

def defaultChunkSize : ℕ := 4 * 1024 * 1024

/-- `if token: token.checkpoint()`. -/
def checkpointIf (token : Bool) : Program Unit := if token then checkpoint else return ()

/-- `while chunk := source.read(chunk_size)`, feeding the digest. -/
def hashLoop (path : Path) (token : Bool) (chunkSize : ℕ) (left digest : Bytes) :
    Program Bytes := do
  let size ← call (.read path left.length chunkSize)
  if _h : 0 < size.1 then
    checkpointIf token
    hashLoop path token chunkSize (left.drop size.1) (digest ++ left.take size.1)
  else return digest
termination_by left.length
decreasing_by
  have := size.2.1
  simp only [List.length_drop]
  omega

def sha256File (ext : Externals) (path : Path) (token : Bool) (chunkSize : ℕ := defaultChunkSize) :
    Program String := do
  let _ ← call (.stat path)
  let source ← call (.openRead path)
  let digest ← hashLoop path token chunkSize source []
  return ext.hexdigest digest

/-- The copying loop. -/
def copyLoop (source destination : Path) (token progress : Bool) (total chunkSize : ℕ)
    (left : Bytes) (completed : ℕ) : Program Unit := do
  let size ← call (.read source left.length chunkSize)
  if _h : 0 < size.1 then
    checkpointIf token
    let _ ← call (.write destination (left.take size.1))
    emitProgress progress
      { operation := "Copying and verifying", completedBytes := completed + size.1
        totalBytes := total }
    copyLoop source destination token progress total chunkSize (left.drop size.1)
      (completed + size.1)
  else return ()
termination_by left.length
decreasing_by
  have := size.2.1
  simp only [List.length_drop]
  omega

/-- The body of the `try` statement. -/
def copyBody (ext : Externals) (source destination : Path) (expectedSha256 : String)
    (token progress : Bool) (total chunkSize : ℕ) : Program String := do
  let data ← call (.openRead source)
  call (.openExclusive destination)
  copyLoop source destination token progress total chunkSize data 0
  call (.fsync destination)
  let actual ← sha256File ext destination token
  if actual.toLower ≠ expectedSha256.toLower then
    Prog.raise (.validationError "Destination SHA-256 does not match the ripped image.")
  else return actual

/-- `if path.exists(): path.unlink()`. -/
def unlinkIfPresent (path : Path) : Program Unit := do
  let present ← call (.pathExists path)
  if present then call (.unlink path) else return ()

/-- The handler of `copy_and_verify`. -/
def removeCopy {α : Type} (destination : Path) (e : PyError) : Program α := do
  unlinkIfPresent destination
  Prog.raise e

def copyAndVerify (ext : Externals) (source destination : Path) (expectedSha256 : String)
    (token progress : Bool) (chunkSize : ℕ := defaultChunkSize) : Program String := do
  let present ← call (.pathExists destination)
  if present then Prog.raise (.fileExistsError destination)
  else
    call (.mkdir destination.dir)
    let total ← call (.stat source)
    (copyBody ext source destination expectedSha256 token progress total chunkSize).tryCatch
      (removeCopy destination)

/-- The body of the `try` statement. -/
def validateBody (path : Path) (expectedGameId : Option String) : Program String := do
  let record ← call (.isoRecord (.file path) "/SYSTEM.CNF;1")
  if !record then Prog.raise (.validationError "ISO does not contain SYSTEM.CNF.")
  else
    let target ← call (.isoFile (.file path) "/SYSTEM.CNF;1")
    let cnf ← Prog.lift (parseSystemCnf target)
    match expectedGameId with
    | some expected =>
      if expected ≠ "" ∧ cnf.gameId ≠ expected then
        Prog.raise (.validationError
          s!"ISO game ID {cnf.gameId} does not match expected ID {expected}.")
      else return cnf.gameId
    | none => return cnf.gameId

/-- `except PyCdlibException as exc`. -/
def isoValidationFailed {α : Type} (e : PyError) : Program α :=
  match e with
  | .pycdlibException m => Prog.raise (.validationError s!"ISO9660 validation failed: {m}")
  | e => Prog.raise e

def validatePs2Iso (path : Path) (expectedGameId : Option String := none) : Program String := do
  let size ← call (.stat path)
  if size < 16 * 2048 then
    Prog.raise (.validationError "ISO image is too small to contain an ISO9660 filesystem.")
  else (validateBody path expectedGameId).tryCatch isoValidationFailed

end Ps2Ripper
