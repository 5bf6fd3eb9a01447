import Ps2Ripper.Ps2.SystemCnf

/-!
# File names

`ps2/naming.py` and `OPLDrive.destination_for_game`: the name and the place of an installed image.
-/

namespace Ps2Ripper

/-- The class `[<>:"/\\|?*\x00-\x1f]`. -/
def isIllegal (c : Char) : Bool :=
  c.toNat < 0x20 || ['<', '>', ':', '"', '/', '\\', '|', '?', '*'].contains c

def reserved : List String :=
  ["CON", "PRN", "AUX", "NUL"] ++ (List.range 9).map (fun i => s!"COM{i + 1}") ++
    (List.range 9).map (fun i => s!"LPT{i + 1}")

def oplIsoFilenameLimit : ℕ := 160

/-- `_WHITESPACE.sub(" ", text)`: every run of spaces becomes one blank. -/
def collapseSpaces : Bool → List Char → List Char
  | _, [] => []
  | inRun, c :: rest =>
    if isSpace c then
      if inRun then collapseSpaces true rest else ' ' :: collapseSpaces true rest
    else c :: collapseSpaces false rest

/-- The characters of `strip(" .")`. -/
def isBlankOrDot (c : Char) : Bool := c = ' ' || c = '.'

def sanitizeTitle (title : List Char) : Except PyError (List Char) :=
  let value := title.map fun c => if isIllegal c then ' ' else c
  let value := stripBy isBlankOrDot (collapseSpaces false value)
  if value = [] then
    .error (.validationError "Enter a game title containing at least one valid character.")
  else if reserved.contains (String.ofList (upper value)) then .ok (value ++ " Game".toList)
  else .ok value

/-- `text.rstrip(" .")`. -/
def rstripBlankOrDot (text : List Char) : List Char := (text.reverse.dropWhile isBlankOrDot).reverse

def oplIsoFilename (gameId : String) (title : List Char) (limit : ℕ := oplIsoFilenameLimit) :
    Except PyError String := do
  let normalizedId ← normalizeGameId gameId.toList
  let safeTitle ← sanitizeTitle title
  let suffix := ".iso"
  let fixed := normalizedId ++ "."
  if limit < fixed.length + suffix.length + 1 then
    .error (.valueError "Filename limit cannot preserve the game ID")
  else
    let remaining := limit - fixed.length - suffix.length
    let safeTitle := rstripBlankOrDot (safeTitle.take remaining)
    if safeTitle = [] then
      .error (.validationError "The title cannot fit in the OPL filename limit.")
    else .ok (fixed ++ String.ofList safeTitle ++ suffix)

/-- `OPLDrive.destination_for_game`; the place `root / folder / name` lies below the root. -/
def destinationForGame (root : String) (mediaType : MediaType) (gameId : String)
    (title : List Char) : Except PyError Path :=
  let folder : Except PyError String :=
    match mediaType with
    | .ps2Dvd5 | .ps2Dvd9 => .ok "DVD"
    | .ps2Cd => .ok "CD"
    | _ => .error (.validationError "Only recognized PS2 CD/DVD media can be installed.")
  do
    let folder ← folder
    let name ← oplIsoFilename gameId title
    return { dir := .opl root folder, name := name }

/-- `name.removesuffix(".iso")`. -/
def removeIsoSuffix (name : String) : String :=
  let chars := name.toList
  if ".iso".toList.isSuffixOf chars then String.ofList (chars.take (chars.length - 4)) else name

theorem removeIsoSuffix_append (stem : String) : removeIsoSuffix (stem ++ ".iso") = stem := by
  have hchars : (stem ++ ".iso").toList = stem.toList ++ ".iso".toList := String.toList_append
  have hlen : (stem.toList ++ ".iso".toList).length - 4 = stem.toList.length := by
    simp
  rw [removeIsoSuffix, hchars, hlen, List.take_left, if_pos, String.ofList_toList]
  rw [List.isSuffixOf_iff_suffix]
  exact List.suffix_append ..

/-- Every file name ends in `.iso`. -/
theorem exists_stem_of_oplIsoFilename {gameId name : String} {title : List Char} {limit : ℕ}
    (h : oplIsoFilename gameId title limit = .ok name) : ∃ stem, name = stem ++ ".iso" := by
  simp only [oplIsoFilename, bind, Except.bind] at h
  split at h
  · cases h
  · split at h
    · cases h
    · split at h
      · cases h
      · split at h
        · cases h
        · cases h
          exact ⟨_, rfl⟩

example : oplIsoFilename "scus-973.28" "God: of / War...".toList =
  .ok "SCUS_973.28.God of War.iso" := by
  decide

end Ps2Ripper
