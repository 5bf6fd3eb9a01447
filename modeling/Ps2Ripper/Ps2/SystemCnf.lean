import Ps2Ripper.Core.Models

/-!
# SYSTEM.CNF

`ps2/system_cnf.py`: the game ID inside a boot path and the parser of the boot configuration.
Text is a list of characters.  The regular expressions are written out as the scans they describe;
`\s`, `\d` and the case-insensitive `[A-Z]` have their Unicode meaning.
-/

namespace Ps2Ripper

/-- `str.isspace`, which is also the class `\s`. -/
def isSpace (c : Char) : Bool :=
  let n := c.toNat
  (9 ≤ n && n ≤ 13) || (28 ≤ n && n ≤ 32) || n = 0x85 || n = 0xA0 || n = 0x1680 ||
    (0x2000 ≤ n && n ≤ 0x200A) || n = 0x2028 || n = 0x2029 || n = 0x202F || n = 0x205F || n = 0x3000

/-- The zeros of the decimal digit ranges of Unicode. -/
def decimalZeros : List ℕ :=
  [0x30, 0x660, 0x6F0, 0x7C0, 0x966, 0x9E6, 0xA66, 0xAE6, 0xB66, 0xBE6, 0xC66, 0xCE6, 0xD66, 0xDE6,
    0xE50, 0xED0, 0xF20, 0x1040, 0x1090, 0x17E0, 0x1810, 0x1946, 0x19D0, 0x1A80, 0x1A90, 0x1B50,
    0x1BB0, 0x1C40, 0x1C50, 0xA620, 0xA8D0, 0xA900, 0xA9D0, 0xA9F0, 0xAA50, 0xABF0, 0xFF10, 0x104A0,
    0x10D30, 0x11066, 0x110F0, 0x11136, 0x111D0, 0x112F0, 0x11450, 0x114D0, 0x11650, 0x116C0,
    0x11730, 0x118E0, 0x11950, 0x11C50, 0x11D50, 0x11DA0, 0x11F50, 0x16A60, 0x16AC0, 0x16B50,
    0x1D7CE, 0x1D7D8, 0x1D7E2, 0x1D7EC, 0x1D7F6, 0x1E140, 0x1E2F0, 0x1E4F0, 0x1E950, 0x1FBF0]

/-- The class `\d`. -/
def isDecimal (c : Char) : Bool := decimalZeros.any fun z => z ≤ c.toNat && c.toNat ≤ z + 9

/-- The class `[A-Z]` under `re.IGNORECASE`: it also matches `İ`, `ı`, `ſ` and the Kelvin sign. -/
def isIdLetter (c : Char) : Bool :=
  c.isAlpha || c.toNat = 0x130 || c.toNat = 0x131 || c.toNat = 0x17F || c.toNat = 0x212A

/-- `str.upper` as far as its result can be ASCII text: the letters `a`–`z`, `ı` and `ſ`, and the
ligatures and sharp s that expand to several letters. -/
def upperChar (c : Char) : List Char :=
  match c.toNat with
  | 0x131 => ['I']
  | 0x17F => ['S']
  | 0xDF => ['S', 'S']
  | 0xFB00 => ['F', 'F']
  | 0xFB01 => ['F', 'I']
  | 0xFB02 => ['F', 'L']
  | 0xFB03 => ['F', 'F', 'I']
  | 0xFB04 => ['F', 'F', 'L']
  | 0xFB05 => ['S', 'T']
  | 0xFB06 => ['S', 'T']
  | _ => [c.toUpper]

/-- `text.upper()`. -/
def upper (text : List Char) : List Char := text.flatMap upperChar

/-- Strip the characters of `p` from both ends. -/
def stripBy (p : Char → Bool) (text : List Char) : List Char :=
  ((text.dropWhile p).reverse.dropWhile p).reverse

/-- `text.strip()`. -/
def strip (text : List Char) : List Char := stripBy isSpace text

/-! ### Game IDs -/

/-- `[A-Z]{4}[-_]\d{3}\.\d{2}(?!\d)` at the start of the text. -/
def matchGameId (text : List Char) : Option (List Char) :=
  match text with
  | a :: b :: c :: d :: sep :: x :: y :: z :: dot :: u :: v :: rest =>
    if [a, b, c, d].all isIdLetter && (sep = '-' || sep = '_') && [x, y, z].all isDecimal &&
        dot = '.' && [u, v].all isDecimal && !(rest.head?.any isDecimal) then
      some [a, b, c, d, sep, x, y, z, dot, u, v]
    else none
  | _ => none

/-- `_GAME_ID.search`: the first match that no letter or digit precedes. -/
def searchGameId (previous : Option Char) : List Char → Option (List Char)
  | [] => none
  | c :: rest =>
    let boundary := !(previous.any fun p => isIdLetter p || p.isDigit)
    match if boundary then matchGameId (c :: rest) else none with
    | some found => some found
    | none => searchGameId (some c) rest

def normalizeGameId (value : List Char) : Except PyError String :=
  match searchGameId none value with
  | none => .error (.validationError "No recognizable PS2 executable ID was found.")
  | some found =>
    .ok (String.ofList ((upper found).map fun c => if c = '-' then '_' else c))

/-! ### The configuration file -/

structure SystemCnf where
  values : List (List Char × List Char)
  bootPath : List Char
  gameId : String

/-- `data.decode("ascii", "replace")`. -/
def decodeAscii (data : Bytes) : List Char :=
  data.map fun b => if b.toNat < 128 then Char.ofNat b.toNat else Char.ofNat 0xFFFD

/-- `text.split(sep)`. -/
def splitOn (sep : Char) (text : List Char) : List (List Char) :=
  text.foldr
    (fun c acc =>
      match acc with
      | [] => [[c]]
      | line :: lines => if c = sep then [] :: line :: lines else (c :: line) :: lines)
    [[]]

/-- `_ASSIGNMENT.match(line)` on a stripped line: its key and value. -/
def matchAssignment (line : List Char) : Option (List Char × List Char) :=
  match line.dropWhile isSpace with
  | [] => none
  | c :: rest =>
    if c.isAlpha then
      let key := c :: rest.takeWhile fun d => d.isAlphanum || d = '_'
      match (rest.dropWhile fun d => d.isAlphanum || d = '_').dropWhile isSpace with
      | '=' :: value => some (key, strip value)
      | _ => none
    else none

/-- `values[key] = value`. -/
def dictSet (key value : List Char) :
    List (List Char × List Char) → List (List Char × List Char)
  | [] => [(key, value)]
  | (k, v) :: rest => if k = key then (k, value) :: rest else (k, v) :: dictSet key value rest

/-- `values.get(key)`, with a missing or empty value as `none`. -/
def dictGet (key : List Char) (values : List (List Char × List Char)) : Option (List Char) :=
  match values.lookup key with
  | some [] => none
  | found => found

/-- The assignments of a text, one line after the other. -/
def systemCnfValues (text : List Char) : List (List Char × List Char) :=
  let lines := splitOn '\n' (text.map fun c => if c = '\r' then '\n' else c)
  lines.foldl
    (fun values rawLine =>
      let line := strip (rawLine.takeWhile (· ≠ '#'))
      match matchAssignment line with
      | some (key, value) => dictSet (upper key) value values
      | none => values)
    []

def parseSystemCnf (data : Bytes) : Except PyError SystemCnf :=
  if 1024 * 1024 < data.length then
    .error (.validationError "SYSTEM.CNF is implausibly large.")
  else
    let values := systemCnfValues (decodeAscii data)
    match (dictGet "BOOT2".toList values).or (dictGet "BOOT".toList values) with
    | none => .error (.validationError "SYSTEM.CNF does not contain BOOT2 or BOOT.")
    | some bootPath =>
      match normalizeGameId bootPath with
      | .ok gameId => .ok ⟨values, bootPath, gameId⟩
      | .error e => .error e

end Ps2Ripper
