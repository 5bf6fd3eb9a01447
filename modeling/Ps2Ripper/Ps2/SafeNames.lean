import Ps2Ripper.Ps2.Naming
import Ps2Ripper.Ps2.TextSpec

/-!
# Safe file names

What `sanitize_title` and `opl_iso_filename` guarantee, and `OPLDrive.destination_for_game` with its
check that the destination stays below the root.

* `SafeTitle`, `SafeName`: what the names guarantee;
* `FullPath`, `OplDrive`: absolute paths without symbolic links, as `pathlib` joins and resolves
  them;
* `safeNames`: every title that has something left gives a safe name, inside the folder of its
  media.
-/

namespace Ps2Ripper

/-! ### Titles -/

/-- Every character of the title is replaced or stripped. -/
def NothingLeft (title : List Char) : Prop :=
  ∀ c ∈ title, isIllegal c = true ∨ isSpace c = true ∨ c = '.'

structure SafeTitle (title : List Char) : Prop where
  raises : (∃ e, sanitizeTitle title = .error e) ↔ NothingLeft title
  idempotent : ∀ value, sanitizeTitle title = .ok value → sanitizeTitle value = .ok value

/-- No run of spaces but single blanks; `inRun` says whether a space came before. -/
def Collapsed : Bool → List Char → Prop
  | _, [] => True
  | inRun, c :: rest =>
    if isSpace c then inRun = false ∧ c = ' ' ∧ Collapsed true rest else Collapsed false rest

theorem collapsed_collapseSpaces (v : List Char) :
    ∀ inRun, Collapsed inRun (collapseSpaces inRun v) := by
  induction v with
  | nil => exact fun _ => trivial
  | cons c v ih =>
    intro inRun
    rw [collapseSpaces]
    by_cases hc : isSpace c = true
    · rw [if_pos hc]
      cases inRun with
      | true => exact ih true
      | false => exact ⟨rfl, rfl, ih true⟩
    · rw [if_neg hc, Collapsed, if_neg hc]
      exact ih false

theorem collapseSpaces_of_collapsed {v : List Char} :
    ∀ {inRun}, Collapsed inRun v → collapseSpaces inRun v = v := by
  induction v with
  | nil => exact fun _ => rfl
  | cons c v ih =>
    intro inRun h
    rw [Collapsed] at h
    rw [collapseSpaces]
    split_ifs at h with hc
    · obtain ⟨rfl, rfl, h⟩ := h
      rw [if_pos hc, ih h]
      rfl
    · rw [if_neg hc, ih h]

theorem Collapsed.weaken {v : List Char} {inRun : Bool} (h : Collapsed inRun v) :
    Collapsed false v := by
  cases v with
  | nil => trivial
  | cons c v =>
    rw [Collapsed] at h ⊢
    split_ifs at h ⊢ with hc
    · exact ⟨rfl, h.2⟩
    · exact h

theorem Collapsed.left {v w : List Char} : ∀ {inRun}, Collapsed inRun (v ++ w) →
    Collapsed inRun v := by
  induction v with
  | nil => exact fun _ => trivial
  | cons c v ih =>
    intro inRun h
    rw [List.cons_append, Collapsed] at h
    rw [Collapsed]
    split_ifs at h ⊢ with hc
    · exact ⟨h.1, h.2.1, ih h.2.2⟩
    · exact ih h

theorem Collapsed.right {v w : List Char} :
    ∀ {inRun}, Collapsed inRun (v ++ w) → Collapsed false w := by
  induction v with
  | nil => exact fun h => h.weaken
  | cons c v ih =>
    intro inRun h
    rw [List.cons_append, Collapsed] at h
    split_ifs at h with hc
    · exact ih h.2.2
    · exact ih h

/-- Texts can be joined behind a character that is no space. -/
theorem Collapsed.append {v w : List Char} {d : Char} (hd : isSpace d = false) :
    ∀ {inRun}, Collapsed inRun (v ++ [d]) → Collapsed false w → Collapsed inRun (v ++ d :: w) := by
  induction v with
  | nil =>
    intro inRun _ hw
    rw [List.nil_append, Collapsed, if_neg (by simp [hd])]
    exact hw
  | cons c v ih =>
    intro inRun h hw
    rw [List.cons_append, Collapsed] at h ⊢
    split_ifs at h ⊢ with hc
    · exact ⟨h.1, h.2.1, ih h.2.2 hw⟩
    · exact ih h hw

theorem Collapsed.space {v : List Char} {c : Char} (hc : c ∈ v) (hspace : isSpace c = true) :
    ∀ {inRun}, Collapsed inRun v → c = ' ' := by
  induction v with
  | nil => cases hc
  | cons d v ih =>
    intro inRun h
    rw [Collapsed] at h
    rcases List.mem_cons.1 hc with rfl | hc
    · rw [if_pos hspace] at h
      exact h.2.1
    · split_ifs at h with hd
      · exact ih hc h.2.2
      · exact ih hc h

/-- The characters of a collapsed text are its own or blanks. -/
theorem mem_collapseSpaces {c : Char} {v : List Char} :
    ∀ {inRun}, c ∈ collapseSpaces inRun v → c ∈ v ∨ c = ' ' := by
  induction v with
  | nil => exact fun h => Or.inl h
  | cons d v ih =>
    intro inRun h
    have hrest {inRun} (h : c ∈ collapseSpaces inRun v) : c ∈ d :: v ∨ c = ' ' :=
      (ih h).imp_left (List.mem_cons_of_mem d)
    rw [collapseSpaces] at h
    split_ifs at h with hd hrun
    · exact hrest h
    · rcases List.mem_cons.1 h with rfl | h
      · exact Or.inr rfl
      · exact hrest h
    · rcases List.mem_cons.1 h with rfl | h
      · exact Or.inl List.mem_cons_self
      · exact hrest h

theorem mem_collapseSpaces_of_not_space {c : Char} {v : List Char} (hc : isSpace c = false)
    (hmem : c ∈ v) : ∀ {inRun}, c ∈ collapseSpaces inRun v := by
  induction v with
  | nil => cases hmem
  | cons d v ih =>
    intro inRun
    rw [collapseSpaces]
    rcases List.mem_cons.1 hmem with rfl | hmem
    · rw [if_neg (by simp [hc])]
      exact List.mem_cons_self
    · split_ifs
      · exact ih hmem
      · exact List.mem_cons_of_mem _ (ih hmem)
      · exact List.mem_cons_of_mem _ (ih hmem)

theorem stripBy_eq_nil_iff {p : Char → Bool} {t : List Char} :
    stripBy p t = [] ↔ ∀ c ∈ t, p c = true := by
  constructor
  · intro h
    obtain ⟨before, after, ht, hbefore, hafter⟩ := exists_stripBy p t
    rw [h, List.append_nil] at ht
    rw [ht]
    intro c hc
    rcases List.mem_append.1 hc with hc | hc
    · exact hbefore c hc
    · exact hafter c hc
  · intro h
    have := stripBy_append_left (t := []) h
    rwa [List.append_nil] at this

/-- A title that `sanitize_title` has nothing to do for. -/
structure CleanTitle (v : List Char) : Prop where
  ne_nil : v ≠ []
  legal : ∀ c ∈ v, isIllegal c = false
  collapsed : Collapsed false v
  trimmed : Trimmed isBlankOrDot v

/-- The title before the check for reserved names. -/
def stripped (title : List Char) : List Char :=
  stripBy isBlankOrDot (collapseSpaces false (title.map fun c => if isIllegal c then ' ' else c))

theorem stripped_eq_nil_iff (title : List Char) : stripped title = [] ↔ NothingLeft title := by
  rw [stripped, stripBy_eq_nil_iff]
  constructor
  · intro h c hc
    by_cases hillegal : isIllegal c = true
    · exact Or.inl hillegal
    · by_cases hspace : isSpace c = true
      · exact Or.inr (Or.inl hspace)
      · have hmem : c ∈ title.map fun c => if isIllegal c then ' ' else c :=
          List.mem_map.2 ⟨c, hc, if_neg hillegal⟩
        have hdot := h c (mem_collapseSpaces_of_not_space (by simpa using hspace) hmem)
        rw [isBlankOrDot, Bool.or_eq_true, decide_eq_true_eq, decide_eq_true_eq] at hdot
        rcases hdot with rfl | rfl
        · exact absurd rfl hspace
        · exact Or.inr (Or.inr rfl)
  · intro h c hc
    have hspace {c : Char} (hc : c ∈ collapseSpaces false _) (hs : isSpace c = true) :=
      (collapsed_collapseSpaces (title.map fun c => if isIllegal c then ' ' else c) false).space
        hc hs
    rcases mem_collapseSpaces hc with hmem | rfl
    · obtain ⟨d, hd, rfl⟩ := List.mem_map.1 hmem
      by_cases hillegal : isIllegal d = true
      · rw [if_pos hillegal]
        rfl
      · rw [if_neg hillegal] at hc ⊢
        rcases h d hd with h' | h' | rfl
        · exact absurd h' hillegal
        · rw [hspace hc h']
          rfl
        · rfl
    · rfl

theorem cleanTitle_stripped {title : List Char} (h : stripped title ≠ []) :
    CleanTitle (stripped title) := by
  have hcollapsed := collapsed_collapseSpaces
    (title.map fun c => if isIllegal c then ' ' else c) false
  obtain ⟨before, after, ht, -, -⟩ := exists_stripBy isBlankOrDot
    (collapseSpaces false (title.map fun c => if isIllegal c then ' ' else c))
  rw [ht, List.append_assoc] at hcollapsed
  refine ⟨h, fun c hc => ?_, hcollapsed.right.left, trimmed_stripBy _⟩
  rcases mem_collapseSpaces (mem_of_mem_stripBy hc) with hmem | rfl
  · obtain ⟨d, -, rfl⟩ := List.mem_map.1 hmem
    split_ifs with hd
    · rfl
    · simpa using hd
  · rfl

theorem stripped_of_clean {v : List Char} (h : CleanTitle v) : stripped v = v := by
  have hmap : (v.map fun c => if isIllegal c then ' ' else c) = v := by
    conv_rhs => rw [← List.map_id v]
    exact List.map_congr_left fun c hc => if_neg (by simp [h.legal c hc])
  rw [stripped, hmap, collapseSpaces_of_collapsed h.collapsed, stripBy_of_trimmed h.trimmed]

theorem sanitizeTitle_eq (title : List Char) :
    sanitizeTitle title =
      if stripped title = [] then
        .error (.validationError "Enter a game title containing at least one valid character.")
      else if reserved.contains (String.ofList (upper (stripped title))) then
        .ok (stripped title ++ " Game".toList)
      else .ok (stripped title) := rfl

/-- The suffix makes a clean title of a reserved name, which is not reserved. -/
theorem clean_game {v : List Char} (h : CleanTitle v) : CleanTitle (v ++ " Game".toList) := by
  obtain ⟨v', d, rfl⟩ := (List.eq_nil_or_concat' v).resolve_left h.ne_nil
  have hblank : isBlankOrDot d = false := h.trimmed.last d (by simp)
  have hspace : isSpace d = false := by
    by_contra hs
    have := h.collapsed.space (c := d) (by simp) (by simpa using hs)
    rw [this] at hblank
    cases hblank
  refine ⟨by simp, fun c hc => ?_, ?_, ?_, ?_⟩
  · rcases List.mem_append.1 hc with hc | hc
    · exact h.legal c hc
    · have hgame : " Game".toList.all (fun c => !isIllegal c) = true := by decide
      simpa using List.all_eq_true.1 hgame c hc
  · rw [List.append_assoc]
    exact Collapsed.append hspace h.collapsed (by simp [Collapsed, isSpace])
  · intro c hc
    apply h.trimmed.head c
    cases v' <;> exact hc
  · intro c hc
    rw [List.getLast?_append] at hc
    obtain rfl : 'e' = c := Option.some.inj hc
    rfl

theorem not_reserved_game (v : List Char) :
    reserved.contains (String.ofList (upper (v ++ " Game".toList))) = false := by
  have hreserved : ∀ r ∈ reserved, ' ' ∉ r.toList := by decide
  rw [Bool.eq_false_iff]
  intro h
  have hmem := List.contains_iff_mem.1 h
  apply hreserved _ hmem
  rw [String.toList_ofList, upper, List.flatMap_append]
  exact List.mem_append_right _ (by decide)

theorem sanitizeTitle_of_clean {v : List Char} (h : CleanTitle v)
    (hreserved : reserved.contains (String.ofList (upper v)) = false) :
    sanitizeTitle v = .ok v := by
  rw [sanitizeTitle_eq, stripped_of_clean h, if_neg h.ne_nil,
    if_neg (Bool.eq_false_iff.1 hreserved)]

/-- What a title becomes. -/
theorem sanitizeTitle_cases (title : List Char) :
    (NothingLeft title ∧ sanitizeTitle title = .error
      (.validationError "Enter a game title containing at least one valid character.")) ∨
    ¬NothingLeft title ∧ ∃ value, sanitizeTitle title = .ok value ∧ CleanTitle value ∧
      reserved.contains (String.ofList (upper value)) = false := by
  rw [← stripped_eq_nil_iff, sanitizeTitle_eq]
  by_cases hnil : stripped title = []
  · exact Or.inl ⟨hnil, if_pos hnil⟩
  · right
    have hclean := cleanTitle_stripped hnil
    refine ⟨hnil, ?_⟩
    rw [if_neg hnil]
    by_cases hreserved : reserved.contains (String.ofList (upper (stripped title))) = true
    · rw [if_pos hreserved]
      exact ⟨_, rfl, clean_game hclean, not_reserved_game _⟩
    · rw [if_neg hreserved]
      exact ⟨_, rfl, hclean, by simpa using hreserved⟩

theorem safeTitle (title : List Char) : SafeTitle title := by
  rcases sanitizeTitle_cases title with ⟨hnothing, h⟩ | ⟨hsome, value, h, hclean, hreserved⟩
  · refine ⟨⟨fun _ => hnothing, fun _ => ⟨_, h⟩⟩, fun value hvalue => ?_⟩
    rw [h] at hvalue
    cases hvalue
  · refine ⟨⟨?_, fun hnothing => absurd hnothing hsome⟩, fun value' hvalue => ?_⟩
    · rintro ⟨e, he⟩
      rw [h] at he
      cases he
    · rw [h] at hvalue
      cases hvalue
      exact sanitizeTitle_of_clean hclean hreserved

/-! ### File names -/

/-- `ID.title.iso`, without a character that Windows refuses, and the ID can be read from it
again. -/
structure SafeName (gameId : String) (limit : ℕ) (name : String) : Prop where
  length_le : name.length ≤ limit
  form : ∃ part : List Char, part ≠ [] ∧ name = gameId ++ "." ++ String.ofList part ++ ".iso" ∧
    ∀ c ∈ part.getLast?, c ≠ ' ' ∧ c ≠ '.'
  allowed : ∀ c ∈ name.toList, 0x20 ≤ c.toNat ∧
    c ∉ ['<', '>', ':', '"', '/', '\\', '|', '?', '*']
  recovered : normalizeGameId name.toList = .ok gameId

theorem isIllegal_eq_false_iff {c : Char} :
    isIllegal c = false ↔
      0x20 ≤ c.toNat ∧ c ∉ ['<', '>', ':', '"', '/', '\\', '|', '?', '*'] := by
  rw [isIllegal, Bool.or_eq_false_iff, decide_eq_false_iff_not, Nat.not_lt]
  refine and_congr_right fun _ => ?_
  rw [Bool.eq_false_iff, Ne, List.contains_iff_mem]

theorem legal_of_isGameId {id : List Char} (h : IsGameId id) : ∀ c ∈ id, isIllegal c = false := by
  have hlegal {c : Char} (hc : c.toNat < 128) :
      c.isAlpha = true ∨ c.isDigit = true → isIllegal c = false :=
    forall_ascii (P := fun c => c.isAlpha = true ∨ c.isDigit = true → isIllegal c = false)
      (by decide +kernel) hc
  have hsigns : ['-', '_', '.'].all (fun c => !isIllegal c) = true := by decide
  intro c hc
  have hascii := ascii_of_isGameId h c hc
  rcases mem_of_isGameId h hc with hletter | hdigit | hsign
  · exact hlegal hascii (Or.inl hletter)
  · exact hlegal hascii (Or.inr hdigit)
  · simpa using List.all_eq_true.1 hsigns c hsign

theorem length_of_isGameId {id : List Char} (h : IsGameId id) : id.length = 11 := by
  obtain ⟨a, b, c, d, sep, x, y, z, u, v, rfl, -⟩ := exists_of_isGameId h
  rfl

/-- A text that begins with a character to be kept has something left. -/
theorem rstrip_take {v : List Char} {n : ℕ} (hv : v ≠ [])
    (hhead : ∀ c ∈ v.head?, isBlankOrDot c = false)
    (hn : 1 ≤ n) : rstripBlankOrDot (v.take n) ≠ [] := by
  obtain ⟨c, rest, rfl⟩ := List.exists_cons_of_ne_nil hv
  obtain ⟨m, rfl⟩ := Nat.exists_eq_add_of_le' hn
  intro h
  rw [rstripBlankOrDot, List.reverse_eq_nil_iff, List.dropWhile_eq_nil_iff] at h
  have := h c (by simp)
  rw [hhead c rfl] at this
  cases this

theorem isPrefix_rstrip (v : List Char) : rstripBlankOrDot v <+: v := by
  have h := List.reverse_prefix.2 (List.dropWhile_suffix isBlankOrDot (l := v.reverse))
  rwa [List.reverse_reverse] at h

theorem last_rstrip (v : List Char) :
    ∀ c ∈ (rstripBlankOrDot v).getLast?, isBlankOrDot c = false := by
  intro c hc
  rw [rstripBlankOrDot, List.getLast?_reverse] at hc
  exact head_dropWhile _ c hc

variable {gameId : String} {title : List Char} {limit : ℕ}

theorem normalizeGameId_self (hid : IsCanonicalId gameId.toList) :
    normalizeGameId gameId.toList = .ok gameId := by
  have h := normalizeGameId_canonical hid [] (by simp)
  rwa [List.append_nil, String.ofList_toList] at h

/-- The name that a clean title gets. -/
theorem safeName_of_clean {value : List Char} (hid : IsCanonicalId gameId.toList) (limit : ℕ)
    (hlimit : 17 ≤ limit) (hvalue : sanitizeTitle title = .ok value) (hclean : CleanTitle value) :
    ∃ name, oplIsoFilename gameId title limit = .ok name ∧ SafeName gameId limit name := by
  have hlength : (gameId ++ ".").length = 12 := by
    rw [String.length_append, ← String.length_toList, length_of_isGameId hid.1]
    rfl
  have hsuffix : ".iso".length = 4 := rfl
  -- Eleven characters of the ID, a dot and the suffix leave `limit - 16` of them, at least one.
  have hpart := rstrip_take (n := limit - 16) hclean.ne_nil hclean.trimmed.head (by omega)
  have hpre := (isPrefix_rstrip (value.take (limit - 16))).trans (List.take_prefix _ _)
  have hpartLength : (rstripBlankOrDot (value.take (limit - 16))).length ≤ limit - 16 :=
    ((isPrefix_rstrip _).length_le).trans (by rw [List.length_take]; omega)
  have hlast := last_rstrip (value.take (limit - 16))
  have hremaining : limit - (gameId ++ ".").length - ".iso".length = limit - 16 := by
    rw [hlength, hsuffix]
    omega
  generalize hname : rstripBlankOrDot (value.take (limit - 16)) = part at *
  have hchars : (gameId ++ "." ++ String.ofList part ++ ".iso").toList =
      gameId.toList ++ ('.' :: (part ++ ".iso".toList)) := by
    simp [String.toList_append, String.toList_ofList]
  refine ⟨gameId ++ "." ++ String.ofList part ++ ".iso", ?_, ?_, ⟨part, hpart, rfl, ?_⟩, ?_, ?_⟩
  · rw [oplIsoFilename, normalizeGameId_self hid, hvalue]
    simp only [bind, Except.bind]
    rw [if_neg (by rw [hlength, hsuffix]; omega), hremaining, hname, if_neg hpart]
  · rw [String.length_append, String.length_append, hlength, hsuffix, String.length_ofList]
    omega
  · intro c hc
    have hkeep := hlast c hc
    rw [isBlankOrDot, Bool.or_eq_false_iff, decide_eq_false_iff_not,
      decide_eq_false_iff_not] at hkeep
    exact hkeep
  · intro c hc
    rw [← isIllegal_eq_false_iff]
    rw [hchars, List.mem_append, List.mem_cons, List.mem_append] at hc
    rcases hc with hc | rfl | hc | hc
    · exact legal_of_isGameId hid.1 c hc
    · rfl
    · exact hclean.legal c (hpre.subset hc)
    · have hiso : ".iso".toList.all (fun c => !isIllegal c) = true := by decide
      simpa using List.all_eq_true.1 hiso c hc
  · rw [hchars, normalizeGameId_canonical hid _, String.ofList_toList]
    intro c hc
    obtain rfl := Option.some.inj hc
    decide

/-! ### The destination -/

/-- An absolute path of `pathlib`: the drive with its root, and the names below it. -/
structure FullPath where
  anchor : List Char
  parts : List (List Char)
  deriving DecidableEq

def isSeparator (c : Char) : Bool := c = '/' || c = '\\'

/-- The names in an operand of `/`. -/
def parsedParts (text : List Char) : List (List Char) :=
  (text.splitOnP isSeparator).filter fun part => part ≠ [] && part ≠ ['.']

def hasAnchor : List Char → Bool
  | c :: d :: _ => isSeparator c || d = ':'
  | [c] => isSeparator c
  | [] => false

namespace FullPath

/-- `path / text`; `anchored` is what an operand with a drive or a root makes of the path. -/
def join (anchored : FullPath → List Char → FullPath) (p : FullPath) (text : List Char) :
    FullPath :=
  if hasAnchor text then anchored p text else { p with parts := p.parts ++ parsedParts text }

def resolveParts (parts : List (List Char)) : List (List Char) :=
  parts.foldl (fun done part => if part = ['.', '.'] then done.dropLast else done ++ [part]) []

/-- `path.resolve()` where nothing is a symbolic link. -/
def resolve (p : FullPath) : FullPath := { p with parts := resolveParts p.parts }

def commonLength : List (List Char) → List (List Char) → ℕ
  | a :: as, b :: bs => if a = b then commonLength as bs + 1 else 0
  | _, _ => 0

/-- `os.path.commonpath((p, q))`, which compares in lower case and answers in the spelling of
`p`. -/
def commonPath (lower : List Char → List Char) (p q : FullPath) : Except PyError FullPath :=
  if lower p.anchor ≠ lower q.anchor then
    .error (.valueError "Paths don't have the same drive")
  else .ok { p with parts := p.parts.take (commonLength (p.parts.map lower) (q.parts.map lower)) }

end FullPath

/-- `OPLDrive`, whose root is resolved. -/
structure OplDrive where
  root : FullPath
  resolved : ['.', '.'] ∉ root.parts

/-- The folder of a recognized PS2 disc. -/
def MediaType.oplFolder : MediaType → Option String
  | .ps2Dvd5 | .ps2Dvd9 => some "DVD"
  | .ps2Cd => some "CD"
  | _ => none

/-- `OPLDrive.destination_for_game`. -/
def OplDrive.destinationForGame (anchored : FullPath → List Char → FullPath)
    (lower : List Char → List Char) (drive : OplDrive) (mediaType : MediaType) (gameId : String)
    (title : List Char) : Except PyError FullPath :=
  match mediaType.oplFolder with
  | none => .error (.validationError "Only recognized PS2 CD/DVD media can be installed.")
  | some folder => do
    let name ← oplIsoFilename gameId title
    let destination :=
      ((drive.root.join anchored folder.toList).join anchored name.toList).resolve
    let common ← drive.root.commonPath lower destination
    if common ≠ drive.root then
      .error (.validationError "Destination escaped the selected OPL drive.")
    else .ok destination

namespace FullPath

theorem foldl_resolveParts {parts : List (List Char)} (h : ['.', '.'] ∉ parts) :
    ∀ done, parts.foldl
      (fun done part => if part = ['.', '.'] then done.dropLast else done ++ [part]) done =
        done ++ parts := by
  induction parts with
  | nil => simp
  | cons part parts ih =>
    intro done
    rw [List.mem_cons, not_or] at h
    rw [List.foldl_cons, if_neg (Ne.symm h.1), ih h.2]
    simp

theorem resolveParts_of_not_mem {parts : List (List Char)} (h : ['.', '.'] ∉ parts) :
    resolveParts parts = parts := foldl_resolveParts h []

/-- Resolving leaves no step to a parent directory. -/
theorem not_mem_resolveParts (parts : List (List Char)) : ['.', '.'] ∉ resolveParts parts := by
  have (done : List (List Char)) (hdone : ['.', '.'] ∉ done) : ['.', '.'] ∉ parts.foldl
      (fun done part => if part = ['.', '.'] then done.dropLast else done ++ [part]) done := by
    induction parts generalizing done with
    | nil => exact hdone
    | cons part parts ih =>
      apply ih
      show ['.', '.'] ∉ if part = ['.', '.'] then done.dropLast else done ++ [part]
      split_ifs with hpart
      · exact fun hmem => hdone (List.mem_of_mem_dropLast hmem)
      · simpa [hdone] using Ne.symm hpart
  exact this [] (by simp)

theorem commonLength_append (a b : List (List Char)) : commonLength a (a ++ b) = a.length := by
  induction a with
  | nil => cases b <;> rfl
  | cons part a ih => rw [List.cons_append, commonLength, if_pos rfl, ih, List.length_cons]

/-- What lies below a path has it in common with it. -/
theorem commonPath_append (lower : List Char → List Char) (p : FullPath)
    (parts : List (List Char)) :
    p.commonPath lower { p with parts := p.parts ++ parts } = .ok p := by
  rw [commonPath, if_neg (by simp), List.map_append, commonLength_append, List.length_map,
    List.take_length]

end FullPath

/-- `OPLDrive(root)`. -/
def OplDrive.new (root : FullPath) : OplDrive :=
  ⟨root.resolve, FullPath.not_mem_resolveParts root.parts⟩

/-- One name below a path. -/
theorem FullPath.join_name (anchored : FullPath → List Char → FullPath) (p : FullPath)
    {text : List Char} (hnil : text ≠ []) (hdot : text ≠ ['.'])
    (hchars : ∀ c ∈ text, isSeparator c = false ∧ c ≠ ':') :
    p.join anchored text = { p with parts := p.parts ++ [text] } := by
  have hanchor : hasAnchor text = false := by
    rcases text with _ | ⟨c, _ | ⟨d, rest⟩⟩
    · rfl
    · exact (hchars c (by simp)).1
    · rw [hasAnchor, (hchars c (by simp)).1, Bool.false_or, decide_eq_false_iff_not]
      exact (hchars d (by simp)).2
  have hparts : parsedParts text = [text] := by
    rw [parsedParts, List.splitOnP_eq_singleton fun c hc => by simp [(hchars c hc).1]]
    simp [hnil, hdot]
  rw [join, if_neg (by simp [hanchor]), hparts]

theorem isSeparator_of_allowed {c : Char}
    (h : c ∉ ['<', '>', ':', '"', '/', '\\', '|', '?', '*']) : isSeparator c = false ∧ c ≠ ':' := by
  simp only [List.mem_cons, List.not_mem_nil, or_false, not_or] at h
  exact ⟨by simp [isSeparator, h], h.2.2.1⟩

/-- The check never fails: what is joined is one folder and one name. -/
theorem OplDrive.destinationForGame_of_name (anchored : FullPath → List Char → FullPath)
    (lower : List Char → List Char) (drive : OplDrive) {mediaType : MediaType}
    {folder name : String}
    (hfolder : mediaType.oplFolder = some folder)
    (hname : oplIsoFilename gameId title = .ok name) (hsafe : SafeName gameId limit name) :
    drive.destinationForGame anchored lower mediaType gameId title =
      .ok { drive.root with parts := drive.root.parts ++ [folder.toList, name.toList] } := by
  have hdots : name.toList ≠ ['.', '.'] ∧ name.toList ≠ ['.'] ∧ name.toList ≠ [] := by
    obtain ⟨part, -, hform, -⟩ := hsafe.form
    have hchars : name.toList = gameId.toList ++ ('.' :: (part ++ ".iso".toList)) := by
      rw [hform]
      simp [String.toList_append, String.toList_ofList]
    have hlong : 5 ≤ name.toList.length := by
      rw [hchars, List.length_append, List.length_cons, List.length_append]
      have : ".iso".toList.length = 4 := rfl
      omega
    refine ⟨?_, ?_, ?_⟩ <;> intro h <;> rw [h] at hlong <;> simp at hlong
  have hfolders : folder = "DVD" ∨ folder = "CD" := by
    cases mediaType <;> simp only [MediaType.oplFolder, reduceCtorEq, Option.some.injEq] at hfolder
    · exact Or.inr hfolder.symm
    · exact Or.inl hfolder.symm
    · exact Or.inl hfolder.symm
  have hjoin : (drive.root.join anchored folder.toList).join anchored name.toList =
      { drive.root with parts := drive.root.parts ++ [folder.toList, name.toList] } := by
    have hfirst : drive.root.join anchored folder.toList =
        { drive.root with parts := drive.root.parts ++ [folder.toList] } := by
      rcases hfolders with rfl | rfl <;> exact FullPath.join_name anchored drive.root (by decide)
        (by decide) (by simp [isSeparator])
    rw [hfirst, FullPath.join_name anchored _ hdots.2.2 hdots.2.1 fun c hc =>
      isSeparator_of_allowed (hsafe.allowed c hc).2]
    simp
  -- No part is `..`, so resolving the path changes nothing, and it stays below the root.
  have hresolve : FullPath.resolve
      { drive.root with parts := drive.root.parts ++ [folder.toList, name.toList] } =
      { drive.root with parts := drive.root.parts ++ [folder.toList, name.toList] } := by
    rw [FullPath.resolve, FullPath.resolveParts_of_not_mem]
    simp only [List.mem_append, List.mem_cons, List.not_mem_nil, or_false, not_or]
    refine ⟨drive.resolved, ?_, Ne.symm hdots.1⟩
    rcases hfolders with rfl | rfl <;> decide
  rw [OplDrive.destinationForGame, hfolder]
  simp only [bind, Except.bind]
  rw [hname]
  simp only
  rw [hjoin, hresolve, FullPath.commonPath_append]
  simp

/-- Where a path of the workflow lies on the drive. -/
def OplDrive.place (drive : OplDrive) (path : Path) : FullPath :=
  match path.dir with
  | .opl _ folder =>
    { drive.root with parts := drive.root.parts ++ [folder.toList, path.name.toList] }
  | _ => drive.root

/-- The destination of the workflow is this one, without the check that never fails. -/
theorem OplDrive.destinationForGame_eq (anchored : FullPath → List Char → FullPath)
    (lower : List Char → List Char) (drive : OplDrive) (root : String) (mediaType : MediaType)
    (hid : IsCanonicalId gameId.toList) (title : List Char) :
    drive.destinationForGame anchored lower mediaType gameId title =
      (Ps2Ripper.destinationForGame root mediaType gameId title).map drive.place := by
  rcases sanitizeTitle_cases title with ⟨-, h⟩ | ⟨-, value, h, hclean, -⟩
  · have hname : oplIsoFilename gameId title = .error (.validationError
        "Enter a game title containing at least one valid character.") := by
      rw [oplIsoFilename, normalizeGameId_self hid, h]
      rfl
    unfold OplDrive.destinationForGame Ps2Ripper.destinationForGame
    rw [hname]
    cases mediaType <;> rfl
  · obtain ⟨name, hname, hsafe⟩ := safeName_of_clean hid oplIsoFilenameLimit (by decide)
      h hclean
    cases hfolder : mediaType.oplFolder with
    | none =>
      unfold OplDrive.destinationForGame Ps2Ripper.destinationForGame
      rw [hfolder]
      cases mediaType <;> first | rfl | cases hfolder
    | some folder =>
      rw [drive.destinationForGame_of_name anchored lower hfolder hname hsafe]
      unfold Ps2Ripper.destinationForGame
      rw [hname]
      cases mediaType <;> cases hfolder <;> rfl

/-- **Every title gets a safe name that keeps the ID, in the folder of its media below the root, and
`sanitize_title` refuses exactly the titles of which nothing is left.** -/
theorem safeNames (hid : IsCanonicalId gameId.toList) (title : List Char) (hlimit : 17 ≤ limit) :
    SafeTitle title ∧
    (NothingLeft title → oplIsoFilename gameId title limit = .error
      (.validationError "Enter a game title containing at least one valid character.")) ∧
    (¬NothingLeft title → ∃ name, oplIsoFilename gameId title limit = .ok name ∧
      SafeName gameId limit name) ∧
    ∀ (anchored : FullPath → List Char → FullPath) (lower : List Char → List Char)
      (drive : OplDrive) (mediaType : MediaType) (folder : String),
      mediaType.oplFolder = some folder → ¬NothingLeft title →
        ∃ name, oplIsoFilename gameId title = .ok name ∧
          drive.destinationForGame anchored lower mediaType gameId title =
            .ok { drive.root with parts := drive.root.parts ++ [folder.toList, name.toList] } := by
  refine ⟨safeTitle title, ?_, ?_, ?_⟩
  · intro hnothing
    rcases sanitizeTitle_cases title with ⟨-, h⟩ | ⟨hsome, -⟩
    · rw [oplIsoFilename, normalizeGameId_self hid, h]
      rfl
    · exact absurd hnothing hsome
  · intro hsome
    rcases sanitizeTitle_cases title with ⟨hnothing, -⟩ | ⟨-, value, h, hclean, -⟩
    · exact absurd hnothing hsome
    · exact safeName_of_clean hid limit hlimit h hclean
  · intro anchored lower drive mediaType folder hfolder hsome
    rcases sanitizeTitle_cases title with ⟨hnothing, -⟩ | ⟨-, value, h, hclean, -⟩
    · exact absurd hnothing hsome
    · obtain ⟨name, hname, hsafe⟩ := safeName_of_clean hid oplIsoFilenameLimit
        (by decide) h hclean
      exact ⟨name, hname, drive.destinationForGame_of_name anchored lower hfolder hname hsafe⟩

/-- A root that is reached by way of its parent directory. -/
def sampleDrive : OplDrive := .new ⟨"E:\\".toList, ["Games".toList, "..".toList]⟩

theorem safeNames_sample :
    (∃ name, oplIsoFilename "SCUS_973.28" "CON".toList 17 = .ok name ∧
      SafeName "SCUS_973.28" 17 name) ∧
    ∃ name, oplIsoFilename "SCUS_973.28" "CON".toList = .ok name ∧
      sampleDrive.destinationForGame (fun p _ => p) id .ps2Cd "SCUS_973.28" "CON".toList =
        .ok ⟨"E:\\".toList, ["CD".toList, name.toList]⟩ := by
  have hid : IsCanonicalId "SCUS_973.28".toList := by
    refine ⟨?_, by simp⟩
    simp [IsGameId]
  have hsome : ¬NothingLeft "CON".toList := fun h => by
    have := h 'C' (by simp)
    simp [isIllegal, isSpace] at this
  obtain ⟨-, -, hname, hplace⟩ := safeNames hid "CON".toList le_rfl
  exact ⟨hname hsome, hplace (fun p _ => p) id sampleDrive .ps2Cd "CD" rfl hsome⟩

end Ps2Ripper
