import Ps2Ripper.Ps2.TextSpec

/-!
# The grammar of SYSTEM.CNF

Configuration files as they are written, and what `parse_system_cnf` makes of them.

* `Assignment`, `AssignmentLine`, `CnfLine`, `CnfText`: the grammar; a line that no assignment
  renders to is any other line;
* `lineAssignment_render`, `exists_render`: a line is read as an assignment exactly if it is one;
* `CnfText.valueOf`, `CnfText.bootPath`: what the file says;
* `parseSystemCnf_grammar`: the parser agrees, and on any other bytes it returns the first ID of a
  path or raises `ValidationError`.
-/

namespace Ps2Ripper

/-- `parse_system_cnf` of a `str`, and of the decoded bytes. -/
def parseSystemCnfText (text : List Char) : Except PyError SystemCnf :=
  let values := systemCnfValues text
  match (dictGet "BOOT2".toList values).or (dictGet "BOOT".toList values) with
  | none => .error (.validationError "SYSTEM.CNF does not contain BOOT2 or BOOT.")
  | some bootPath =>
    match normalizeGameId bootPath with
    | .ok gameId => .ok ⟨values, bootPath, gameId⟩
    | .error e => .error e

/-- ASCII inside a line. -/
def Inline (c : Char) : Prop := c.toNat < 128 ∧ c ≠ '\r' ∧ c ≠ '\n'

abbrev Spacing := {s : List Char // ∀ c ∈ s, Inline c ∧ isSpace c = true}

abbrev Comment := {s : List Char // ∀ c ∈ s, Inline c}

/-- `[A-Za-z0-9_]`. -/
def isKeyChar (c : Char) : Bool := c.isAlphanum || c = '_'

structure Assignment where
  key : List Char
  value : List Char
  key_form : ∃ c rest, key = c :: rest ∧ c.isAlpha = true ∧ ∀ d ∈ rest, isKeyChar d = true
  value_inline : ∀ c ∈ value, Inline c ∧ c ≠ '#'
  value_trimmed : Trimmed isSpace value

/-- An assignment with the spacing around its three parts and the comment behind them. -/
structure AssignmentLine extends Assignment where
  before : Spacing
  afterKey : Spacing
  beforeValue : Spacing
  afterValue : Spacing
  comment : Option Comment

def commentText : Option Comment → List Char
  | none => []
  | some comment => '#' :: comment.1

namespace AssignmentLine

variable (a : AssignmentLine)

def body : List Char :=
  a.before.1 ++ (a.key ++ (a.afterKey.1 ++ '=' :: (a.beforeValue.1 ++ (a.value ++ a.afterValue.1))))

def render : List Char := a.body ++ commentText a.comment

end AssignmentLine

inductive CnfLine
  | assignment (a : AssignmentLine)
  | blank (spacing : Spacing) (comment : Option Comment)
  | other (text : List Char) (inline : ∀ c ∈ text, Inline c)
      (not_assignment : ∀ a : AssignmentLine, a.render ≠ text)

def CnfLine.render : CnfLine → List Char
  | .assignment a => a.render
  | .blank spacing comment => spacing.1 ++ commentText comment
  | .other text _ _ => text

def CnfLine.assigned : CnfLine → Option Assignment
  | .assignment a => some a.toAssignment
  | .blank .. | .other .. => none

inductive LineEnd
  | cr
  | lf
  | crlf

def LineEnd.render : LineEnd → List Char
  | .cr => ['\r']
  | .lf => ['\n']
  | .crlf => ['\r', '\n']

def renderLines (lines : List (CnfLine × LineEnd)) (last : CnfLine) : List Char :=
  lines.flatMap (fun l => l.1.render ++ l.2.render) ++ last.render

/-- A configuration file of at most one MiB; nothing ends its last line, which may be empty. -/
structure CnfText where
  lines : List (CnfLine × LineEnd)
  last : CnfLine
  length_le : (renderLines lines last).length ≤ 1024 * 1024

namespace CnfText

variable (t : CnfText)

def text : List Char := renderLines t.lines t.last

def bytes : Bytes := t.text.map fun c => UInt8.ofNat c.toNat

def assignments : List Assignment :=
  (t.lines.map Prod.fst ++ [t.last]).filterMap CnfLine.assigned

/-- The last value that is assigned to a key, in whatever case. -/
def valueOf (key : List Char) : Option (List Char) :=
  ((t.assignments.filter fun a => a.key.map Char.toUpper = key).getLast?).map Assignment.value

/-- `BOOT2` if it is not empty, else `BOOT`. -/
def bootPath : List Char :=
  match t.valueOf "BOOT2".toList with
  | some (c :: path) => c :: path
  | _ => (t.valueOf "BOOT".toList).getD []

end CnfText

/-! ### One line -/

/-- The assignment that the loop of the parser finds in a line. -/
def lineAssignment (line : List Char) : Option (List Char × List Char) :=
  matchAssignment (strip (line.takeWhile (· ≠ '#')))

/-- How the classes of the grammar exclude each other. -/
@[mk_iff]
structure LineClasses (c : Char) : Prop where
  letter_key : c.isAlpha = true → isKeyChar c = true
  key_space : isKeyChar c = true → isSpace c = false
  space_hash : isSpace c = true → c ≠ '#'
  key_inline : isKeyChar c = true → c ≠ '\r' ∧ c ≠ '\n' ∧ c ≠ '#'

instance (c : Char) : Decidable (LineClasses c) := decidable_of_iff' _ (lineClasses_iff c)

theorem lineClasses {c : Char} (h : c.toNat < 128) : LineClasses c :=
  forall_ascii (by decide +kernel) h

theorem lt_of_isKeyChar {c : Char} (h : isKeyChar c = true) : c.toNat < 128 := by
  rw [isKeyChar, Char.isAlphanum, Bool.or_eq_true, Bool.or_eq_true] at h
  rcases h with (h | h) | h
  · exact lt_of_isAlpha h
  · exact lt_of_isDigit h
  · obtain rfl := of_decide_eq_true h
    decide

theorem takeWhile_of_head {p : Char → Bool} {t : List Char} (h : ∀ c ∈ t.head?, p c = false) :
    t.takeWhile p = [] := by
  cases t with
  | nil => rfl
  | cons c t => rw [List.takeWhile_cons, if_neg (by simp [h c rfl])]

/-- The pattern on a text of its form. -/
theorem matchAssignment_of_form {c : Char} {rest spacing value : List Char} (hc : c.isAlpha = true)
    (hrest : ∀ d ∈ rest, isKeyChar d = true)
    (hspacing : ∀ d ∈ spacing, d.toNat < 128 ∧ isSpace d = true) :
    matchAssignment (c :: rest ++ (spacing ++ '=' :: value)) = some (c :: rest, strip value) := by
  have hclasses := lineClasses (lt_of_isAlpha hc)
  have hfollow : ∀ d ∈ (spacing ++ '=' :: value).head?, isKeyChar d = false := by
    intro d hd
    cases spacing with
    | nil =>
      obtain rfl := Option.some.inj hd
      decide
    | cons s spacing =>
      obtain rfl := Option.some.inj hd
      obtain ⟨hascii, hspace⟩ := hspacing s List.mem_cons_self
      by_contra hkey
      rw [(lineClasses hascii).key_space (by simpa using hkey)] at hspace
      cases hspace
  -- The key ends at the spacing or at the sign, neither of which is a character of a key.
  have htake : (rest ++ (spacing ++ '=' :: value)).takeWhile isKeyChar = rest := by
    rw [List.takeWhile_append_of_pos hrest, takeWhile_of_head hfollow, List.append_nil]
  have hdrop : (rest ++ (spacing ++ '=' :: value)).dropWhile isKeyChar =
      spacing ++ '=' :: value := by
    rw [List.dropWhile_append_of_pos hrest, dropWhile_of_head hfollow]
  have hspace : (spacing ++ '=' :: value).dropWhile isSpace = '=' :: value := by
    rw [List.dropWhile_append_of_pos fun d hd => (hspacing d hd).2]
    rfl
  have hstart : (c :: rest ++ (spacing ++ '=' :: value)).dropWhile isSpace =
      c :: (rest ++ (spacing ++ '=' :: value)) := by
    apply dropWhile_of_head
    intro d hd
    obtain rfl := Option.some.inj hd
    exact hclasses.key_space (hclasses.letter_key hc)
  rw [matchAssignment, hstart]
  show (if c.isAlpha then _ else _) = _
  rw [if_pos hc]
  have hkey : (fun d : Char => d.isAlphanum || d = '_') = isKeyChar := rfl
  simp only [hkey, hdrop, hspace, htake]

theorem matchAssignment_eq_some {line key value : List Char}
    (h : matchAssignment line = some (key, value)) :
    ∃ before c rest spacing text, line = before ++ (c :: rest ++ (spacing ++ '=' :: text)) ∧
      key = c :: rest ∧ value = strip text ∧ c.isAlpha = true ∧
      (∀ d ∈ before, isSpace d = true) ∧ (∀ d ∈ rest, isKeyChar d = true) ∧
      ∀ d ∈ spacing, isSpace d = true := by
  have hline := List.takeWhile_append_dropWhile (p := isSpace) (l := line)
  rw [matchAssignment] at h
  split at h
  · cases h
  · rename_i c rest hdrop
    split at h
    · rename_i hc
      have hrest := List.takeWhile_append_dropWhile (p := isKeyChar) (l := rest)
      have hspacing := List.takeWhile_append_dropWhile (p := isSpace)
        (l := rest.dropWhile isKeyChar)
      have hkey : (fun d : Char => d.isAlphanum || d = '_') = isKeyChar := rfl
      simp only [hkey] at h
      split at h
      · rename_i text hvalue
        obtain ⟨rfl, rfl⟩ := Prod.mk.inj (Option.some.inj h)
        refine ⟨line.takeWhile isSpace, c, rest.takeWhile isKeyChar,
          (rest.dropWhile isKeyChar).takeWhile isSpace, text, ?_, rfl, rfl, hc,
          fun d hd => List.mem_takeWhile_imp hd, fun d hd => List.mem_takeWhile_imp hd,
          fun d hd => List.mem_takeWhile_imp hd⟩
        rw [← hvalue, hspacing, List.cons_append, hrest, ← hdrop, hline]
      · cases h
    · cases h

theorem strip_spaces {s : List Char} (h : ∀ c ∈ s, isSpace c = true) : strip s = [] := by
  have := stripBy_append_left (p := isSpace) (s := s) (t := []) h
  rwa [List.append_nil] at this

section Render

variable (a : AssignmentLine)

theorem hash_not_mem_spacing (s : Spacing) : ∀ c ∈ s.1, c ≠ '#' := fun c hc =>
  (lineClasses (s.2 c hc).1.1).space_hash (s.2 c hc).2

theorem key_chars (a : Assignment) : ∀ c ∈ a.key, isKeyChar c = true := by
  obtain ⟨c, rest, hkey, hc, hrest⟩ := a.key_form
  rw [hkey]
  intro d hd
  rcases List.mem_cons.1 hd with rfl | hd
  · exact (lineClasses (lt_of_isAlpha hc)).letter_key hc
  · exact hrest d hd

theorem hash_not_mem_body : ∀ c ∈ a.body, c ≠ '#' := by
  intro c hc
  simp only [AssignmentLine.body, List.mem_append, List.mem_cons] at hc
  rcases hc with hc | hc | hc | rfl | hc | hc | hc
  · exact hash_not_mem_spacing _ c hc
  · have hkey := key_chars a.toAssignment c hc
    exact ((lineClasses (lt_of_isKeyChar hkey)).key_inline hkey).2.2
  · exact hash_not_mem_spacing _ c hc
  · decide
  · exact hash_not_mem_spacing _ c hc
  · exact (a.value_inline c hc).2
  · exact hash_not_mem_spacing _ c hc

/-- The comment is cut off. -/
theorem takeWhile_comment {text : List Char} (h : ∀ c ∈ text, c ≠ '#') (comment : Option Comment) :
    (text ++ commentText comment).takeWhile (· ≠ '#') = text := by
  rw [List.takeWhile_append_of_pos (by simpa using h), takeWhile_of_head, List.append_nil]
  intro c hc
  cases comment with
  | none => cases hc
  | some comment =>
    obtain rfl := Option.some.inj hc
    decide

theorem strip_value : strip (a.beforeValue.1 ++ (a.value ++ a.afterValue.1)) = a.value := by
  rw [strip, stripBy_append_left fun c hc => (a.beforeValue.2 c hc).2,
    stripBy_append_right fun c hc => (a.afterValue.2 c hc).2, stripBy_of_trimmed a.value_trimmed]

/-- **Any spacing and comment leave the key and the value of an assignment as they are.** -/
theorem lineAssignment_render : lineAssignment a.render = some (a.key, a.value) := by
  obtain ⟨c, rest, hkey, hc, hrest⟩ := a.key_form
  have hclasses := lineClasses (lt_of_isAlpha hc)
  rw [lineAssignment, AssignmentLine.render, takeWhile_comment (hash_not_mem_body a),
    AssignmentLine.body, strip, stripBy_append_left fun d hd => (a.before.2 d hd).2]
  have hkeyText : ∀ text, (a.key ++ text).head? = some c := by
    rw [hkey]
    intro text
    rfl
  obtain ⟨text, htext, hvalue⟩ := exists_strip_around (p := isSpace) (s := a.key ++ a.afterKey.1)
    (t := a.beforeValue.1 ++ (a.value ++ a.afterValue.1)) (d := '=') (by
      intro d hd
      rw [hkeyText, Option.mem_def] at hd
      obtain rfl := Option.some.inj hd
      exact hclasses.key_space (hclasses.letter_key hc)) (by decide)
  rw [← List.append_assoc, htext, hkey, List.append_assoc,
    matchAssignment_of_form hc hrest fun d hd => ⟨(a.afterKey.2 d hd).1.1, (a.afterKey.2 d hd).2⟩]
  rw [strip, hvalue, ← strip, strip_value]

end Render

/-- **Only assignments are read as assignments.** -/
theorem exists_render {line key value : List Char} (hinline : ∀ c ∈ line, Inline c)
    (h : lineAssignment line = some (key, value)) : ∃ a : AssignmentLine, a.render = line := by
  obtain ⟨before, after, hbody, hbefore, hafter⟩ :=
    exists_stripBy isSpace (line.takeWhile (· ≠ '#'))
  have hline := List.takeWhile_append_dropWhile (p := (· ≠ '#')) (l := line)
  obtain ⟨comment, hcomment⟩ : ∃ comment, commentText comment = line.dropWhile (· ≠ '#') := by
    cases hdrop : line.dropWhile (· ≠ '#') with
    | nil => exact ⟨none, rfl⟩
    | cons c rest =>
      have hc : c = '#' := by
        have := head_dropWhile (p := (· ≠ '#')) line c (by rw [hdrop]; rfl)
        simpa using this
      subst hc
      refine ⟨some ⟨rest, fun d hd => hinline d ?_⟩, rfl⟩
      rw [← hline, hdrop]
      simp [hd]
  obtain ⟨first, c, rest, spacing, text, hstrip, rfl, rfl, hc, hfirst, hrest, hspacing⟩ :=
    matchAssignment_eq_some h
  obtain ⟨left, right, htext, hleft, hright⟩ := exists_stripBy isSpace text
  -- The line, cut where the parser strips, matches and strips again.
  have hall : line = before ++ first ++ (c :: rest ++ (spacing ++ '=' ::
      (left ++ (strip text ++ (right ++ after))))) ++ line.dropWhile (· ≠ '#') := by
    conv_lhs => rw [← hline, hbody, ← strip, hstrip, htext, ← strip]
    simp only [List.append_assoc, List.cons_append]
  have hmem : ∀ d, d ∈ before ++ first ∨ d ∈ spacing ∨ d ∈ left ∨ d ∈ strip text ∨
      d ∈ right ++ after → Inline d ∧ d ∈ line.takeWhile (· ≠ '#') := by
    intro d hd
    have hd' : d ∈ line.takeWhile (· ≠ '#') := by
      rw [hbody, ← strip, hstrip, htext, ← strip]
      simp only [List.mem_append, List.mem_cons] at hd ⊢
      tauto
    exact ⟨hinline d (List.takeWhile_prefix _ |>.subset hd'), hd'⟩
  have hspaces {s : List Char} (hs : ∀ d ∈ s, isSpace d = true)
      (hline : ∀ d ∈ s, Inline d) : ∀ d ∈ s, Inline d ∧ isSpace d = true :=
    fun d hd => ⟨hline d hd, hs d hd⟩
  refine ⟨{
    key := c :: rest
    value := strip text
    key_form := ⟨c, rest, rfl, hc, hrest⟩
    value_inline := fun d hd => ?_
    value_trimmed := trimmed_stripBy text
    before := ⟨before ++ first, hspaces (fun d hd => ?_) fun d hd => (hmem d (by tauto)).1⟩
    afterKey := ⟨spacing, hspaces hspacing fun d hd => (hmem d (by tauto)).1⟩
    beforeValue := ⟨left, hspaces hleft fun d hd => (hmem d (by tauto)).1⟩
    afterValue := ⟨right ++ after, hspaces (fun d hd => ?_) fun d hd => (hmem d (by tauto)).1⟩
    comment := comment }, ?_⟩
  · obtain ⟨hd1, hd2⟩ := hmem d (by tauto)
    exact ⟨hd1, by simpa using List.mem_takeWhile_imp hd2⟩
  · rcases List.mem_append.1 hd with hd | hd
    · exact hbefore d hd
    · exact hfirst d hd
  · rcases List.mem_append.1 hd with hd | hd
    · exact hright d hd
    · exact hafter d hd
  · rw [AssignmentLine.render, AssignmentLine.body, hcomment]
    exact hall.symm

/-- What the loop finds in a line of the grammar. -/
theorem lineAssignment_line (l : CnfLine) :
    lineAssignment l.render = l.assigned.map fun a => (a.key, a.value) := by
  cases l with
  | assignment a => exact lineAssignment_render a
  | blank spacing comment =>
    rw [CnfLine.render, lineAssignment, takeWhile_comment (hash_not_mem_spacing spacing),
      strip_spaces fun c hc => (spacing.2 c hc).2]
    rfl
  | other text inline not_assignment =>
    show lineAssignment text = none
    cases h : lineAssignment text with
    | none => rfl
    | some found =>
      obtain ⟨a, ha⟩ := exists_render inline h
      exact absurd ha (not_assignment a)

/-! ### The lines -/

theorem splitOn_ne_nil (sep : Char) (text : List Char) : splitOn sep text ≠ [] := by
  cases text with
  | nil => exact List.cons_ne_nil _ _
  | cons c text =>
    rw [splitOn, List.foldr_cons]
    split
    · exact List.cons_ne_nil _ _
    · split <;> exact List.cons_ne_nil _ _

theorem splitOn_cons_self (sep : Char) (text : List Char) :
    splitOn sep (sep :: text) = [] :: splitOn sep text := by
  have hne := splitOn_ne_nil sep text
  rw [splitOn, List.foldr_cons, ← splitOn]
  cases h : splitOn sep text with
  | nil => exact absurd h hne
  | cons line lines => exact if_pos rfl

theorem splitOn_cons_of_ne {sep c : Char} {text line : List Char} {lines : List (List Char)}
    (hc : c ≠ sep) (h : splitOn sep text = line :: lines) :
    splitOn sep (c :: text) = (c :: line) :: lines := by
  rw [splitOn, List.foldr_cons, ← splitOn, h]
  exact if_neg hc

theorem splitOn_of_not_mem {sep : Char} {text : List Char} (h : sep ∉ text) :
    splitOn sep text = [text] := by
  induction text with
  | nil => rfl
  | cons c text ih =>
    rw [List.mem_cons, not_or] at h
    exact splitOn_cons_of_ne (Ne.symm h.1) (ih h.2)

theorem splitOn_append {sep : Char} {text rest : List Char} (h : sep ∉ text) :
    splitOn sep (text ++ sep :: rest) = text :: splitOn sep rest := by
  induction text with
  | nil => exact splitOn_cons_self sep rest
  | cons c text ih =>
    rw [List.mem_cons, not_or] at h
    exact splitOn_cons_of_ne (Ne.symm h.1) (ih h.2)

/-- The first step of the parser. -/
def newlines (text : List Char) : List Char := text.map fun c => if c = '\r' then '\n' else c

theorem newlines_of_inline {text : List Char} (h : ∀ c ∈ text, Inline c) :
    newlines text = text := by
  conv_rhs => rw [← List.map_id text]
  exact List.map_congr_left fun c hc => if_neg (h c hc).2.1

theorem inline_commentText (comment : Option Comment) : ∀ c ∈ commentText comment, Inline c := by
  cases comment with
  | none => simp [commentText]
  | some comment =>
    intro c hc
    rcases List.mem_cons.1 hc with rfl | hc
    · exact ⟨by decide, by decide, by decide⟩
    · exact comment.2 c hc

theorem inline_line (l : CnfLine) : ∀ c ∈ l.render, Inline c := by
  cases l with
  | assignment a =>
    intro c hc
    simp only [CnfLine.render, AssignmentLine.render, AssignmentLine.body, List.mem_append,
      List.mem_cons] at hc
    rcases hc with (hc | hc | hc | rfl | hc | hc | hc) | hc
    · exact (a.before.2 c hc).1
    · have hkey := key_chars a.toAssignment c hc
      have hascii := lt_of_isKeyChar hkey
      have hinline := (lineClasses hascii).key_inline hkey
      exact ⟨hascii, hinline.1, hinline.2.1⟩
    · exact (a.afterKey.2 c hc).1
    · exact ⟨by decide, by decide, by decide⟩
    · exact (a.beforeValue.2 c hc).1
    · exact (a.value_inline c hc).1
    · exact (a.afterValue.2 c hc).1
    · exact inline_commentText a.comment c hc
  | blank spacing comment =>
    intro c hc
    rcases List.mem_append.1 hc with hc | hc
    · exact (spacing.2 c hc).1
    · exact inline_commentText comment c hc
  | other text inline not_assignment => exact inline

/-- The lines that the loop runs over give the assignments of the grammar: an empty line stands
between the two characters of a CRLF. -/
theorem filterMap_splitOn (lines : List (CnfLine × LineEnd)) (last : CnfLine) :
    (splitOn '\n' (newlines (renderLines lines last))).filterMap lineAssignment =
      ((lines.map Prod.fst ++ [last]).filterMap CnfLine.assigned).map fun a =>
      (a.key, a.value) := by
  have hsplit (l : CnfLine) : '\n' ∉ l.render := fun h => (inline_line l _ h).2.2 rfl
  have hempty : lineAssignment [] = none := rfl
  induction lines with
  | nil =>
    rw [renderLines, List.flatMap_nil, List.nil_append, newlines_of_inline (inline_line last),
      splitOn_of_not_mem (hsplit last)]
    cases h : last.assigned <;> simp [lineAssignment_line, h]
  | cons l lines ih =>
    obtain ⟨l, lineEnd⟩ := l
    have hrest : (splitOn '\n' (newlines (renderLines ((l, lineEnd) :: lines) last))).filterMap
        lineAssignment = (lineAssignment l.render).toList ++
          (splitOn '\n' (newlines (renderLines lines last))).filterMap lineAssignment := by
      have htext : newlines (renderLines ((l, lineEnd) :: lines) last) =
          l.render ++ newlines (lineEnd.render ++ renderLines lines last) := by
        rw [renderLines, List.flatMap_cons, List.append_assoc, List.append_assoc, newlines,
          List.map_append, ← newlines, newlines_of_inline (inline_line l)]
        rfl
      rw [htext]
      cases lineEnd with
      | cr =>
        show (splitOn '\n' (l.render ++ '\n' :: newlines (renderLines lines last))).filterMap _ = _
        rw [splitOn_append (hsplit l)]
        cases h : lineAssignment l.render <;> simp [h]
      | lf =>
        show (splitOn '\n' (l.render ++ '\n' :: newlines (renderLines lines last))).filterMap _ = _
        rw [splitOn_append (hsplit l)]
        cases h : lineAssignment l.render <;> simp [h]
      | crlf =>
        show (splitOn '\n'
          (l.render ++ '\n' :: '\n' :: newlines (renderLines lines last))).filterMap _ = _
        rw [splitOn_append (hsplit l), splitOn_cons_self]
        cases h : lineAssignment l.render <;> simp [h, hempty]
    rw [hrest, ih, lineAssignment_line]
    cases h : l.assigned <;> simp [h]

/-! ### The map -/

theorem lookup_dictSet (key value key' : List Char) (values : List (List Char × List Char)) :
    (dictSet key value values).lookup key' =
      if key' = key then some value else values.lookup key' := by
  induction values with
  | nil =>
    rw [dictSet, List.lookup_cons]
    by_cases h : key' = key
    · simp [h]
    · have hbeq : (key' == key) = false := by simpa using h
      simp [hbeq, h]
  | cons entry values ih =>
    obtain ⟨k, v⟩ := entry
    rw [dictSet]
    by_cases hk : k = key
    · subst hk
      rw [if_pos rfl, List.lookup_cons, List.lookup_cons]
      by_cases h : key' = k
      · simp [h]
      · have hbeq : (key' == k) = false := by simpa using h
        simp [hbeq, h]
    · rw [if_neg hk, List.lookup_cons, ih, List.lookup_cons]
      by_cases h : key' = k
      · subst h
        simp [hk]
      · have hbeq : (key' == k) = false := by simpa using h
        rw [hbeq]

/-- The last assignment to a key wins. -/
theorem lookup_foldl (as : List Assignment) :
    ∀ (values : List (List Char × List Char)) (key : List Char),
      ((as.map fun a => (a.key, a.value)).foldl (fun values a => dictSet (upper a.1) a.2 values)
        values).lookup key =
      (((as.filter fun a => a.key.map Char.toUpper = key).getLast?).map Assignment.value).or
        (values.lookup key) := by
  induction as with
  | nil =>
    intro values key
    rfl
  | cons a as ih =>
    intro values key
    have hupper : upper a.key = a.key.map Char.toUpper :=
      upper_of_plain fun c hc => Or.inl (lt_of_isKeyChar (key_chars a c hc))
    rw [List.map_cons, List.foldl_cons, ih, lookup_dictSet, hupper, List.filter_cons]
    by_cases hkey : a.key.map Char.toUpper = key
    · rw [if_pos hkey.symm, if_pos (by simpa using hkey), List.getLast?_cons]
      cases (as.filter fun a => a.key.map Char.toUpper = key).getLast? <;> rfl
    · rw [if_neg (Ne.symm hkey), if_neg (by simpa using hkey)]

theorem keys_dictSet (key value : List Char) (values : List (List Char × List Char)) :
    (dictSet key value values).map Prod.fst =
      if key ∈ values.map Prod.fst then values.map Prod.fst else values.map Prod.fst ++ [key] := by
  induction values with
  | nil => rfl
  | cons entry values ih =>
    obtain ⟨k, v⟩ := entry
    rw [dictSet]
    by_cases hk : k = key
    · subst hk
      simp
    · rw [if_neg hk, List.map_cons, ih, List.map_cons]
      by_cases hmem : key ∈ values.map Prod.fst
      · rw [if_pos hmem, if_pos (List.mem_cons_of_mem _ hmem)]
      · have hmem' : key ∉ k :: values.map Prod.fst := by
          simpa [Ne.symm hk] using hmem
        rw [if_neg hmem, if_neg hmem', List.cons_append]

/-- A key is there once. -/
theorem nodup_dictSet {key value : List Char} {values : List (List Char × List Char)}
    (h : (values.map Prod.fst).Nodup) : ((dictSet key value values).map Prod.fst).Nodup := by
  rw [keys_dictSet]
  split_ifs with hmem
  · exact h
  · rw [List.nodup_append]
    refine ⟨h, List.nodup_singleton key, ?_⟩
    intro a ha b hb
    obtain rfl := List.mem_singleton.1 hb
    rintro rfl
    exact hmem ha

theorem mem_dictSet {key value : List Char} {values : List (List Char × List Char)}
    {entry : List Char × List Char} (h : entry ∈ dictSet key value values) :
    entry.2 = value ∨ entry ∈ values := by
  induction values with
  | nil =>
    obtain rfl := List.mem_singleton.1 h
    exact Or.inl rfl
  | cons e values ih =>
    obtain ⟨k, v⟩ := e
    rw [dictSet] at h
    split_ifs at h
    · rcases List.mem_cons.1 h with rfl | h
      · exact Or.inl rfl
      · exact Or.inr (List.mem_cons_of_mem _ h)
    · rcases List.mem_cons.1 h with rfl | h
      · exact Or.inr List.mem_cons_self
      · rcases ih h with h | h
        · exact Or.inl h
        · exact Or.inr (List.mem_cons_of_mem _ h)

theorem systemCnfValues_eq (text : List Char) :
    systemCnfValues text = ((splitOn '\n' (newlines text)).filterMap lineAssignment).foldl
      (fun values a => dictSet (upper a.1) a.2 values) [] := by
  rw [systemCnfValues, List.foldl_filterMap]
  refine List.foldl_ext _ _ _ fun values line _ => ?_
  unfold lineAssignment
  dsimp only
  cases matchAssignment (strip (line.takeWhile (· ≠ '#'))) <;> rfl

/-- Values are made of the characters of the text. -/
theorem mem_of_mem_splitOn {sep : Char} {text line : List Char} (h : line ∈ splitOn sep text) :
    ∀ c ∈ line, c ∈ text := by
  induction text generalizing line with
  | nil =>
    obtain rfl := List.mem_singleton.1 h
    simp
  | cons d text ih =>
    cases hsplit : splitOn sep text with
    | nil => exact absurd hsplit (splitOn_ne_nil sep text)
    | cons first lines =>
      by_cases hd : d = sep
      · subst hd
        rw [splitOn_cons_self] at h
        rcases List.mem_cons.1 h with rfl | h
        · simp
        · exact fun c hc => List.mem_cons_of_mem _ (ih h c hc)
      · rw [splitOn_cons_of_ne hd hsplit] at h
        rw [hsplit] at ih
        rcases List.mem_cons.1 h with rfl | h
        · intro c hc
          rcases List.mem_cons.1 hc with rfl | hc
          · exact List.mem_cons_self
          · exact List.mem_cons_of_mem _ (ih List.mem_cons_self c hc)
        · exact fun c hc => List.mem_cons_of_mem _ (ih (List.mem_cons_of_mem _ h) c hc)

theorem mem_of_lineAssignment {line value : List Char} (key : List Char)
    (h : lineAssignment line = some (key, value)) : ∀ c ∈ value, c ∈ line := by
  obtain ⟨before, d, rest, spacing, text, hstrip, -, rfl, -⟩ := matchAssignment_eq_some h
  intro c hc
  have hbody : c ∈ strip (line.takeWhile (· ≠ '#')) := by
    rw [hstrip]
    simp [mem_of_mem_stripBy hc]
  exact (List.takeWhile_prefix _).subset (mem_of_mem_stripBy hbody)

theorem plain_systemCnfValues {text : List Char} (hplain : ∀ c ∈ text, Plain c) :
    ∀ entry ∈ systemCnfValues text, ∀ c ∈ entry.2, Plain c := by
  rw [systemCnfValues_eq]
  have hlines : ∀ a ∈ (splitOn '\n' (newlines text)).filterMap lineAssignment,
      ∀ c ∈ a.2, Plain c := by
    intro a ha c hc
    obtain ⟨line, hline, ha⟩ := List.mem_filterMap.1 ha
    have hmem := mem_of_mem_splitOn hline c (mem_of_lineAssignment a.1 ha c hc)
    obtain ⟨d, hd, rfl⟩ := List.mem_map.1 hmem
    split_ifs
    · exact Or.inl (by decide)
    · exact hplain d hd
  generalize (splitOn '\n' (newlines text)).filterMap lineAssignment = as at hlines
  have (values : List (List Char × List Char)) (hvalues : ∀ e ∈ values, ∀ c ∈ e.2, Plain c) :
      ∀ e ∈ as.foldl (fun values a => dictSet (upper a.1) a.2 values) values,
        ∀ c ∈ e.2, Plain c := by
    induction as generalizing values with
    | nil => exact hvalues
    | cons a as ih =>
      apply ih fun b hb => hlines b (List.mem_cons_of_mem _ hb)
      intro e he
      rcases mem_dictSet he with h | h
      · rw [h]
        exact hlines a List.mem_cons_self
      · exact hvalues e h
  exact this [] (by simp)

theorem nodup_systemCnfValues (text : List Char) :
    ((systemCnfValues text).map Prod.fst).Nodup := by
  rw [systemCnfValues_eq]
  generalize (splitOn '\n' (newlines text)).filterMap lineAssignment = as
  have (values : List (List Char × List Char)) (h : (values.map Prod.fst).Nodup) :
      ((as.foldl (fun values a => dictSet (upper a.1) a.2 values) values).map Prod.fst).Nodup := by
    induction as generalizing values with
    | nil => exact h
    | cons a as ih => exact ih _ (nodup_dictSet h)
  exact this [] List.nodup_nil

/-! ### The file -/

theorem plain_decodeAscii (data : Bytes) : ∀ c ∈ decodeAscii data, Plain c := by
  intro c hc
  obtain ⟨b, -, rfl⟩ := List.mem_map.1 hc
  split_ifs with hb
  · left
    rw [Char.ofNat, dif_pos (Or.inl (by omega))]
    exact hb
  · exact Or.inr rfl

theorem decodeAscii_encode {text : List Char} (h : ∀ c ∈ text, c.toNat < 128) :
    decodeAscii (text.map fun c => UInt8.ofNat c.toNat) = text := by
  rw [decodeAscii, List.map_map]
  conv_rhs => rw [← List.map_id text]
  apply List.map_congr_left
  intro c hc
  have hlt := h c hc
  have hbyte : (UInt8.ofNat c.toNat).toNat = c.toNat := by
    show c.toNat % 256 = c.toNat
    omega
  show (if (UInt8.ofNat c.toNat).toNat < 128 then _ else _) = c
  rw [hbyte, if_pos hlt, Char.ofNat_toNat]

theorem ascii_renderLines (lines : List (CnfLine × LineEnd)) (last : CnfLine) :
    ∀ c ∈ renderLines lines last, c.toNat < 128 := by
  intro c hc
  rcases List.mem_append.1 hc with hc | hc
  · obtain ⟨l, -, hc⟩ := List.mem_flatMap.1 hc
    rcases List.mem_append.1 hc with hc | hc
    · exact (inline_line l.1 c hc).1
    · have hend : ∀ e : LineEnd, ∀ c ∈ e.render, c.toNat < 128 := by
        intro e
        cases e <;> simp [LineEnd.render]
      exact hend l.2 c hc
  · exact (inline_line last c hc).1

/-- The parser sees the map of the file, and returns exactly if the boot path contains an ID. -/
structure ReadsAs (t : CnfText) (result : Except PyError SystemCnf) : Prop where
  returns : (∃ cnf, result = .ok cnf) ↔ ∃ pre id post, Occurs none t.bootPath pre id post
  map : ∀ cnf, result = .ok cnf →
    (cnf.values.map Prod.fst).Nodup ∧ ∀ key, cnf.values.lookup key = t.valueOf key
  path : ∀ cnf, result = .ok cnf → cnf.bootPath = t.bootPath

/-- The first ID of the path in its canonical form, or `ValidationError`. -/
def CanonicalOrRejected : Except PyError SystemCnf → Prop
  | .ok cnf => ∃ pre id post, FirstOccurs cnf.bootPath pre id post ∧
      cnf.gameId = String.ofList (canonicalId id) ∧ IsCanonicalId (canonicalId id) ∧
      normalizeGameId cnf.gameId.toList = .ok cnf.gameId
  | .error e => ∃ message, e = .validationError message

/-- The choice of the boot path, with a missing path as an empty one. -/
theorem dictGet_or (values : List (List Char × List Char)) (key key' : List Char) :
    (dictGet key values).or (dictGet key' values) =
      match values.lookup key with
      | some (c :: path) => some (c :: path)
      | _ => dictGet key' values := by
  rw [dictGet]
  rcases values.lookup key with _ | _ | ⟨c, path⟩ <;> rfl

theorem parseSystemCnf_of_length_le {data : Bytes} (hdata : data.length ≤ 1024 * 1024) :
    parseSystemCnf data = parseSystemCnfText (decodeAscii data) :=
  if_neg (by omega)

theorem parseSystemCnfText_eq (text : List Char) :
    parseSystemCnfText text =
      match (dictGet "BOOT2".toList (systemCnfValues text)).or
        (dictGet "BOOT".toList (systemCnfValues text)) with
      | none => .error (.validationError "SYSTEM.CNF does not contain BOOT2 or BOOT.")
      | some bootPath =>
        match normalizeGameId bootPath with
        | .ok gameId => .ok ⟨systemCnfValues text, bootPath, gameId⟩
        | .error e => .error e := rfl

theorem mem_of_dictGet {key value : List Char} {values : List (List Char × List Char)}
    (h : dictGet key values = some value) : (key, value) ∈ values := by
  rw [dictGet] at h
  have hlookup : values.lookup key = some value := by
    split at h
    · cases h
    · exact h
  obtain ⟨l1, l2, rfl, -⟩ := List.lookup_eq_some_iff.1 hlookup
  simp

theorem canonicalOrRejected (data : Bytes) : CanonicalOrRejected (parseSystemCnf data) := by
  by_cases hdata : data.length ≤ 1024 * 1024
  · rw [parseSystemCnf_of_length_le hdata, parseSystemCnfText_eq]
    have hplain := plain_systemCnfValues (plain_decodeAscii data)
    cases hpath : (dictGet "BOOT2".toList (systemCnfValues (decodeAscii data))).or
        (dictGet "BOOT".toList (systemCnfValues (decodeAscii data))) with
    | none => exact ⟨_, rfl⟩
    | some path =>
      have hvalue : ∀ c ∈ path, Plain c := by
        rcases Option.or_eq_some_iff.1 hpath with h | ⟨-, h⟩
        · exact hplain _ (mem_of_dictGet h)
        · exact hplain _ (mem_of_dictGet h)
      rcases normalizeGameId_spec hvalue with ⟨pre, id, post, hfirst, hid⟩ | ⟨-, hid⟩
      · have hcanonical := isCanonicalId_canonicalId hfirst.occurs.isGameId
        have hagain := normalizeGameId_canonical hcanonical [] (by simp)
        simp only [hid]
        rw [List.append_nil] at hagain
        refine ⟨pre, id, post, hfirst, rfl, hcanonical, ?_⟩
        rwa [String.toList_ofList]
      · simp only [hid]
        exact ⟨_, rfl⟩
  · rw [parseSystemCnf, if_pos (by omega)]
    exact ⟨_, rfl⟩

theorem readsAs_text (t : CnfText) : ReadsAs t (parseSystemCnfText t.text) := by
  have hvalues (key : List Char) : (systemCnfValues t.text).lookup key = t.valueOf key := by
    rw [CnfText.text, systemCnfValues_eq, filterMap_splitOn, lookup_foldl]
    exact Option.or_none
  have hplain := plain_systemCnfValues fun c hc => Or.inl (ascii_renderLines t.lines t.last c hc)
  have hnodup := nodup_systemCnfValues t.text
  have hpath : t.bootPath = ((dictGet "BOOT2".toList (systemCnfValues t.text)).or
      (dictGet "BOOT".toList (systemCnfValues t.text))).getD [] := by
    rw [dictGet_or, hvalues, dictGet, hvalues, CnfText.bootPath]
    rcases t.valueOf "BOOT2".toList with _ | _ | ⟨c, path⟩ <;>
      rcases t.valueOf "BOOT".toList with _ | _ | ⟨c, path⟩ <;> rfl
  rw [parseSystemCnfText_eq]
  rw [← CnfText.text] at hplain
  generalize systemCnfValues t.text = values at *
  cases hfound : (dictGet "BOOT2".toList values).or (dictGet "BOOT".toList values) with
  | none =>
    rw [hfound] at hpath
    refine ⟨⟨nofun, ?_⟩, nofun, nofun⟩
    rintro ⟨pre, id, post, hocc⟩
    rw [hpath] at hocc
    exact absurd hocc not_occurs_nil
  | some path =>
    rw [hfound] at hpath
    have hvalue : ∀ c ∈ path, Plain c := by
      rcases Option.or_eq_some_iff.1 hfound with h | ⟨-, h⟩
      · exact hplain _ (mem_of_dictGet h)
      · exact hplain _ (mem_of_dictGet h)
    rcases normalizeGameId_spec hvalue with ⟨pre, id, post, hfirst, hid⟩ | ⟨hnone, hid⟩
    · simp only [hid]
      refine ⟨⟨fun _ => ⟨pre, id, post, ?_⟩, fun _ => ⟨_, rfl⟩⟩, ?_, ?_⟩
      · rw [hpath]
        exact hfirst.occurs
      · rintro cnf ⟨⟩
        exact ⟨hnodup, hvalues⟩
      · rintro cnf ⟨⟩
        exact hpath.symm
    · simp only [hid]
      refine ⟨⟨nofun, ?_⟩, nofun, nofun⟩
      rintro ⟨pre, id, post, hocc⟩
      rw [hpath] at hocc
      exact absurd hocc (hnone pre id post)

theorem parseSystemCnf_bytes (t : CnfText) :
    parseSystemCnf t.bytes = parseSystemCnfText t.text := by
  have hlength : t.bytes.length ≤ 1024 * 1024 := by
    rw [CnfText.bytes, List.length_map]
    exact t.length_le
  have htext : decodeAscii t.bytes = t.text :=
    decodeAscii_encode (ascii_renderLines t.lines t.last)
  rw [parseSystemCnf_of_length_le hlength, htext]

/-- **The parser agrees with the grammar on every configuration file, and on any bytes it returns
the first ID of the path in canonical form or raises `ValidationError`.** -/
theorem parseSystemCnf_grammar :
    (∀ t : CnfText, ReadsAs t (parseSystemCnf t.bytes) ∧ ReadsAs t (parseSystemCnfText t.text)) ∧
      ∀ data : Bytes, CanonicalOrRejected (parseSystemCnf data) := by
  refine ⟨fun t => ⟨?_, readsAs_text t⟩, canonicalOrRejected⟩
  rw [parseSystemCnf_bytes]
  exact readsAs_text t

end Ps2Ripper
