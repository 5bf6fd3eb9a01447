import Mathlib.Data.List.TakeWhile
import Mathlib.Tactic.MkIffOfInductiveProp
import Ps2Ripper.Ps2.SystemCnf

/-!
# Stripping and searching

* `stripBy_append_left`, `stripBy_append_right`, `exists_stripBy`: what `strip` removes and leaves;
* `Occurs`: a game ID inside a text, as the grammar of the executables has it;
* `searchGameId_spec`: the search finds the first of them;
* `normalizeGameId_canonical`: a canonical ID is its own canonical form.
-/

namespace Ps2Ripper

/-! ### Stripping -/

section Strip

variable {p : Char → Bool} {s t : List Char}

/-- Neither end of the text is to be stripped. -/
structure Trimmed (p : Char → Bool) (t : List Char) : Prop where
  head : ∀ c ∈ t.head?, p c = false
  last : ∀ c ∈ t.getLast?, p c = false

theorem dropWhile_of_head (h : ∀ c ∈ t.head?, p c = false) : t.dropWhile p = t := by
  cases t with
  | nil => rfl
  | cons c t => rw [List.dropWhile_cons, if_neg (by simp [h c rfl])]

theorem stripBy_of_trimmed (h : Trimmed p t) : stripBy p t = t := by
  rw [stripBy, dropWhile_of_head h.head, dropWhile_of_head, List.reverse_reverse]
  rw [List.head?_reverse]
  exact h.last

theorem stripBy_append_left (h : ∀ c ∈ s, p c = true) : stripBy p (s ++ t) = stripBy p t := by
  rw [stripBy, List.dropWhile_append_of_pos h, stripBy]

theorem stripBy_append_right (h : ∀ c ∈ s, p c = true) : stripBy p (t ++ s) = stripBy p t := by
  have hs : ∀ c ∈ s.reverse, p c = true := by simpa using h
  rw [stripBy, stripBy, List.dropWhile_append]
  by_cases ht : (t.dropWhile p).isEmpty = true
  · rw [if_pos ht, List.isEmpty_iff.1 ht, List.dropWhile_eq_nil_iff.2 h]
  · rw [if_neg ht, List.reverse_append, List.dropWhile_append_of_pos hs]

theorem head_dropWhile (t : List Char) : ∀ c ∈ (t.dropWhile p).head?, p c = false := by
  intro c hc
  have h := List.head?_dropWhile_not p t
  rw [Option.mem_def] at hc
  rw [hc] at h
  simpa using h

theorem trimmed_stripBy (t : List Char) : Trimmed p (stripBy p t) := by
  constructor
  · intro c hc
    have hsuffix : stripBy p t <+: t.dropWhile p := by
      rw [stripBy]
      have h := List.dropWhile_suffix p (l := (t.dropWhile p).reverse)
      simpa using List.reverse_prefix.2 h
    obtain ⟨rest, hrest⟩ := hsuffix
    apply head_dropWhile t
    rw [← hrest]
    cases hstrip : stripBy p t with
    | nil => simp [hstrip] at hc
    | cons d ds => simpa [hstrip] using hc
  · intro c hc
    rw [stripBy, List.getLast?_reverse] at hc
    exact head_dropWhile _ c hc

/-- What is stripped lies around what is left. -/
theorem exists_stripBy (p : Char → Bool) (t : List Char) :
    ∃ before after, t = before ++ stripBy p t ++ after ∧ (∀ c ∈ before, p c = true) ∧
      ∀ c ∈ after, p c = true := by
  refine ⟨t.takeWhile p, ((t.dropWhile p).reverse.takeWhile p).reverse, ?_,
    fun c hc => List.mem_takeWhile_imp hc, fun c hc => ?_⟩
  · rw [stripBy, List.append_assoc, ← List.reverse_append, List.takeWhile_append_dropWhile,
      List.reverse_reverse, List.takeWhile_append_dropWhile]
  · exact List.mem_takeWhile_imp (List.mem_reverse.1 hc)

theorem mem_of_mem_stripBy {c : Char} (h : c ∈ stripBy p t) : c ∈ t := by
  obtain ⟨before, after, ht, -, -⟩ := exists_stripBy p t
  rw [ht]
  simp [h]

/-- The end of a text is stripped behind a character that stays. -/
theorem exists_strip_around {d : Char} (hs : ∀ c ∈ s.head?, p c = false) (hd : p d = false) :
    ∃ t', stripBy p (s ++ d :: t) = s ++ d :: t' ∧ stripBy p t' = stripBy p t := by
  have ht : (t.reverse.dropWhile p).reverse ++ (t.reverse.takeWhile p).reverse = t := by
    rw [← List.reverse_append, List.takeWhile_append_dropWhile, List.reverse_reverse]
  have hafter : ∀ c ∈ (t.reverse.takeWhile p).reverse, p c = true := fun c hc =>
    List.mem_takeWhile_imp (List.mem_reverse.1 hc)
  have hlast := head_dropWhile (p := p) t.reverse
  rw [← List.getLast?_reverse] at hlast
  refine ⟨(t.reverse.dropWhile p).reverse, ?_, ?_⟩
  · conv_lhs => rw [← ht, ← List.cons_append, ← List.append_assoc]
    rw [stripBy_append_right hafter, stripBy_of_trimmed]
    constructor
    · cases s with
      | nil =>
        intro c hc
        obtain rfl := Option.some.inj hc
        exact hd
      | cons e s => exact hs
    · intro c hc
      rw [List.getLast?_append, List.getLast?_cons] at hc
      cases h : (t.reverse.dropWhile p).reverse.getLast? with
      | none =>
        rw [h] at hc
        obtain rfl := Option.some.inj hc
        exact hd
      | some e =>
        rw [h] at hc hlast
        obtain rfl := Option.some.inj hc
        exact hlast e rfl
  · conv_rhs => rw [← ht]
    rw [stripBy_append_right hafter]

end Strip

/-! ### Game IDs -/

/-- Four letters, a minus or an underscore, three digits, a dot and two digits. -/
def IsGameId : List Char → Prop
  | [a, b, c, d, sep, x, y, z, dot, u, v] =>
    (∀ l ∈ [a, b, c, d], l.isAlpha = true) ∧ (sep = '-' ∨ sep = '_') ∧
      (∀ n ∈ [x, y, z], n.isDigit = true) ∧ dot = '.' ∧ ∀ n ∈ [u, v], n.isDigit = true
  | _ => False

theorem exists_of_isGameId {id : List Char} (h : IsGameId id) :
    ∃ a b c d sep x y z u v, id = [a, b, c, d, sep, x, y, z, '.', u, v] ∧
      (∀ l ∈ [a, b, c, d], l.isAlpha = true) ∧ (sep = '-' ∨ sep = '_') ∧
        (∀ n ∈ [x, y, z], n.isDigit = true) ∧ ∀ n ∈ [u, v], n.isDigit = true := by
  rcases id with _ | ⟨a, _ | ⟨b, _ | ⟨c, _ | ⟨d, _ | ⟨sep, _ | ⟨x, _ | ⟨y, _ | ⟨z, _ | ⟨dot, _ | ⟨u,
    _ | ⟨v, _ | ⟨w, rest⟩⟩⟩⟩⟩⟩⟩⟩⟩⟩⟩⟩ <;> simp only [IsGameId] at h
  obtain ⟨hletters, hsep, hdigits, rfl, hlast⟩ := h
  exact ⟨a, b, c, d, sep, x, y, z, u, v, rfl, hletters, hsep, hdigits, hlast⟩

theorem mem_of_isGameId {id : List Char} (h : IsGameId id) {e : Char} (he : e ∈ id) :
    e.isAlpha = true ∨ e.isDigit = true ∨ e ∈ ['-', '_', '.'] := by
  obtain ⟨a, b, c, d, sep, x, y, z, u, v, rfl, hletters, hsep, hdigits, hlast⟩ :=
    exists_of_isGameId h
  have hparts : [a, b, c, d, sep, x, y, z, '.', u, v] =
      [a, b, c, d] ++ [sep] ++ [x, y, z] ++ ['.'] ++ [u, v] := rfl
  rw [hparts] at he
  simp only [List.mem_append, List.mem_singleton] at he
  rcases he with (((he | rfl) | he) | rfl) | he
  · exact Or.inl (hletters e he)
  · right
    right
    rcases hsep with rfl | rfl <;> simp
  · exact Or.inr (Or.inl (hdigits e he))
  · simp
  · exact Or.inr (Or.inl (hlast e he))

/-- An ID between `pre` and `post`, after no letter or digit and before no digit. -/
structure Occurs (previous : Option Char) (text pre id post : List Char) : Prop where
  text_eq : text = pre ++ (id ++ post)
  isGameId : IsGameId id
  before : ∀ c ∈ pre.getLast?.or previous, c.isAlphanum = false
  after : ∀ c ∈ post.head?, c.isDigit = false

/-- The characters that a configuration file can have: ASCII, and the mark of a byte that is not. -/
def Plain (c : Char) : Prop := c.toNat < 128 ∨ c = Char.ofNat 0xFFFD

/-- What can be decided of the 128 characters of ASCII holds of all ASCII text. -/
theorem forall_ascii {P : Char → Prop} (h : ∀ n : Fin 128, P (Char.ofNat n)) {c : Char}
    (hc : c.toNat < 128) : P c := by
  have hchar := h ⟨c.toNat, hc⟩
  rwa [Char.ofNat_toNat] at hchar

/-- What the regular expressions make of plain characters. -/
@[mk_iff]
structure AsciiClasses (c : Char) : Prop where
  letter : isIdLetter c = c.isAlpha
  digit : isDecimal c = c.isDigit
  upper : upperChar c = [c.toUpper]

instance (c : Char) : Decidable (AsciiClasses c) := decidable_of_iff' _ (asciiClasses_iff c)

theorem Plain.classes {c : Char} (h : Plain c) : AsciiClasses c := by
  rcases h with h | rfl
  · exact forall_ascii (by decide +kernel) h
  · constructor <;> decide

theorem isIdLetter_of_isAlpha {c : Char} (h : c.isAlpha = true) : isIdLetter c = true := by
  simp [isIdLetter, h]

theorem isDecimal_of_isDigit {c : Char} (h : c.isDigit = true) : isDecimal c = true := by
  have h' : 48 ≤ c.toNat ∧ c.toNat ≤ 57 := by
    rw [Char.isDigit, Bool.and_eq_true, decide_eq_true_eq, decide_eq_true_eq] at h
    exact ⟨UInt32.le_iff_toNat_le.1 h.1, UInt32.le_iff_toNat_le.1 h.2⟩
  rw [isDecimal, List.any_eq_true]
  exact ⟨0x30, by decide, by simpa using h'⟩

theorem lt_of_isDigit {c : Char} (h : c.isDigit = true) : c.toNat < 128 := by
  rw [Char.isDigit, Bool.and_eq_true, decide_eq_true_eq, decide_eq_true_eq] at h
  exact (UInt32.le_iff_toNat_le.1 h.2).trans_lt (by decide)

theorem lt_of_isAlpha {c : Char} (h : c.isAlpha = true) : c.toNat < 128 := by
  rcases Bool.or_eq_true_iff.1 h with hupper | hlower
  · exact (UInt32.le_iff_toNat_le.1 (of_decide_eq_true hupper).2).trans_lt (by decide)
  · have hle := of_decide_eq_true (Bool.and_eq_true_iff.1 hlower).2
    exact (UInt32.le_iff_toNat_le.1 hle).trans_lt (by decide)

/-- An ID is matched where it stands, whatever follows it but a digit. -/
theorem matchGameId_append {id post : List Char} (hid : IsGameId id)
    (hpost : ∀ c ∈ post.head?, isDecimal c = false) : matchGameId (id ++ post) = some id := by
  obtain ⟨a, b, c, d, sep, x, y, z, u, v, rfl, hletters, hsep, hdigits, hlast⟩ :=
    exists_of_isGameId hid
  have hend : post.head?.any isDecimal = false := by
    cases hhead : post.head? with
    | none => rfl
    | some c => exact hpost c hhead
  have hsep' : (sep = '-' || sep = '_') = true := by simpa using hsep
  have hl : [a, b, c, d].all isIdLetter = true :=
    List.all_eq_true.2 fun l hl => isIdLetter_of_isAlpha (hletters l hl)
  have hn : [x, y, z].all isDecimal = true :=
    List.all_eq_true.2 fun n hn => isDecimal_of_isDigit (hdigits n hn)
  have hm : [u, v].all isDecimal = true :=
    List.all_eq_true.2 fun n hn => isDecimal_of_isDigit (hlast n hn)
  simp only [List.cons_append, List.nil_append, matchGameId, hl, hsep', hn, hm, hend]
  rfl

theorem matchGameId_eq_some {text id : List Char} (hplain : ∀ c ∈ text, Plain c)
    (h : matchGameId text = some id) :
    ∃ post, text = id ++ post ∧ IsGameId id ∧ ∀ c ∈ post.head?, c.isDigit = false := by
  rcases text with _ | ⟨a,
    _ | ⟨b, _ | ⟨c, _ | ⟨d, _ | ⟨sep, _ | ⟨x, _ | ⟨y, _ | ⟨z, _ | ⟨dot, _ | ⟨u,
    _ | ⟨v, post⟩⟩⟩⟩⟩⟩⟩⟩⟩⟩⟩ <;> simp only [matchGameId, reduceCtorEq] at h
  split at h
  · rename_i hif
    obtain rfl := Option.some.inj h
    simp only [Bool.and_eq_true, Bool.or_eq_true, decide_eq_true_eq, Bool.not_eq_true',
      List.all_eq_true] at hif
    obtain ⟨⟨⟨⟨⟨hletters, hsep⟩, hdigits⟩, rfl⟩, hlast⟩, hend⟩ := hif
    refine ⟨post, rfl, ⟨fun l hl => ?_, hsep, fun n hn => ?_, rfl, fun n hn => ?_⟩, fun n hn => ?_⟩
    · rw [← (hplain l (by simp at hl ⊢; tauto)).classes.letter]
      exact hletters l hl
    · rw [← (hplain n (by simp at hn ⊢; tauto)).classes.digit]
      exact hdigits n hn
    · rw [← (hplain n (by simp at hn ⊢; tauto)).classes.digit]
      exact hlast n hn
    · have hmem : n ∈ post := List.mem_of_mem_head? hn
      rw [← (hplain n (by simp [hmem])).classes.digit]
      rw [Option.mem_def] at hn
      simpa [hn] using hend
  · cases h

/-- Whether the scan may start a match here. -/
theorem boundary_iff {previous : Option Char} (hplain : ∀ c ∈ previous, Plain c) :
    (!(previous.any fun p => isIdLetter p || p.isDigit)) = true ↔
      ∀ c ∈ previous, c.isAlphanum = false := by
  cases previous with
  | none => simp
  | some c =>
    have hletter := (hplain c rfl).classes.letter
    simp [hletter, Char.isAlphanum]

variable {previous : Option Char} {text id pre post : List Char}

theorem getLast?_cons_or (c : Char) (pre : List Char) (previous : Option Char) :
    (c :: pre).getLast?.or previous = pre.getLast?.or (some c) := by
  rw [List.getLast?_cons]
  cases pre.getLast? <;> rfl

/-- An occurrence is at the start of the text or in the rest of it. -/
theorem occurs_cons_iff {c : Char} :
    Occurs previous (c :: text) pre id post ↔
      (pre = [] ∧ Occurs previous (c :: text) [] id post) ∨
        ∃ pre', pre = c :: pre' ∧ Occurs (some c) text pre' id post := by
  constructor
  · intro h
    cases pre with
    | nil => exact Or.inl ⟨rfl, h⟩
    | cons d pre =>
      obtain ⟨rfl, htext⟩ := List.cons.inj h.text_eq
      have hbefore := h.before
      rw [getLast?_cons_or] at hbefore
      exact Or.inr ⟨pre, rfl, htext, h.isGameId, hbefore, h.after⟩
  · rintro (⟨rfl, h⟩ | ⟨pre, rfl, h⟩)
    · exact h
    · refine ⟨by rw [h.text_eq]; rfl, h.isGameId, ?_, h.after⟩
      rw [getLast?_cons_or]
      exact h.before

theorem not_occurs_nil : ¬Occurs previous [] pre id post := by
  intro h
  obtain ⟨-, htext⟩ := List.append_eq_nil_iff.1 h.text_eq.symm
  obtain ⟨rfl, -⟩ := List.append_eq_nil_iff.1 htext
  exact h.isGameId

/-- An occurrence at the start is what the pattern matches there. -/
theorem matchGameId_iff (id : List Char) (hplain : ∀ c ∈ text, Plain c)
    (hprevious : ∀ c ∈ previous, Plain c) :
    (if !(previous.any fun p => isIdLetter p || p.isDigit) then matchGameId text else none) =
      some id ↔ ∃ post, Occurs previous text [] id post := by
  constructor
  · intro h
    split at h
    · rename_i hb
      obtain ⟨post, htext, hid, hafter⟩ := matchGameId_eq_some hplain h
      exact ⟨post, htext, hid, (boundary_iff hprevious).1 hb, hafter⟩
    · cases h
  · rintro ⟨post, htext, hid, hbefore, hafter⟩
    rw [if_pos ((boundary_iff hprevious).2 hbefore), htext]
    apply matchGameId_append hid
    intro c hc
    have hmem : c ∈ text := by
      rw [htext]
      simp [List.mem_of_mem_head? hc]
    rw [(hplain c hmem).classes.digit]
    exact hafter c hc

/-- The search goes through the text from its start. -/
theorem searchGameId_spec :
    ∀ {text : List Char} (previous : Option Char), (∀ c ∈ text, Plain c) →
      (∀ c ∈ previous, Plain c) →
      (∀ id, searchGameId previous text = some id → ∃ pre post, Occurs previous text pre id post ∧
        ∀ pre' id' post', Occurs previous text pre' id' post' → pre.length ≤ pre'.length) ∧
      (searchGameId previous text = none → ∀ pre id post, ¬Occurs previous text pre id post) := by
  intro text
  induction text with
  | nil =>
    intro previous _ _
    exact ⟨fun id h => (by cases h), fun _ pre id post => not_occurs_nil⟩
  | cons c text ih =>
    intro previous hplain hprevious
    have hrest := ih (some c) (fun d hd => hplain d (List.mem_cons_of_mem c hd))
      (fun d hd => by obtain rfl := Option.some.inj hd; exact hplain c List.mem_cons_self)
    have hstart (id : List Char) := matchGameId_iff id hplain hprevious
    rw [searchGameId]
    generalize (if !(previous.any fun p => isIdLetter p || p.isDigit) then matchGameId (c :: text)
      else none) = found at hstart
    cases found with
    | some found =>
      refine ⟨fun id h => ?_, fun h => by cases h⟩
      obtain rfl := Option.some.inj h
      obtain ⟨post, hocc⟩ := (hstart found).1 rfl
      exact ⟨[], post, hocc, fun _ _ _ _ => Nat.zero_le _⟩
    | none =>
      -- nothing starts here, so every occurrence is one in the rest
      have hnot (id post : List Char) : ¬Occurs previous (c :: text) [] id post := fun h => by
        cases (hstart id).2 ⟨post, h⟩
      constructor
      · intro id h
        obtain ⟨pre, post, hocc, hfirst⟩ := hrest.1 id h
        refine ⟨c :: pre, post, occurs_cons_iff.2 (Or.inr ⟨pre, rfl, hocc⟩), ?_⟩
        intro pre' id' post' h'
        rcases occurs_cons_iff.1 h' with ⟨rfl, hocc'⟩ | ⟨pre'', rfl, hocc'⟩
        · exact absurd hocc' (hnot _ _)
        · simpa using hfirst _ _ _ hocc'
      · intro h pre id post hocc
        rcases occurs_cons_iff.1 hocc with ⟨rfl, h'⟩ | ⟨pre', rfl, h'⟩
        · exact hnot _ _ h'
        · exact hrest.2 h _ _ _ h'

/-- No other ID begins before this one. -/
structure FirstOccurs (text pre id post : List Char) : Prop where
  occurs : Occurs none text pre id post
  first : ∀ pre' id' post', Occurs none text pre' id' post' → pre.length ≤ pre'.length

/-- The form `AAAA_ddd.dd`. -/
def IsCanonicalId (id : List Char) : Prop :=
  IsGameId id ∧ ∀ c ∈ id, c ≠ '-' ∧ c.isLower = false

/-- The canonical form of an ID. -/
def canonicalId (id : List Char) : List Char :=
  id.map fun c => if c = '-' then '_' else c.toUpper

theorem upper_of_plain (h : ∀ c ∈ text, Plain c) : upper text = text.map Char.toUpper := by
  induction text with
  | nil => rfl
  | cons c text ih =>
    have hc := (h c List.mem_cons_self).classes.upper
    have htext := ih fun d hd => h d (List.mem_cons_of_mem c hd)
    rw [upper, List.flatMap_cons, hc, ← upper, htext]
    rfl

theorem ascii_of_isGameId (h : IsGameId id) : ∀ c ∈ id, c.toNat < 128 := by
  have hsigns : ['-', '_', '.'].all (fun c => c.toNat < 128) = true := by decide
  intro c hc
  rcases mem_of_isGameId h hc with hletter | hdigit | hsign
  · exact lt_of_isAlpha hletter
  · exact lt_of_isDigit hdigit
  · simpa using List.all_eq_true.1 hsigns c hsign

/-- What `upper` and the replacement of the minus do to the characters of an ID. -/
@[mk_iff]
structure CanonicalClasses (c : Char) : Prop where
  not_minus : (if c = '-' then '_' else c.toUpper) ≠ '-'
  not_lower : (if c = '-' then '_' else c.toUpper).isLower = false
  letter : c.isAlpha = true → (if c = '-' then '_' else c.toUpper).isAlpha = true
  digit : c.isDigit = true → (if c = '-' then '_' else c.toUpper).isDigit = true
  fixed : c ≠ '-' → c.isLower = false → c.toUpper = c
  minus : c.toUpper = '-' → c = '-'

instance (c : Char) : Decidable (CanonicalClasses c) :=
  decidable_of_iff' _ (canonicalClasses_iff c)

theorem canonicalClasses {c : Char} (h : c.toNat < 128) : CanonicalClasses c :=
  forall_ascii (by decide +kernel) h

theorem isCanonicalId_canonicalId (h : IsGameId id) : IsCanonicalId (canonicalId id) := by
  have hascii := ascii_of_isGameId h
  constructor
  · obtain ⟨a, b, c, d, sep, x, y, z, u, v, rfl, hletters, hsep, hdigits, hlast⟩ :=
      exists_of_isGameId h
    have hl (l : Char) (hl : l ∈ [a, b, c, d]) :=
      (canonicalClasses (lt_of_isAlpha (hletters l hl))).letter (hletters l hl)
    have hn (n : Char) (hn : n ∈ [x, y, z]) :=
      (canonicalClasses (lt_of_isDigit (hdigits n hn))).digit (hdigits n hn)
    have hm (n : Char) (hn : n ∈ [u, v]) :=
      (canonicalClasses (lt_of_isDigit (hlast n hn))).digit (hlast n hn)
    refine ⟨?_, Or.inr ?_, ?_, rfl, ?_⟩
    · simpa [List.forall_mem_cons] using hl
    · rcases hsep with rfl | rfl <;> rfl
    · simpa [List.forall_mem_cons] using hn
    · simpa [List.forall_mem_cons] using hm
  · intro e he
    obtain ⟨c, hc, rfl⟩ := List.mem_map.1 he
    have hclasses := canonicalClasses (hascii c hc)
    exact ⟨hclasses.not_minus, hclasses.not_lower⟩

theorem canonicalId_of_isCanonicalId (h : IsCanonicalId id) : canonicalId id = id := by
  have hascii := ascii_of_isGameId h.1
  rw [canonicalId]
  conv_rhs => rw [← List.map_id id]
  apply List.map_congr_left
  intro c hc
  obtain ⟨hminus, hlower⟩ := h.2 c hc
  rw [if_neg hminus, (canonicalClasses (hascii c hc)).fixed hminus hlower]
  rfl

/-- The result for text that can come from a configuration file. -/
theorem normalizeGameId_of_some {found : List Char} (hid : IsGameId found)
    (h : searchGameId none text = some found) :
    normalizeGameId text = .ok (String.ofList (canonicalId found)) := by
  have hascii := ascii_of_isGameId hid
  rw [normalizeGameId, h]
  show Except.ok (String.ofList ((upper found).map _)) = _
  rw [upper_of_plain fun c hc => Or.inl (hascii c hc), List.map_map, canonicalId]
  congr 2
  apply List.map_congr_left
  intro c hc
  have hclasses := canonicalClasses (hascii c hc)
  show (if c.toUpper = '-' then '_' else c.toUpper) = _
  -- No other character becomes a minus by its upper case.
  by_cases hminus : c = '-'
  · subst hminus
    rfl
  · rw [if_neg hminus, if_neg fun h => hminus (hclasses.minus h)]

/-- A canonical ID is found again at the start of a text. -/
theorem normalizeGameId_canonical (hid : IsCanonicalId id) (rest : List Char)
    (hrest : ∀ c ∈ rest.head?, isDecimal c = false) :
    normalizeGameId (id ++ rest) = .ok (String.ofList id) := by
  have hmatch := matchGameId_append hid.1 hrest
  have hsearch : searchGameId none (id ++ rest) = some id := by
    cases htext : id ++ rest with
    | nil =>
      rw [htext] at hmatch
      cases hmatch
    | cons c text =>
      rw [htext] at hmatch
      rw [searchGameId]
      simp [hmatch]
  rw [normalizeGameId_of_some hid.1 hsearch, canonicalId_of_isCanonicalId hid]

theorem normalizeGameId_spec (hplain : ∀ c ∈ text, Plain c) :
    (∃ pre id post, FirstOccurs text pre id post ∧
      normalizeGameId text = .ok (String.ofList (canonicalId id))) ∨
    (∀ pre id post, ¬Occurs none text pre id post) ∧
      normalizeGameId text =
        .error (.validationError "No recognizable PS2 executable ID was found.") := by
  obtain ⟨hfound, hnone⟩ := searchGameId_spec none hplain (by simp)
  cases h : searchGameId none text with
  | some id =>
    obtain ⟨pre, post, hocc, hfirst⟩ := hfound id h
    exact Or.inl ⟨pre, id, post, ⟨hocc, hfirst⟩, normalizeGameId_of_some hocc.isGameId h⟩
  | none =>
    refine Or.inr ⟨hnone h, ?_⟩
    rw [normalizeGameId, h]

end Ps2Ripper
