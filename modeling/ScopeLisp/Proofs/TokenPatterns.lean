import Mathlib.Computability.Language
import ScopeLisp.Proofs.Positions
import ScopeLisp.Proofs.Truncation

/-!
# Token classes as regular languages

Each class of tokens has a pattern, which is a regular language. A lexeme is taken off a text by
a function of its class that looks at one character after the other. Here each of these functions
is compared with the pattern of its class: what it takes is a word of the pattern, and it takes at
least as much as any word that the text starts with.

## Key results

- `Lexeme.blankRun_mem`, `Lexeme.length_le_of_mem_kstar`: white space and comments
- `Lexeme.string?_of_mem`: strings
- `Numeral.mem_pattern_iff`, `Numeral.scan?_text_append`: numerals
- `Lexeme.mem_symbol_iff`, `Lexeme.symbol?_of_mem`: symbols
-/

namespace ScopeLisp

open scoped Computability

/-! ## Patterns -/

namespace Pattern

/-- One character of a class. -/
def one (p : Char → Prop) : Language Char :=
  {w | ∃ c, p c ∧ w = [c]}

/-- One word of a language, or several one after the other. -/
def many (L : Language Char) : Language Char :=
  L * L∗

/-- One word of a language, or nothing. -/
def optional (L : Language Char) : Language Char :=
  1 + L

/-- The class `[0-9]`. -/
def IsDigit (c : Char) : Prop :=
  '0' ≤ c ∧ c ≤ '9'

/-- The class `[A-Za-z_]`. -/
def IsNameStart (c : Char) : Prop :=
  'A' ≤ c ∧ c ≤ 'Z' ∨ 'a' ≤ c ∧ c ≤ 'z' ∨ c = '_'

/-- The class `[A-Za-z_!?*0-9-]`. -/
def IsNameChar (c : Char) : Prop :=
  IsNameStart c ∨ IsDigit c ∨ c ∈ ['!', '?', '*', '-']

/-- The class `[-+*/<>=!?\\]`. -/
def IsOperatorChar (c : Char) : Prop :=
  c ∈ ['-', '+', '*', '/', '<', '>', '=', '!', '?', '\\']

/-- A white space character, or a comment up to the end of its line: `\s|;[^\n]*`. -/
def blankItem : Language Char :=
  one (Text.isBlank · = true) + one (· = ';') * (one (· ≠ '\n'))∗

/-- Digits with an optional fraction, or a fraction alone: `[0-9]+(\.[0-9]*)?|\.[0-9]+`. -/
def mantissa : Language Char :=
  many (one IsDigit) * optional (one (· = '.') * (one IsDigit)∗) +
    one (· = '.') * many (one IsDigit)

/-- An exponent without sign: `[eE][0-9]+`. -/
def exponent : Language Char :=
  one (fun c => c = 'e' ∨ c = 'E') * many (one IsDigit)

end Pattern

/-- The classes of tokens. -/
inductive Token.Class where
  | blank
  | string
  | number
  | leftParen
  | rightParen
  | quote
  | symbol
deriving DecidableEq

namespace Token

open Pattern

/-- The class of a token; the end of input is in none. -/
def Kind.class? : Kind → Option Class
  | string _ => some .string
  | number _ => some .number
  | symbol _ => some .symbol
  | leftParen => some .leftParen
  | rightParen => some .rightParen
  | quote => some .quote
  | blank => some .blank
  | endOfInput => none

namespace Class

/-- The lexemes of a class. -/
def pattern : Class → Language Char
  -- `(\s|;[^\n]*)+`
  | blank => many blankItem
  -- `"[^"]*"`
  | string => one (· = '"') * (one (· ≠ '"'))∗ * one (· = '"')
  -- `([0-9]+(\.[0-9]*)?|\.[0-9]+)([eE][0-9]+)?`
  | number => mantissa * optional exponent
  | leftParen => one (· = '(')
  | rightParen => one (· = ')')
  | quote => one (· = '\'')
  -- `[A-Za-z_][A-Za-z_!?*0-9-]*|[-+*/<>=!?\\]+`
  | symbol => one IsNameStart * (one IsNameChar)∗ + many (one IsOperatorChar)

/-- A text starts with a word of the pattern that is not empty. -/
def Matches (c : Class) (text : List Char) : Prop :=
  ∃ w ∈ c.pattern, w ≠ [] ∧ w <+: text

/-- The longest beginning of a text that is a word of the pattern. -/
structure IsLongest (c : Class) (text w : List Char) : Prop where
  mem : w ∈ c.pattern
  ne_nil : w ≠ []
  begins : w <+: text
  length_le : ∀ w' ∈ c.pattern, w' <+: text → w'.length ≤ w.length

end Class

end Token

/-! ## Words -/

namespace Pattern

variable {p : Char → Prop} {L : Language Char} {w : List Char}

private theorem nil_mem_optional : [] ∈ optional L := .inl rfl

private theorem mem_optional : w ∈ optional L ↔ w = [] ∨ w ∈ L := Iff.rfl

/-- A word in front of words of the same language. -/
theorem append_mem_kstar {u : List Char} (hw : w ∈ L) (hu : u ∈ L∗) : w ++ u ∈ L∗ := by
  rw [← Language.one_add_self_mul_kstar_eq_kstar]
  exact .inr (Language.append_mem_mul hw hu)

/-- Words one after the other that are not all empty are at least one. -/
theorem mem_many_of_kstar (hw : w ∈ L∗) (hne : w ≠ []) : w ∈ many L := by
  rw [← Language.one_add_self_mul_kstar_eq_kstar] at hw
  rcases hw with hnil | hmany
  · exact absurd hnil hne
  · exact hmany

/-- One more character of the class in front. -/
private theorem cons_mem_kstar_one {c : Char} (hc : p c) (hw : w ∈ (one p)∗) : c :: w ∈ (one p)∗ :=
  append_mem_kstar (w := [c]) ⟨c, hc, rfl⟩ hw

/-- Characters of a class one after the other are the texts in which every character is of that
    class. -/
theorem mem_kstar_one : w ∈ (one p)∗ ↔ ∀ c ∈ w, p c := by
  constructor
  -- Each word is a single character of the class.
  · rintro ⟨words, rfl, hwords⟩ c hc
    obtain ⟨word, hword, hmem⟩ := List.mem_flatten.1 hc
    obtain ⟨d, hd, rfl⟩ := hwords word hword
    rw [List.mem_singleton.1 hmem]
    exact hd
  -- The other way round, the text is built up character by character.
  · intro h
    induction w with
    | nil => exact Language.nil_mem_kstar _
    | cons c w ih =>
      have hw : w ∈ (one p)∗ := ih fun d hd => h d (List.mem_cons_of_mem _ hd)
      exact cons_mem_kstar_one (h c List.mem_cons_self) hw

/-- One or more characters of a class are the non-empty texts of that class. -/
private theorem mem_many_one : w ∈ many (one p) ↔ w ≠ [] ∧ ∀ c ∈ w, p c := by
  constructor
  · rintro ⟨_, ⟨c, hc, rfl⟩, u, hu, rfl⟩
    refine ⟨List.cons_ne_nil c u, ?_⟩
    exact mem_kstar_one.1 (cons_mem_kstar_one hc hu)
  · rintro ⟨hne, h⟩
    exact mem_many_of_kstar (mem_kstar_one.2 h) hne

/-- A word behind one character of a class. -/
private theorem mem_one_mul : w ∈ one p * L ↔ ∃ c u, p c ∧ u ∈ L ∧ w = c :: u := by
  constructor
  · rintro ⟨_, ⟨c, hc, rfl⟩, u, hu, rfl⟩
    exact ⟨c, u, hc, hu, rfl⟩
  · rintro ⟨c, u, hc, hu, rfl⟩
    exact Language.append_mem_mul (a := [c]) ⟨c, hc, rfl⟩ hu

/-! ## Classes of characters -/

/-- The digits of the scanner are those of the pattern. -/
private theorem isDigit_iff {c : Char} : c.isDigit = true ↔ IsDigit c := by
  simp [Char.isDigit, IsDigit, Char.le_def]

/-- Names start with the same characters in the scanner and in the pattern. -/
private theorem isNameStart_iff {c : Char} : Lexeme.isNameStart c = true ↔ IsNameStart c := by
  have hletter : c.isAlpha = true ↔ ('A' ≤ c ∧ c ≤ 'Z') ∨ ('a' ≤ c ∧ c ≤ 'z') := by
    show (decide ('A' ≤ c ∧ c ≤ 'Z') || ('a' ≤ c && c ≤ 'z')) = true ↔ _
    simp
  simp [Lexeme.isNameStart, IsNameStart, hletter, or_assoc]

/-- Names go on with the same characters in the scanner and in the pattern. -/
private theorem isNameChar_iff {c : Char} : Lexeme.isNameChar c = true ↔ IsNameChar c := by
  simp [Lexeme.isNameChar, IsNameChar, isNameStart_iff, isDigit_iff, or_assoc]

/-- Operators have the same characters in the scanner and in the pattern. -/
private theorem isOperatorChar_iff {c : Char} :
    Lexeme.isOperatorChar c = true ↔ IsOperatorChar c := by
  simp [Lexeme.isOperatorChar, IsOperatorChar]

end Pattern

namespace Lexeme

open Pattern Token

variable {text w : List Char} {l : Lexeme}

/-! ## White space -/

/-- What is taken as white space consists of blank characters and comments; in a comment it first
    goes on to the end of the line. -/
theorem blankRun_mem (text : List Char) :
    (blankRun false text).1 ∈ blankItem∗ ∧
      (blankRun true text).1 ∈ (one (· ≠ '\n'))∗ * blankItem∗ := by
  -- Both statements at once: a comment that ends leads outside, a semicolon back inside.
  induction text with
  | nil =>
    have hnil : [] ∈ blankItem∗ := Language.nil_mem_kstar _
    exact ⟨hnil, [], Language.nil_mem_kstar _, [], hnil, rfl⟩
  | cons c rest ih =>
    obtain ⟨ihfalse, ihtrue⟩ := ih
    obtain ⟨line, hline, items, hitems, hrun⟩ := Language.mem_mul.1 ihtrue
    constructor
    · by_cases hc : (Text.isBlank c || c = ';' || false) = true
      · rw [blankRun, if_pos hc]
        by_cases hcomment : c = ';'
        · -- The rest of the line belongs to the comment that starts here.
          subst hcomment
          have hitem : ';' :: line ∈ blankItem := .inr (mem_one_mul.2 ⟨';', line, rfl, hline, rfl⟩)
          have happ := append_mem_kstar hitem hitems
          rw [List.cons_append, hrun] at happ
          exact happ
        · have hblank : Text.isBlank c = true := by simpa [hcomment] using hc
          have happ := append_mem_kstar (w := [c]) (L := blankItem) (.inl ⟨c, hblank, rfl⟩) ihfalse
          simpa [hcomment] using happ
      · rw [blankRun, if_neg hc]
        exact Language.nil_mem_kstar _
    · rw [blankRun, if_pos (by simp)]
      by_cases hnewline : c = '\n'
      · subst hnewline
        refine ⟨[], Language.nil_mem_kstar _, _, ?_, List.nil_append _⟩
        exact append_mem_kstar (w := ['\n']) (L := blankItem) (.inl ⟨'\n', by decide, rfl⟩) ihfalse
      · have happ := Language.append_mem_mul (cons_mem_kstar_one hnewline hline) hitems
        rw [List.cons_append, hrun] at happ
        simpa [hnewline] using happ

/-- In a comment at least as much is taken as outside of one. -/
theorem length_blankRun_le (text : List Char) :
    (blankRun false text).1.length ≤ (blankRun true text).1.length := by
  induction text with
  | nil => exact Nat.le_refl _
  | cons c rest ih =>
    have htrue : (blankRun true (c :: rest)).1 = c :: (blankRun (c ≠ '\n') rest).1 := by
      simp [blankRun]
    rw [htrue]
    -- Outside of a comment the character may end the run; inside it never does.
    by_cases hc : (Text.isBlank c || c = ';' || false) = true
    · rw [blankRun, if_pos hc]
      by_cases hnewline : c = '\n'
      · simp [hnewline]
      · by_cases hcomment : c = ';'
        · simp [hcomment]
        · simpa [hnewline, hcomment] using ih
    · rw [blankRun, if_neg hc]
      exact Nat.zero_le _

/-- A comment is taken to the end of its line. -/
theorem blankRun_true_append {line : List Char} (h : ∀ c ∈ line, c ≠ '\n') (rest : List Char) :
    (blankRun true (line ++ rest)).1 = line ++ (blankRun true rest).1 := by
  induction line with
  | nil => rfl
  | cons c line ih =>
    have hc : c ≠ '\n' := h c List.mem_cons_self
    rw [List.cons_append, blankRun, if_pos (by simp), List.cons_append,
      ← ih fun d hd => h d (List.mem_cons_of_mem _ hd)]
    simp [hc]

/-- A blank character or a comment is not empty. -/
theorem ne_nil_of_blankItem (h : w ∈ blankItem) : w ≠ [] := by
  rcases h with ⟨c, -, rfl⟩ | h
  · exact List.cons_ne_nil c []
  · obtain ⟨c, line, -, -, rfl⟩ := mem_one_mul.1 h
    exact List.cons_ne_nil c line

/-- A blank character or a comment is taken, and what would be taken behind it. -/
theorem length_add_le_of_blankItem (h : w ∈ blankItem) (rest : List Char) :
    w.length + (blankRun false rest).1.length ≤ (blankRun false (w ++ rest)).1.length := by
  have hle := length_blankRun_le rest
  -- Behind a blank character at least as much is taken in a comment as outside of one.
  rcases h with ⟨c, hc, rfl⟩ | h
  · have hrun : ∃ inComment,
        (blankRun false ([c] ++ rest)).1 = c :: (blankRun inComment rest).1 := by
      rw [List.singleton_append, blankRun, if_pos (by simp [hc])]
      exact ⟨_, rfl⟩
    obtain ⟨inComment, hrun⟩ := hrun
    rw [hrun, List.length_cons, List.length_cons, List.length_nil]
    cases inComment with
    | false => omega
    | true => omega
  · obtain ⟨_, line, rfl, hline, rfl⟩ := mem_one_mul.1 h
    have hcomment := blankRun_true_append (mem_kstar_one.1 hline) rest
    have hrun :
        (blankRun false (';' :: line ++ rest)).1 = ';' :: (line ++ (blankRun true rest).1) := by
      rw [List.cons_append, blankRun, if_pos (by simp), ← hcomment]
      rfl
    rw [hrun]
    simp only [List.length_cons, List.length_append]
    omega

/-- As much is taken as white space as the text starts with. -/
theorem length_le_of_mem_kstar (h : w ∈ blankItem∗) (rest : List Char) :
    w.length ≤ (blankRun false (w ++ rest)).1.length := by
  obtain ⟨items, rfl, hitems⟩ := h
  induction items with
  | nil => exact Nat.zero_le _
  | cons item items ih =>
    have hitem := length_add_le_of_blankItem (hitems item List.mem_cons_self)
      (items.flatten ++ rest)
    have hrest := ih fun i hi => hitems i (List.mem_cons_of_mem _ hi)
    rw [List.flatten_cons, List.append_assoc, List.length_append]
    omega

/-- What is taken as white space is a word of the pattern of white space. -/
theorem mem_of_blank? (h : blank? text = some l) : l.text ∈ Token.Class.blank.pattern := by
  have hmem := (blankRun_mem text).1
  have hne := (splits_of_blank? h).2
  unfold blank? at h
  split at h
  · cases h
  · next run rest _ hrun =>
    obtain rfl := Option.some.inj h
    rw [hrun] at hmem
    exact mem_many_of_kstar hmem hne

/-! ## Strings -/

/-- The words of the pattern of strings are texts without quotes, between quotes. -/
theorem mem_string_iff :
    w ∈ Token.Class.string.pattern ↔ ∃ content, '"' ∉ content ∧ w = '"' :: (content ++ ['"']) := by
  constructor
  · rintro ⟨_, ⟨_, ⟨_, rfl, rfl⟩, content, hcontent, rfl⟩, _, ⟨_, rfl, rfl⟩, rfl⟩
    exact ⟨content, fun hmem => mem_kstar_one.1 hcontent _ hmem rfl, rfl⟩
  · rintro ⟨content, hcontent, rfl⟩
    have hopen : '"' :: content ∈ one (· = '"') * (one (· ≠ '"'))∗ :=
      mem_one_mul.2 ⟨'"', content, rfl, mem_kstar_one.2 fun c hc heq => hcontent (heq ▸ hc), rfl⟩
    exact Language.append_mem_mul hopen ⟨'"', rfl, rfl⟩

/-- What is taken as a string is a word of the pattern of strings. -/
theorem mem_of_string? (h : string? text = some l) : l.text ∈ Token.Class.string.pattern := by
  unfold string? at h
  split at h
  · next body =>
    split at h
    · obtain rfl := Option.some.inj h
      -- The content was taken up to the first quote, so it has none.
      refine mem_string_iff.2 ⟨_, fun hmem => ?_, rfl⟩
      have hne := List.all_eq_true.1 (List.all_takeWhile (l := body)) _ hmem
      exact absurd rfl (of_decide_eq_true hne)
    · cases h
  · cases h

/-- What is taken as a string becomes a string token. -/
theorem kind_of_string? (h : string? text = some l) : ∃ content, l.kind = .string content := by
  unfold string? at h
  split at h
  · split at h
    · obtain rfl := Option.some.inj h
      exact ⟨_, rfl⟩
    · cases h
  · cases h

/-- A text between quotes is taken as it is. -/
theorem string?_of_mem {content : List Char} (h : '"' ∉ content) (rest : List Char) :
    string? ('"' :: (content ++ '"' :: rest)) =
      some ⟨.string (String.ofList content), '"' :: (content ++ ['"']), rest⟩ := by
  have hchars : ∀ c ∈ content, (decide (c ≠ '"')) = true :=
    fun c hc => decide_eq_true fun hquote => h (hquote ▸ hc)
  have htake : (content ++ '"' :: rest).takeWhile (· ≠ '"') = content ++ [] :=
    List.takeWhile_append_of_pos hchars
  have hdrop : (content ++ '"' :: rest).dropWhile (· ≠ '"') = '"' :: rest :=
    List.dropWhile_append_of_pos hchars
  rw [List.append_nil] at htake
  rw [string?, hdrop]
  simp only [htake]

end Lexeme

/-! ## Numerals -/

namespace Numeral

open Pattern

variable {n : Numeral} {text rest w : List Char}

/-- The parts are as they have to be written: digits, at least one of them before the exponent, and
    an exponent with a mark and at least one digit. -/
structure IsWritten (n : Numeral) : Prop where
  whole : ∀ c ∈ n.whole, c.isDigit = true
  fraction : ∀ digits, n.fraction = some digits → ∀ c ∈ digits, c.isDigit = true
  digit : n.whole ≠ [] ∨ n.fraction.getD [] ≠ []
  exponent : ∀ mark digits, n.exponent = some (mark, digits) →
    (mark = 'e' ∨ mark = 'E') ∧ digits ≠ [] ∧ ∀ c ∈ digits, c.isDigit = true

/-- Digits, perhaps none, are the words of the digit class. -/
private theorem mem_digits {digits : List Char} :
    digits ∈ (one IsDigit)∗ ↔ ∀ c ∈ digits, c.isDigit = true := by
  simp only [mem_kstar_one, isDigit_iff]

/-- One or more digits. -/
private theorem mem_many_digits {digits : List Char} :
    digits ∈ many (one IsDigit) ↔ digits ≠ [] ∧ ∀ c ∈ digits, c.isDigit = true := by
  simp only [mem_many_one, isDigit_iff]

/-- The words of the pattern are the numerals as they are written. -/
theorem mem_pattern_iff :
    w ∈ Token.Class.number.pattern ↔ ∃ n : Numeral, n.IsWritten ∧ n.text = w := by
  constructor
  · rintro ⟨m, hm, e, he, rfl⟩
    -- First the digits and the fraction, then the exponent.
    obtain ⟨whole, fraction, hwhole, hfraction, hdigit, rfl⟩ : ∃ whole fraction,
        (∀ c ∈ whole, c.isDigit = true) ∧
        (∀ digits, fraction = some digits → ∀ c ∈ digits, c.isDigit = true) ∧
        (whole ≠ [] ∨ fraction.getD [] ≠ []) ∧
        whole ++ fraction.elim [] ('.' :: ·) = m := by
      rcases hm with ⟨whole, hwhole, f, hf, rfl⟩ | hm
      · obtain ⟨hne, hdigits⟩ := mem_many_digits.1 hwhole
        rcases mem_optional.1 hf with rfl | hf
        · exact ⟨whole, none, hdigits, nofun, .inl hne, rfl⟩
        · obtain ⟨_, digits, rfl, hfraction, rfl⟩ := mem_one_mul.1 hf
          refine ⟨whole, some digits, hdigits, ?_, .inl hne, rfl⟩
          rintro _ ⟨⟩
          exact mem_digits.1 hfraction
      · obtain ⟨_, digits, rfl, hfraction, rfl⟩ := mem_one_mul.1 hm
        obtain ⟨hne, hdigits⟩ := mem_many_digits.1 hfraction
        refine ⟨[], some digits, nofun, ?_, .inr hne, rfl⟩
        rintro _ ⟨⟩
        exact hdigits
    rcases mem_optional.1 he with rfl | he
    · exact ⟨⟨whole, fraction, none⟩, ⟨hwhole, hfraction, hdigit, nofun⟩, rfl⟩
    · obtain ⟨mark, digits, hmark, hdigits, rfl⟩ := mem_one_mul.1 he
      refine ⟨⟨whole, fraction, some (mark, digits)⟩, ⟨hwhole, hfraction, hdigit, ?_⟩, rfl⟩
      rintro _ _ ⟨⟩
      exact ⟨hmark, mem_many_digits.1 hdigits⟩
  · rintro ⟨⟨whole, fraction, exponent⟩, hn, rfl⟩
    -- A numeral is put together from its digits, its fraction and its exponent.
    refine Language.append_mem_mul ?_ ?_
    · cases fraction with
      | none =>
        have hne : whole ≠ [] := by simpa using hn.digit
        exact .inl (Language.append_mem_mul (mem_many_digits.2 ⟨hne, hn.whole⟩) nil_mem_optional)
      | some digits =>
        have hfraction := hn.fraction digits rfl
        by_cases hne : whole = []
        · subst hne
          have hdigit : digits ≠ [] := by simpa using hn.digit
          exact .inr (mem_one_mul.2 ⟨'.', digits, rfl, mem_many_digits.2 ⟨hdigit, hfraction⟩, rfl⟩)
        · refine .inl (Language.append_mem_mul (mem_many_digits.2 ⟨hne, hn.whole⟩) (.inr ?_))
          exact mem_one_mul.2 ⟨'.', digits, rfl, mem_digits.2 hfraction, rfl⟩
    · cases exponent with
      | none => exact nil_mem_optional
      | some e =>
        obtain ⟨mark, digits⟩ := e
        obtain ⟨hmark, hne, hdigits⟩ := hn.exponent mark digits rfl
        exact .inr (mem_one_mul.2 ⟨mark, digits, hmark, mem_many_digits.2 ⟨hne, hdigits⟩, rfl⟩)

private theorem isDigit_takeWhile (text : List Char) :
    ∀ c ∈ text.takeWhile Char.isDigit, c.isDigit = true :=
  List.all_eq_true.1 List.all_takeWhile

/-- What is scanned as a numeral is written as one. -/
theorem isWritten_of_scan? (h : scan? text = some (n, rest)) : n.IsWritten := by
  simp only [scan?] at h
  split at h
  · cases h
  · next hdigit =>
    obtain ⟨rfl, rfl⟩ := h
    -- What is scanned are runs of digits, of which not both are empty.
    refine ⟨isDigit_takeWhile _, ?_, ?_, ?_⟩
    · intro digits hfraction
      simp only [scanFraction] at hfraction
      split at hfraction
      · obtain rfl := Option.some.inj hfraction
        exact isDigit_takeWhile _
      · cases hfraction
    · by_cases hwhole : text.takeWhile Char.isDigit = []
      · exact .inr fun hnil => hdigit ⟨hwhole, hnil⟩
      · exact .inl hwhole
    · intro mark digits hexponent
      simp only [scanExponent] at hexponent
      split at hexponent
      · cases hexponent
      · split at hexponent
        · next hmark =>
          obtain ⟨rfl, rfl⟩ := Prod.mk.inj (Option.some.inj hexponent)
          exact ⟨hmark.1, hmark.2, isDigit_takeWhile _⟩
        · cases hexponent

/-- A mark of an exponent goes on neither with digits nor with a fraction. -/
theorem not_isDigit_of_mark {mark : Char} (h : mark = 'e' ∨ mark = 'E') :
    mark.isDigit = false ∧ mark ≠ '.' := by
  rcases h with rfl | rfl
  · decide
  · decide

/-- All the digits behind a mark are taken as the exponent. -/
theorem scanExponent_digits {mark : Char} {digits : List Char} (hmark : mark = 'e' ∨ mark = 'E')
    (hne : digits ≠ []) (h : ∀ c ∈ digits, c.isDigit = true) (rest : List Char) :
    scanExponent (mark :: (digits ++ rest)) =
      (some (mark, digits ++ rest.takeWhile Char.isDigit), rest.dropWhile Char.isDigit) := by
  have htake : (digits ++ rest).takeWhile Char.isDigit = digits ++ rest.takeWhile Char.isDigit :=
    List.takeWhile_append_of_pos h
  have hdrop : (digits ++ rest).dropWhile Char.isDigit = rest.dropWhile Char.isDigit :=
    List.dropWhile_append_of_pos h
  have hdigit : digits ++ rest.takeWhile Char.isDigit ≠ [] := by simp [hne]
  simp only [scanExponent, htake, hdrop]
  rw [if_pos ⟨hmark, hdigit⟩]

/-- What a numeral at the start of a text leaves. -/
def leftover (text : List Char) : List Char :=
  (scanExponent (scanFraction (text.dropWhile Char.isDigit)).2).2

/-- A digit before or behind the point makes a numeral. -/
theorem exists_scan?_eq (h : text.takeWhile Char.isDigit ≠ [] ∨
    (scanFraction (text.dropWhile Char.isDigit)).1.getD [] ≠ []) :
    ∃ n, scan? text = some (n, leftover text) := by
  refine ⟨_, if_neg fun hnone => ?_⟩
  rcases h with h | h
  · exact h hnone.1
  · exact h hnone.2

private theorem length_dropWhile_le (text : List Char) :
    (text.dropWhile Char.isDigit).length ≤ text.length :=
  (List.dropWhile_suffix _).length_le

/-- Behind an exponent there is no more text than before. -/
private theorem length_scanExponent_le (text : List Char) :
    (scanExponent text).2.length ≤ text.length := by
  conv_rhs => rw [← scanExponent_append text, List.length_append]
  omega

/-- Behind a numeral there is no more text than before. -/
private theorem length_leftover_le (text : List Char) : (leftover text).length ≤ text.length := by
  have hdigits := length_dropWhile_le text
  have hfraction : (scanFraction (text.dropWhile Char.isDigit)).2.length ≤
      (text.dropWhile Char.isDigit).length := by
    conv_rhs => rw [← scanFraction_append (text.dropWhile Char.isDigit), List.length_append]
    omega
  have hexponent := length_scanExponent_le (scanFraction (text.dropWhile Char.isDigit)).2
  unfold leftover
  omega

/-- Behind digits, a point and more digits, only an exponent is looked for. -/
theorem scanFraction_point {digits : List Char} (h : ∀ c ∈ digits, c.isDigit = true)
    (rest : List Char) :
    scanFraction (('.' :: (digits ++ rest)).dropWhile Char.isDigit) =
      (some (digits ++ rest.takeWhile Char.isDigit), rest.dropWhile Char.isDigit) := by
  have hpoint : ('.' : Char).isDigit = false := by decide
  simp [scanFraction, hpoint, List.takeWhile_append_of_pos h, List.dropWhile_append_of_pos h]

/-- What is written as a numeral is taken, and perhaps some of what follows. -/
theorem length_leftover_text_append_le (hn : n.IsWritten) (rest : List Char) :
    (leftover (n.text ++ rest)).length ≤ rest.length := by
  obtain ⟨whole, fraction, exponent⟩ := n
  -- The digits before the point are gone over, whatever follows them.
  have hwhole : ∀ more, leftover (whole ++ more) = leftover more := by
    intro more
    rw [leftover, List.dropWhile_append_of_pos hn.whole, leftover]
  rw [text, List.append_assoc, List.append_assoc, hwhole]
  -- With an exponent, only its digits can go on; without one, the fraction can, or an exponent
  -- starts.
  cases exponent with
  | none =>
    cases fraction with
    | none => exact length_leftover_le rest
    | some digits =>
      show (leftover ('.' :: (digits ++ rest))).length ≤ rest.length
      rw [leftover, scanFraction_point (hn.fraction digits rfl)]
      exact Nat.le_trans (length_scanExponent_le _) (length_dropWhile_le rest)
  | some e =>
    obtain ⟨mark, digits⟩ := e
    obtain ⟨hmark, hne, hdigits⟩ := hn.exponent mark digits rfl
    obtain ⟨hdigit, hpoint⟩ := not_isDigit_of_mark hmark
    have hstop : (mark :: (digits ++ rest)).dropWhile Char.isDigit = mark :: (digits ++ rest) :=
      List.dropWhile_cons_of_neg (by simp [hdigit])
    have hend : (scanExponent (mark :: (digits ++ rest))).2.length ≤ rest.length := by
      rw [scanExponent_digits hmark hne hdigits]
      exact length_dropWhile_le rest
    cases fraction with
    | none =>
      show (leftover (mark :: (digits ++ rest))).length ≤ rest.length
      rw [leftover, hstop]
      simpa [scanFraction, hpoint] using hend
    | some fs =>
      show (leftover ('.' :: (fs ++ mark :: (digits ++ rest)))).length ≤ rest.length
      rw [leftover, scanFraction_point (hn.fraction fs rfl), hstop]
      exact hend

/-- At least as much is scanned as is written as a numeral. -/
theorem scan?_text_append (hn : n.IsWritten) (rest : List Char) :
    ∃ n' rest', scan? (n.text ++ rest) = some (n', rest') ∧ n.text.length ≤ n'.text.length := by
  have hdigit : (n.text ++ rest).takeWhile Char.isDigit ≠ [] ∨
      (scanFraction ((n.text ++ rest).dropWhile Char.isDigit)).1.getD [] ≠ [] := by
    rw [text, List.append_assoc, List.append_assoc, List.takeWhile_append_of_pos hn.whole,
      List.dropWhile_append_of_pos hn.whole]
    by_cases hne : n.whole = []
    · -- The digits are those of the fraction.
      have hfraction : n.fraction.getD [] ≠ [] := hn.digit.resolve_left fun h => h hne
      cases hdigits : n.fraction with
      | none => simp [hdigits] at hfraction
      | some digits =>
        rw [hdigits] at hfraction
        refine .inr ?_
        show (scanFraction (('.' :: (digits ++ _)).dropWhile Char.isDigit)).1.getD [] ≠ []
        rw [scanFraction_point (hn.fraction digits hdigits)]
        simpa using fun h => absurd h hfraction
    · exact .inl (by simp [hne])
  obtain ⟨n', hscan⟩ := exists_scan?_eq hdigit
  have happ := congrArg List.length (text_append_of_scan? hscan)
  have hleft := length_leftover_text_append_le hn rest
  rw [List.length_append, List.length_append] at happ
  exact ⟨n', _, hscan, by omega⟩

end Numeral

namespace Lexeme

open Pattern Token

variable {text w : List Char} {l : Lexeme}

/-! ## Symbols -/

/-- The words of the pattern of symbols are the names and the operators. -/
theorem mem_symbol_iff : w ∈ Token.Class.symbol.pattern ↔ isSymbolName w = true := by
  constructor
  -- A name or an operator.
  · rintro (h | h)
    · obtain ⟨c, rest, hc, hrest, rfl⟩ := mem_one_mul.1 h
      have hall : rest.all isNameChar = true :=
        List.all_eq_true.2 fun d hd => isNameChar_iff.2 (mem_kstar_one.1 hrest d hd)
      simp [isSymbolName, isNameStart_iff.2 hc, hall]
    · obtain ⟨hne, hall⟩ := mem_many_one.1 h
      obtain ⟨c, rest, rfl⟩ := List.exists_cons_of_ne_nil hne
      have hall' : (c :: rest).all isOperatorChar = true :=
        List.all_eq_true.2 fun d hd => isOperatorChar_iff.2 (hall d hd)
      rw [isSymbolName, hall', Bool.or_true]
  · intro h
    cases w with
    | nil => cases h
    | cons c rest =>
      simp only [isSymbolName, Bool.or_eq_true, Bool.and_eq_true] at h
      -- A name has a start of its own; all characters of an operator are alike.
      rcases h with ⟨hc, hrest⟩ | hall
      · refine .inl (mem_one_mul.2 ⟨c, rest, isNameStart_iff.1 hc, ?_, rfl⟩)
        exact mem_kstar_one.2 fun d hd => isNameChar_iff.1 (List.all_eq_true.1 hrest d hd)
      · refine .inr (mem_many_one.2 ⟨List.cons_ne_nil c rest, fun d hd => ?_⟩)
        exact isOperatorChar_iff.1 (List.all_eq_true.1 hall d hd)

/-- What is taken as a symbol becomes the symbol of that name. -/
theorem kind_of_symbol? (h : symbol? text = some l) : l.kind = .symbol (String.ofList l.text) := by
  unfold symbol? at h
  split at h
  · cases h
  · split at h
    · obtain rfl := Option.some.inj h
      rfl
    · split at h
      · obtain rfl := Option.some.inj h
        rfl
      · cases h

/-- What is taken as a symbol is a word of the pattern of symbols. -/
theorem mem_of_symbol? (h : symbol? text = some l) : l.text ∈ Token.Class.symbol.pattern := by
  have hlegible := legible_of_symbol? h
  rw [kind_of_symbol? h] at hlegible
  have hname : isSymbolName (String.ofList l.text).toList = true := hlegible
  rw [String.toList_ofList] at hname
  exact mem_symbol_iff.2 hname

/-- A run takes at least the characters of its class that are known to stand there. -/
private theorem length_le_symbolOf {isChar : Char → Bool} (h : w.all isChar = true)
    (rest : List Char) :
    w.length ≤ (symbolOf isChar (w ++ rest)).text.length := by
  have hname : (symbolOf isChar (w ++ rest)).text = w ++ rest.takeWhile isChar :=
    List.takeWhile_append_of_pos (List.all_eq_true.1 h)
  rw [hname, List.length_append]
  omega

/-- At least as much is taken as a symbol as is one. -/
theorem symbol?_of_mem (h : w ∈ Token.Class.symbol.pattern) (rest : List Char) :
    ∃ l, symbol? (w ++ rest) = some l ∧ w.length ≤ l.text.length := by
  have hname := mem_symbol_iff.1 h
  cases w with
  | nil => cases hname
  | cons c w =>
    simp only [isSymbolName, Bool.or_eq_true, Bool.and_eq_true] at hname
    rw [List.cons_append, symbol?]
    -- No operator character starts a name, so the two halves of the pattern do not meet.
    rcases hname with ⟨hc, hw⟩ | hall
    · have hall : (c :: w).all isNameChar = true := by simp [isNameChar, hc, hw]
      rw [if_pos hc]
      exact ⟨_, rfl, length_le_symbolOf hall rest⟩
    · have hc : isOperatorChar c = true := List.all_eq_true.1 hall c List.mem_cons_self
      rw [if_neg (by rw [isNameStart_of_isOperatorChar hc]; exact Bool.false_ne_true), if_pos hc]
      exact ⟨_, rfl, length_le_symbolOf hall rest⟩

end Lexeme

end ScopeLisp
