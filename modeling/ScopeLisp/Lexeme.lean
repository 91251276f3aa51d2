import ScopeLisp.Text.Blank
import ScopeLisp.Numeral
import ScopeLisp.Token

/-!
# Lexemes

The classes of lexemes, each as a function that takes the longest lexeme of its class off the
start of a text. `Lexeme.scan?` tries all classes. Whatever is taken off is never empty, and what
was taken and what is left together are the text (`Lexeme.splits_of_scan?`).
-/

namespace ScopeLisp

/-- A lexeme at the start of a text. -/
structure Lexeme where
  kind : Token.Kind
  /-- The characters of the lexeme. -/
  text : List Char
  /-- The characters after it. -/
  rest : List Char

namespace Lexeme

/-- The longest run of white space and line comments at the start of a text, with what follows. A
    comment starts at a semicolon and ends before a line feed; `inComment` says that the
    text starts inside one. -/
def blankRun : (inComment : Bool) → List Char → List Char × List Char
  | _, [] => ([], [])
  | inComment, c :: rest =>
    if Text.isBlank c || c = ';' || inComment then
      let (run, rest) := blankRun (c ≠ '\n' && (inComment || c = ';')) rest
      (c :: run, rest)
    else ([], c :: rest)

/-- First character of a name. -/
def isNameStart (c : Char) : Bool :=
  c.isAlpha || c = '_'

/-- Later character of a name. -/
def isNameChar (c : Char) : Bool :=
  isNameStart c || c.isDigit || c ∈ ['!', '?', '*', '-']

/-- Character of an operator. -/
def isOperatorChar (c : Char) : Bool :=
  c ∈ ['-', '+', '*', '/', '<', '>', '=', '!', '?', '\\']

/-- White space and line comments. -/
def blank? (text : List Char) : Option Lexeme :=
  match blankRun false text with
  | ([], _) => none
  | (run, rest) => some ⟨.blank, run, rest⟩

/-- A text up to the next double quote, between double quotes. -/
def string? : List Char → Option Lexeme
  | '"' :: body =>
    match body.dropWhile (· ≠ '"') with
    | _ :: rest =>
      let content := body.takeWhile (· ≠ '"')
      some ⟨.string (String.ofList content), '"' :: (content ++ ['"']), rest⟩
    | [] => none
  | _ => none

/-- A number literal. -/
def number? (text : List Char) : Option Lexeme :=
  (Numeral.scan? text).map fun (n, rest) => ⟨.number n.value, n.text, rest⟩

/-- A parenthesis or a quote mark. -/
def mark? : List Char → Option Lexeme
  | '(' :: rest => some ⟨.leftParen, ['('], rest⟩
  | ')' :: rest => some ⟨.rightParen, [')'], rest⟩
  | '\'' :: rest => some ⟨.quote, ['\''], rest⟩
  | _ => none

/-- A symbol made of the characters of a class. -/
def symbolOf (isChar : Char → Bool) (text : List Char) : Lexeme :=
  let name := text.takeWhile isChar
  ⟨.symbol (String.ofList name), name, text.dropWhile isChar⟩

/-- A name or an operator. -/
def symbol? : List Char → Option Lexeme
  | [] => none
  | c :: rest =>
    if isNameStart c then some (symbolOf isNameChar (c :: rest))
    else if isOperatorChar c then some (symbolOf isOperatorChar (c :: rest))
    else none

/-- The lexeme at the start of a text. -/
def scan? (text : List Char) : Option Lexeme :=
  blank? text <|> string? text <|> number? text <|> mark? text <|> symbol? text

/-! ## Nothing is lost and nothing is empty -/

/-- A blank run and what follows it are the text. -/
theorem blankRun_append (inComment : Bool) (text : List Char) :
    (blankRun inComment text).1 ++ (blankRun inComment text).2 = text := by
  -- Whether the text starts inside a comment changes from character to character.
  induction text generalizing inComment with
  | nil => rfl
  | cons c rest ih =>
    unfold blankRun
    split
    · simp [ih]
    · rfl

/-- A lexeme splits a text when it is not empty and gives back the text with its rest. -/
def Splits (text : List Char) (l : Lexeme) : Prop :=
  l.text ++ l.rest = text ∧ l.text ≠ []

/-- A blank lexeme splits the text. -/
theorem splits_of_blank? {text : List Char} {l : Lexeme} (h : blank? text = some l) :
    l.Splits text := by
  have happ := blankRun_append false text
  unfold blank? at h
  split at h
  · exact nomatch h
  · next run rest hne heq =>
    obtain rfl := Option.some.inj h
    rw [heq] at happ
    exact ⟨happ, hne⟩

/-- A string literal splits the text: what stops the search for its end is its closing quote. -/
theorem splits_of_string? {text : List Char} {l : Lexeme} (h : string? text = some l) :
    l.Splits text := by
  unfold string? at h
  split at h
  · next body =>
    split at h
    · next c rest hdrop =>
      obtain rfl := Option.some.inj h
      -- `dropWhile` stops only at a character that the search does not pass over.
      have hc : c = '"' := by
        have := List.head?_dropWhile_not (· ≠ '"') body
        rw [hdrop] at this
        simpa using this
      have := List.takeWhile_append_dropWhile (p := (· ≠ '"')) (l := body)
      rw [hdrop, hc] at this
      exact ⟨by simpa using this, by simp⟩
    · exact nomatch h
  · exact nomatch h

/-- A mark splits the text. -/
theorem splits_of_mark? {text : List Char} {l : Lexeme} (h : mark? text = some l) :
    l.Splits text := by
  unfold mark? at h
  split at h
  case h_4 => exact nomatch h
  all_goals
    obtain rfl := Option.some.inj h
    exact ⟨rfl, by simp⟩

/-- A symbol splits the text if its first character is of its class. -/
theorem splits_symbolOf {isChar : Char → Bool} {c : Char} {rest : List Char}
    (hc : isChar c = true) : (symbolOf isChar (c :: rest)).Splits (c :: rest) :=
  ⟨List.takeWhile_append_dropWhile, by simp [symbolOf, hc]⟩

/-- A name or an operator splits the text. -/
theorem splits_of_symbol? {text : List Char} {l : Lexeme} (h : symbol? text = some l) :
    l.Splits text := by
  unfold symbol? at h
  split at h
  · exact nomatch h
  · split at h
    -- Each first character of a name is also a later one.
    · next hc =>
      obtain rfl := Option.some.inj h
      exact splits_symbolOf (by simp [isNameChar, hc])
    · split at h
      · next hc =>
        obtain rfl := Option.some.inj h
        exact splits_symbolOf hc
      · exact nomatch h

/-- A number literal splits the text. -/
theorem splits_of_number? {text : List Char} {l : Lexeme} (h : number? text = some l) :
    l.Splits text := by
  obtain ⟨⟨n, rest⟩, hscan, rfl⟩ := Option.map_eq_some_iff.1 h
  exact ⟨Numeral.text_append_of_scan? hscan, Numeral.text_ne_nil_of_scan? hscan⟩

/-- What is taken off the start of a text is not empty, and with the rest it is the text. -/
theorem splits_of_scan? {text : List Char} {l : Lexeme} (h : scan? text = some l) :
    l.Splits text := by
  simp only [scan?, Option.orElse_eq_orElse, Option.orElse_eq_or, Option.or_eq_some_iff] at h
  -- One case for each class, in the order in which they are tried.
  rcases h with h | ⟨-, h | ⟨-, h | ⟨-, h | ⟨-, h⟩⟩⟩⟩
  · exact splits_of_blank? h
  · exact splits_of_string? h
  · exact splits_of_number? h
  · exact splits_of_mark? h
  · exact splits_of_symbol? h

end Lexeme

end ScopeLisp
