import ScopeLisp.Double.Decimal

/-!
# Number literals

A numeral is unsigned: digits with an optional fraction, or a fraction alone, and then an optional
exponent without sign. `1`, `1.`, `.5` and `1.e3` are numerals; of `1e` only the `1` is.
-/

namespace ScopeLisp

/-- A number literal, taken apart. -/
structure Numeral where
  /-- Digits before the point. -/
  whole : List Char
  /-- Digits after the point, if there is a point. -/
  fraction : Option (List Char)
  /-- Exponent mark and exponent digits, if there is an exponent. -/
  exponent : Option (Char × List Char)

namespace Numeral

/-- The number that decimal digits stand for. -/
def ofDigits (digits : List Char) : Nat :=
  Nat.ofDigitChars 10 digits 0

/-- The literal as it was written. -/
def text (n : Numeral) : List Char :=
  n.whole ++ (n.fraction.elim [] ('.' :: ·)) ++ (n.exponent.elim [] fun (mark, ds) => mark :: ds)

/-- The decimal that a literal denotes. -/
def decimal (n : Numeral) : Decimal :=
  let fraction := n.fraction.getD []
  ⟨ofDigits (n.whole ++ fraction), n.exponent.elim 0 (ofDigits ·.2) - fraction.length⟩

/-- The double nearest to what a literal denotes. -/
def value (n : Numeral) : Double :=
  Double.ofDecimal n.decimal

/-- A fraction at the start of a text, with what follows. -/
def scanFraction : List Char → Option (List Char) × List Char
  | '.' :: rest => (some (rest.takeWhile Char.isDigit), rest.dropWhile Char.isDigit)
  | rest => (none, rest)

/-- An exponent at the start of a text, with what follows. A mark without digits is none. -/
def scanExponent : List Char → Option (Char × List Char) × List Char
  | [] => (none, [])
  | mark :: rest =>
    let digits := rest.takeWhile Char.isDigit
    if (mark = 'e' ∨ mark = 'E') ∧ digits ≠ [] then
      (some (mark, digits), rest.dropWhile Char.isDigit)
    else (none, mark :: rest)

/-- The longest numeral at the start of a text, with what follows. -/
def scan? (text : List Char) : Option (Numeral × List Char) :=
  let whole := text.takeWhile Char.isDigit
  let (fraction, rest) := scanFraction (text.dropWhile Char.isDigit)
  if whole = [] ∧ fraction.getD [] = [] then none
  else
    let (exponent, rest) := scanExponent rest
    some (⟨whole, fraction, exponent⟩, rest)

/-- A fraction, if there is one, and what follows are the text. -/
theorem scanFraction_append (text : List Char) :
    ((scanFraction text).1.elim [] ('.' :: ·)) ++ (scanFraction text).2 = text := by
  unfold scanFraction
  split <;> simp [List.takeWhile_append_dropWhile]

/-- An exponent, if there is one, and what follows are the text. -/
theorem scanExponent_append (text : List Char) :
    ((scanExponent text).1.elim [] fun (mark, ds) => mark :: ds) ++ (scanExponent text).2
      = text := by
  unfold scanExponent
  split
  · rfl
  · dsimp only
    split <;> simp [List.takeWhile_append_dropWhile]

/-- Scanning a numeral loses nothing. -/
theorem text_append_of_scan? {text rest : List Char} {n : Numeral}
    (h : scan? text = some (n, rest)) : n.text ++ rest = text := by
  simp only [scan?] at h
  split at h
  · exact nomatch h
  · obtain ⟨rfl, rfl⟩ := h
    simp only [Numeral.text, List.append_assoc, scanExponent_append, scanFraction_append,
      List.takeWhile_append_dropWhile]

/-- A numeral is not empty. -/
theorem text_ne_nil_of_scan? {text rest : List Char} {n : Numeral}
    (h : scan? text = some (n, rest)) : n.text ≠ [] := by
  simp only [scan?] at h
  split at h
  · exact nomatch h
  · next hne =>
    obtain ⟨rfl, rfl⟩ := h
    intro hnil
    simp only [Numeral.text, List.append_eq_nil_iff] at hnil
    -- Without digits before the point and behind it, nothing would have been scanned.
    refine hne ⟨hnil.1.1, ?_⟩
    cases hf : (scanFraction (text.dropWhile Char.isDigit)).1 with
    | none => rfl
    | some ds => simp [hf] at hnil

end Numeral

end ScopeLisp
