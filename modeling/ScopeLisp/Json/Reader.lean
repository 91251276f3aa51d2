import ScopeLisp.Json.Tree

/-!
# Reading JSON

A strict reader: no comments, no trailing commas, no leading zeros, no control characters in
strings, and nothing but white space around the value.
-/

namespace ScopeLisp.Json

/-- White space between the parts of a text. -/
def isSpace (c : Char) : Bool :=
  c = ' ' || c = '\n' || c = '\t' || c = '\r'

/-- A text without the white space before it. -/
def skipSpace (text : List Char) : List Char :=
  text.dropWhile isSpace

/-! ## Strings -/

/-- The value of a hexadecimal digit. -/
def hexDigit? (c : Char) : Option Nat :=
  if '0' ≤ c ∧ c ≤ '9' then some (c.toNat - '0'.toNat)
  else if 'a' ≤ c ∧ c ≤ 'f' then some (c.toNat - 'a'.toNat + 10)
  else if 'A' ≤ c ∧ c ≤ 'F' then some (c.toNat - 'A'.toNat + 10)
  else none

/-- The value of four hexadecimal digits. -/
def hexCode? (a b c d : Char) : Option Nat := do
  let high := 16 * (← hexDigit? a) + (← hexDigit? b)
  let low := 16 * (← hexDigit? c) + (← hexDigit? d)
  return 256 * high + low

/-- The code that a backslash and a letter stand for. -/
def escapeCode? (c : Char) : Option Nat :=
  match c with
  | '"' | '\\' | '/' => some c.toNat
  | 'b' => some 0x08
  | 'f' => some 0x0C
  | 'n' => some 0x0A
  | 'r' => some 0x0D
  | 't' => some 0x09
  | _ => none

/-- The codes of a string up to its closing quote, with what follows. A code is a character or, if
    it was written with four digits, half of one. -/
def stringCodes : List Char → Option (List Nat × List Char)
  | [] => none
  | '"' :: rest => some ([], rest)
  | '\\' :: 'u' :: a :: b :: c :: d :: rest => do
    let code ← hexCode? a b c d
    let (codes, rest) ← stringCodes rest
    return (code :: codes, rest)
  -- With fewer than four digits behind it, `u` comes here, and is no letter of an escape.
  | '\\' :: c :: rest => do
    let code ← escapeCode? c
    let (codes, rest) ← stringCodes rest
    return (code :: codes, rest)
  | c :: rest =>
    -- Control characters have to be escaped.
    if c.toNat < 0x20 then none
    else do
      let (codes, rest) ← stringCodes rest
      return (c.toNat :: codes, rest)

/-- First half of a character outside the basic plane. -/
def isHighSurrogate (n : Nat) : Bool :=
  0xD800 ≤ n && n ≤ 0xDBFF

/-- Second half of a character outside the basic plane. -/
def isLowSurrogate (n : Nat) : Bool :=
  0xDC00 ≤ n && n ≤ 0xDFFF

/-- The characters that codes spell, unless one of them is half a character. -/
def charsOfCodes : List Nat → Option (List Char)
  | [] => some []
  | [n] => if isHighSurrogate n || isLowSurrogate n then none else some [Char.ofNat n]
  | high :: low :: rest =>
    -- Two halves in this order are one character.
    if isHighSurrogate high && isLowSurrogate low then
      (Char.ofNat (0x10000 + (high - 0xD800) * 0x400 + (low - 0xDC00)) :: ·) <$> charsOfCodes rest
    else if isHighSurrogate high || isLowSurrogate high then none
    else (Char.ofNat high :: ·) <$> charsOfCodes (low :: rest)

/-- A string after its opening quote, with what follows. -/
def string (text : List Char) : Option (Option String × List Char) := do
  let (codes, rest) ← stringCodes text
  return ((charsOfCodes codes).map String.ofList, rest)

/-! ## Numbers -/

/-- At least one digit, with what follows. -/
def digits (text : List Char) : Option (List Char × List Char) :=
  match text.takeWhile Char.isDigit with
  | [] => none
  | ds => some (ds, text.dropWhile Char.isDigit)

/-- The digits before a point: a single zero, or digits that do not start with one. -/
def wholeDigits : List Char → Option (List Char × List Char)
  | '0' :: rest => some (['0'], rest)
  | text => digits text

/-- A point with digits, or nothing. -/
def fraction : List Char → Option (Option (List Char) × List Char)
  | '.' :: rest => do
    let (ds, rest) ← digits rest
    return (some ds, rest)
  | rest => some (none, rest)

/-- The sign of an exponent, if it has one. -/
def exponentSign : List Char → Bool × List Char
  | '-' :: rest => (true, rest)
  | '+' :: rest => (false, rest)
  | rest => (false, rest)

/-- A mark with a sign and digits, or nothing. -/
def exponent : List Char → Option (Option (Bool × List Char) × List Char)
  | [] => some (none, [])
  | c :: rest =>
    if c = 'e' ∨ c = 'E' then do
      let (negative, rest) := exponentSign rest
      let (ds, rest) ← digits rest
      return (some (negative, ds), rest)
    else some (none, c :: rest)

/-- A number, with what follows. -/
def numeral (text : List Char) : Option (Numeral × List Char) := do
  let (negative, text) := match text with
    | '-' :: rest => (true, rest)
    | rest => (false, rest)
  let (whole, text) ← wholeDigits text
  let (fraction, text) ← fraction text
  let (exponent, text) ← exponent text
  return (⟨negative, whole, fraction, exponent⟩, text)

/-! ## Values -/

mutual

/-- A value after any white space, with what follows. -/
def value : (fuel : Nat) → List Char → Option (Tree × List Char)
  | 0, _ => none
  | fuel + 1, text =>
    match skipSpace text with
    | 'n' :: 'u' :: 'l' :: 'l' :: rest => some (.null, rest)
    | 't' :: 'r' :: 'u' :: 'e' :: rest => some (.bool true, rest)
    | 'f' :: 'a' :: 'l' :: 's' :: 'e' :: rest => some (.bool false, rest)
    | '"' :: rest => do
      let (text, rest) ← string rest
      return (.string text, rest)
    | '[' :: rest =>
      match skipSpace rest with
      | ']' :: rest => some (.array [], rest)
      | rest => do
        let (items, rest) ← items fuel rest
        return (.array items, rest)
    | '{' :: rest =>
      match skipSpace rest with
      | '}' :: rest => some (.object [], rest)
      | rest => do
        let (members, rest) ← members fuel rest
        return (.object members, rest)
    | rest => do
      let (n, rest) ← numeral rest
      return (.number n, rest)

/-- The items of an array up to its closing bracket, at least one. -/
def items : (fuel : Nat) → List Char → Option (List Tree × List Char)
  | 0, _ => none
  | fuel + 1, text => do
    let (item, rest) ← value fuel text
    match skipSpace rest with
    | ']' :: rest => return ([item], rest)
    | ',' :: rest =>
      let (more, rest) ← items fuel rest
      return (item :: more, rest)
    | _ => none

/-- The members of an object up to its closing brace, at least one. -/
def members : (fuel : Nat) → List Char → Option (List (Option String × Tree) × List Char)
  | 0, _ => none
  | fuel + 1, text =>
    match skipSpace text with
    | '"' :: rest => do
      let (key, rest) ← string rest
      match skipSpace rest with
      | ':' :: rest =>
        let (item, rest) ← value fuel rest
        match skipSpace rest with
        | '}' :: rest => return ([(key, item)], rest)
        | ',' :: rest =>
          let (more, rest) ← members fuel rest
          return ((key, item) :: more, rest)
        | _ => none
      | _ => none
    | _ => none

end

/-- The value of a whole text. Every two nested calls take at least one character, so the fuel
    lasts. -/
def read (text : String) : Option Tree :=
  match value (2 * text.length + 2) text.toList with
  | some (tree, rest) => if skipSpace rest = [] then some tree else none
  | none => none

end ScopeLisp.Json
