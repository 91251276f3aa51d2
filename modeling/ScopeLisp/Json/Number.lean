import ScopeLisp.Double.Decimal
import ScopeLisp.Json.Tree
import ScopeLisp.Numeral

/-!
# Numbers in JSON

Reading follows a cheap scheme that is not always correctly rounded: the digits are collected in a
64-bit word as far as they fit, the word is rounded to a double, and the double is multiplied or
divided by a power of ten, with one rounding for each factor. A number too large for a double is
refused.

Writing uses the shortest digits that read back, a tie going to the even digit: positionally with
at least one digit after the point from `1e-5` up to below `1e16`, with an exponent elsewhere, and
`null` for what is not finite.
-/

namespace ScopeLisp

namespace Double

/-- The product with the double nearest to a power of ten, which must be finite. -/
def timesTenPow (x : Double) (n : Nat) : Double :=
  ofRatio x.negative (x.units * (ofDecimal ⟨1, n⟩).units) (twoPow 1074 * twoPow 1074)

/-- The quotient by the double nearest to a power of ten, which must be finite. -/
def overTenPow (x : Double) (n : Nat) : Double :=
  ofRatio x.negative x.units (ofDecimal ⟨1, n⟩).units

/-- The largest exponent of a power of ten that is a finite double. -/
def maxTenPow : Nat := 308

/-- The quotient by a power of ten, taken in factors of at most `10 ^ 308`. -/
def overTenPowStepwise : (fuel : Nat) → Double → Nat → Double
  | 0, x, _ => x
  | fuel + 1, x, n =>
    if n ≤ maxTenPow then x.overTenPow n
    else if x.units = 0 then x
    else overTenPowStepwise fuel (x.overTenPow maxTenPow) (n - maxTenPow)

/-- A finite number times a power of ten, unless it is too large. -/
def scaleTen? (x : Double) (exponent : Int) : Option Double :=
  match exponent with
  | .ofNat n =>
    if n ≤ maxTenPow then
      let y := x.timesTenPow n
      if y.isInfinite then none else some y
    else if x.units = 0 then some x
    else none
  | .negSucc n => some (x.overTenPowStepwise (n + 1) (n + 1))

end Double

namespace Json

/-- The largest exponent that is read digit by digit. -/
def maxExponent : Nat := twoPow 31 - 1

/-- Digits collected in a word, with the power of ten to multiply it by. -/
structure Collected where
  word : Nat
  exponent : Int

/-- Puts a digit at the end of a word, if it fits. -/
def appendDigit? (word : Nat) (digit : Char) : Option Nat :=
  let word := 10 * word + (digit.toNat - '0'.toNat)
  if word ≤ maxWord then some word else none

/-- Collects digits before the point. From the first that does not fit on, each one is a factor of
    ten. -/
def collectWhole (word : Nat) : List Char → Collected
  | [] => ⟨word, 0⟩
  | d :: ds =>
    match appendDigit? word d with
    | some word => collectWhole word ds
    | none => ⟨word, (d :: ds).length⟩

/-- Collects digits after the point. From the first that does not fit on, they are ignored. -/
def collectFraction (c : Collected) : List Char → Collected
  | [] => c
  | d :: ds =>
    match appendDigit? c.word d with
    | some word => collectFraction ⟨word, c.exponent - 1⟩ ds
    | none => c

/-- A digit that the word has room for is taken in. -/
theorem collectWhole_of_some {word word' : Nat} {d : Char} (h : appendDigit? word d = some word')
    (ds : List Char) : collectWhole word (d :: ds) = collectWhole word' ds := by
  show (match appendDigit? word d with
    | some word => collectWhole word ds
    | none => ⟨word, (d :: ds).length⟩) = _
  rw [h]

/-- From the first digit that the word has no room for, digits only raise the exponent. -/
theorem collectWhole_of_none {word : Nat} {d : Char} (h : appendDigit? word d = none)
    (ds : List Char) : collectWhole word (d :: ds) = ⟨word, (d :: ds).length⟩ := by
  show (match appendDigit? word d with
    | some word => collectWhole word ds
    | none => ⟨word, (d :: ds).length⟩) = _
  rw [h]

/-- A digit behind the point that the word has room for lowers the exponent. -/
theorem collectFraction_of_some {c : Collected} {word' : Nat} {d : Char}
    (h : appendDigit? c.word d = some word') (ds : List Char) :
    collectFraction c (d :: ds) = collectFraction ⟨word', c.exponent - 1⟩ ds := by
  show (match appendDigit? c.word d with
    | some word => collectFraction ⟨word, c.exponent - 1⟩ ds
    | none => c) = _
  rw [h]

/-- Digits behind the point that the word has no room for are dropped. -/
theorem collectFraction_of_none {c : Collected} {d : Char} (h : appendDigit? c.word d = none)
    (ds : List Char) : collectFraction c (d :: ds) = c := by
  show (match appendDigit? c.word d with
    | some word => collectFraction ⟨word, c.exponent - 1⟩ ds
    | none => c) = _
  rw [h]

/-- Applies an exponent. One past the bound leaves nothing of a number if it is negative, and of
    zero always. -/
def applyExponent (c : Collected) (negative : Bool) (digits : List Char) : Option Double :=
  let e := ScopeLisp.Numeral.ofDigits digits
  if maxExponent < e then
    if c.word = 0 ∨ negative then some .zero else none
  else
    (Double.ofNat c.word).scaleTen? (c.exponent + (if negative then -(e : Int) else e))

namespace Numeral

/-- The absolute value of a number. -/
def magnitude? (n : Numeral) : Option Double :=
  let whole := collectWhole 0 n.whole
  let c := collectFraction whole (n.fraction.getD [])
  match n.exponent with
  | some (negative, digits) => applyExponent c negative digits
  | none =>
    if n.fraction.isNone ∧ c.exponent = 0 then some (.ofNat c.word)
    else (Double.ofNat c.word).scaleTen? c.exponent

/-- The double that a number is read as. -/
def toDouble? (n : Numeral) : Option Double := do
  let x ← n.magnitude?
  return if n.negative then x.neg else x

/-- A number written as a plain natural number that fits a word. -/
def toWord? (n : Numeral) : Option Nat :=
  if n.negative ∨ n.fraction.isSome ∨ n.exponent.isSome then none
  else
    let word := ScopeLisp.Numeral.ofDigits n.whole
    if word ≤ maxWord then some word else none

end Numeral

/-- A decimal without exponent, with at least one digit after the point. -/
def positionalText (d : Decimal) : List Char :=
  match d.split with
  | (whole, []) => whole ++ ['.', '0']
  | (whole, fraction) => whole ++ '.' :: fraction

/-- A decimal with an exponent: one digit, the others after a point, and a signed exponent. -/
def scientificText (d : Decimal) : List Char :=
  let significand := match Nat.toDigits 10 d.digits with
    | first :: second :: rest => first :: '.' :: second :: rest
    | ds => ds
  let e := d.leadingExponent
  significand ++ 'e' :: (if e < 0 then '-' else '+') :: Nat.toDigits 10 e.natAbs

/-- The text of a number. -/
def numberText (x : Double) : String :=
  if x.isFinite then
    let d := x.shortest .toEven
    let e := d.leadingExponent
    let text := if -5 ≤ e ∧ e < 16 then positionalText d else scientificText d
    (if x.negative then "-" else "") ++ String.ofList text
  else "null"

end Json

end ScopeLisp
