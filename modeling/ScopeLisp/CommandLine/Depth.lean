import ScopeLisp.Machine

/-!
# The depth setting

The limit on nested evaluations can be set from outside as a decimal number that fits a 64-bit
word, with an optional plus sign.
-/

namespace ScopeLisp.CommandLine

/-- Why a text is no depth limit. -/
inductive DepthFault where
  | empty
  | invalidDigit
  | tooLarge
deriving DecidableEq

/-- The wording of a fault in a depth limit. -/
def DepthFault.text : DepthFault → String
  | empty => "cannot parse integer from empty string"
  | invalidDigit => "invalid digit found in string"
  | tooLarge => "number too large to fit in target type"

/-- The name of the setting. -/
def depthVariable : String := "EGGLISP_MAX_DEPTH"

/-- Reads digits after a number already read; the first fault from the left counts. -/
def readDigits (n : Nat) : List Char → Except DepthFault Nat
  | [] => .ok n
  | c :: rest =>
    if c.isDigit then
      let n := 10 * n + (c.toNat - '0'.toNat)
      if n ≤ maxWord then readDigits n rest else .error .tooLarge
    else .error .invalidDigit

/-- Reads a depth limit. -/
def readDepth (text : String) : Except DepthFault Nat :=
  match text.toList with
  | [] => .error .empty
  | ['+'] => .error .invalidDigit
  | '+' :: digits => readDigits 0 digits
  | digits => readDigits 0 digits

/-- The settings, with the limit as it was set from outside, if it was. -/
def config (setting : Option String) : Except (String × DepthFault) Config :=
  match setting with
  | none => .ok {}
  | some text =>
    match readDepth text with
    | .ok maxDepth => .ok { maxDepth }
    | .error fault => .error (text, fault)

end ScopeLisp.CommandLine
