/-!
# Arities

How many arguments a callable takes, and in which way a count can miss it.
-/

namespace ScopeLisp

/-- Accepted argument counts. -/
inductive Arity where
  /-- This many. -/
  | exactly (n : Nat)
  /-- This many or more. -/
  | atLeast (n : Nat)
  /-- Any number. -/
  | any
deriving DecidableEq

/-- In which way an argument count misses an arity. -/
inductive Arity.Mismatch where
  | tooFew
  | tooMany
deriving DecidableEq

namespace Arity

/-- In which way a count misses the arity, if it does. -/
def mismatch? : Arity → Nat → Option Mismatch
  | exactly n, got => if got < n then some .tooFew else if n < got then some .tooMany else none
  | atLeast n, got => if got < n then some .tooFew else none
  | any, _ => none

/-- Whether a count is accepted. -/
def Admits : Arity → Nat → Prop
  | exactly n, got => got = n
  | atLeast n, got => n ≤ got
  | any, _ => True

/-- The arity as messages word it. -/
def expected : Arity → String
  | exactly n => n.repr
  | atLeast n => "at least " ++ n.repr
  | any => "any number"

/-- The arity in a column of the catalogue. -/
def short : Arity → String
  | exactly n => n.repr
  | atLeast n => n.repr ++ "+"
  | any => "*"

/-- A count is accepted exactly when there is no mismatch. -/
theorem mismatch?_eq_none_iff {a : Arity} {got : Nat} :
    a.mismatch? got = none ↔ a.Admits got := by
  cases a <;> simp only [mismatch?, Admits] <;> grind

end Arity

end ScopeLisp
