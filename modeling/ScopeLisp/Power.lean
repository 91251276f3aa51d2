/-!
# Powers

The powers that number formats are built from.
-/

namespace ScopeLisp

/-- A power of two. -/
def twoPow (n : Nat) : Nat := Nat.pow 2 n

/-- A power of five. -/
def fivePow (n : Nat) : Nat := Nat.pow 5 n

/-- A power of ten. -/
def tenPow (n : Nat) : Nat := Nat.pow 10 n

/-- The largest 64-bit word. -/
def maxWord : Nat := twoPow 64 - 1

end ScopeLisp
