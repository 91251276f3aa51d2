import ScopeLisp.Double.Basic

/-!
# Data

What a source text denotes before it is evaluated: atoms, lists built from cells, and quoted data.
Data have no identity; a datum gains one when it is loaded into a store.
-/

namespace ScopeLisp

/-- An expression as it was written. -/
inductive Datum where
  | nil
  | number (value : Double)
  | string (text : String)
  | symbol (name : String)
  /-- A list cell; in a proper list the tail is again a cell or `nil`. -/
  | pair (head tail : Datum)
  | quoted (inner : Datum)
deriving DecidableEq

/-- The list with the given elements. -/
def Datum.ofList (items : List Datum) : Datum :=
  items.foldr pair nil

/-- The list without elements is `nil`. -/
@[simp] theorem Datum.ofList_nil : ofList [] = nil := rfl

/-- One more element at the front is one more cell. -/
@[simp] theorem Datum.ofList_cons (d : Datum) (ds : List Datum) :
    ofList (d :: ds) = pair d (ofList ds) := rfl

end ScopeLisp
