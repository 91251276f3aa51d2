import ScopeLisp.Text.Quoted

/-!
# Records in diagnostics

A name with its fields, and lists of quoted texts.
-/

namespace ScopeLisp.Text

/-- A name with its fields, `name { key: value, key: value }`. -/
def record (name : String) (fields : List (String × String)) : String :=
  name ++ " \x7b " ++ ", ".intercalate (fields.map fun (key, value) => key ++ ": " ++ value) ++
    " \x7d"

/-- Texts in quotes, `["a", "b"]`. -/
def quotedList (texts : List String) : String :=
  "[" ++ ", ".intercalate (texts.map quoted) ++ "]"

end ScopeLisp.Text
