/-!
# Columns

Texts filled up with spaces to the width of a column, counted in code points.
-/

namespace ScopeLisp.Text

/-- A text with as many spaces after it as the width needs; a longer text is left as it is. -/
def padTo (width : Nat) (text : String) : String :=
  text ++ String.ofList (List.replicate (width - text.length) ' ')

end ScopeLisp.Text
