/-!
# Lines of a byte stream

A line ends at a line feed, which does not belong to it, and neither does one carriage return right
before it. Bytes after the last line feed are a line as well.
-/

namespace ScopeLisp.Text

/-- The lines of a byte stream. -/
def splitLines : List UInt8 → List (List UInt8)
  | [] => []
  | 10 :: rest => [] :: splitLines rest
  | 13 :: 10 :: rest => [] :: splitLines rest
  | b :: rest =>
    match splitLines rest with
    | [] => [[b]]
    | line :: lines => (b :: line) :: lines

/-- The text that bytes encode in UTF-8. -/
def decode? (bytes : List UInt8) : Option String :=
  String.fromUTF8? ⟨bytes.toArray⟩

end ScopeLisp.Text
