/-!
# Positions in a source text

Lines and columns are counted from one. A column is one code point, and only a line feed starts
a new line. `Position.advance` looks at a whole text at once: behind its last line feed, columns
are counted anew. That is the same as moving over one character after the other
(`Position.advance_eq_foldl`), so moving over two pieces of text in turn is moving over their
concatenation (`Position.advance_append`).
-/

namespace ScopeLisp

/-- A place in a source text. -/
structure Position where
  /-- Line, counted from one. -/
  line : Nat
  /-- Column in code points, counted from one. -/
  column : Nat
deriving DecidableEq, Inhabited

namespace Position

/-- The place before the first character. -/
def start : Position := ⟨1, 1⟩

/-- The place after one more character. -/
def next (p : Position) (c : Char) : Position :=
  if c = '\n' then ⟨p.line + 1, 1⟩ else ⟨p.line, p.column + 1⟩

/-- What follows the last line feed of a text, if it has one. -/
def lastLine? : List Char → Option (List Char)
  | [] => none
  | c :: cs => (lastLine? cs).or (if c = '\n' then some cs else none)

/-- The place after a whole text: on the line behind its last line feed, or further on the same line
    if it has none. -/
def advance (p : Position) (text : List Char) : Position :=
  match lastLine? text with
  | some line => ⟨p.line + text.count '\n', line.length + 1⟩
  | none => ⟨p.line, p.column + text.length⟩

/-- A place as it is quoted in messages: `line:column`. -/
def text (p : Position) : String :=
  p.line.repr ++ ":" ++ p.column.repr

/-- Nothing is moved over without characters. -/
@[simp] theorem advance_nil (p : Position) : p.advance [] = p := rfl

/-- A text without a last line has no line feed. -/
theorem count_of_lastLine?_eq_none {text : List Char} (h : lastLine? text = none) :
    text.count '\n' = 0 := by
  induction text with
  | nil => rfl
  | cons c cs ih =>
    obtain ⟨hcs, hc⟩ := Option.or_eq_none_iff.1 h
    have hne : c ≠ '\n' := fun heq => by simp [heq] at hc
    rw [List.count_cons_of_ne hne, ih hcs]

/-- Moving over a text is moving over its first character and then over the others. -/
@[simp] theorem advance_cons (p : Position) (c : Char) (cs : List Char) :
    p.advance (c :: cs) = (p.next c).advance cs := by
  have hlast : lastLine? (c :: cs) = (lastLine? cs).or (if c = '\n' then some cs else none) := rfl
  rw [advance, advance, hlast, next]
  cases hcs : lastLine? cs with
  | some line =>
    -- The last line feed comes later, so the column does not depend on the first character.
    by_cases hc : c = '\n'
    · simp [hc, Nat.add_comm, Nat.add_left_comm]
    · simp [hc]
  | none =>
    have hcount := count_of_lastLine?_eq_none hcs
    by_cases hc : c = '\n'
    · simp [hc, hcount, Nat.add_comm]
    · simp [hc, Nat.add_comm, Nat.add_left_comm]

/-- Moving over a text is moving over one character after the other. -/
theorem advance_eq_foldl (p : Position) (text : List Char) :
    p.advance text = text.foldl next p := by
  induction text generalizing p with
  | nil => rfl
  | cons c cs ih => rw [advance_cons, List.foldl_cons, ih]

/-- Moving over two texts in turn is moving over their concatenation. -/
theorem advance_append (p : Position) (s t : List Char) :
    p.advance (s ++ t) = (p.advance s).advance t := by
  simp only [advance_eq_foldl, List.foldl_append]

end Position

end ScopeLisp
