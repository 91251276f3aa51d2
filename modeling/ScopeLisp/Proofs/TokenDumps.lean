import ScopeLisp.CommandLine.Shell
import ScopeLisp.Proofs.JsonNumbers
import ScopeLisp.Proofs.JsonTexts

/-!
# Tokens read back from their texts

The text of a token is read as the token again, for every kind, lexeme and place, if the number
that it holds is finite and its digits are read as that number. An infinity or a not-a-number is
written as `null`, which no number is read from. The text of a token is one line.

## Key results

- `readToken_tokenText`: what is read from the text of a token, part by part
- `oneLine_tokenText`: no line feed stands in the text of a token
- `tokens_read_back`: all this, and the same for the token in any other text
-/

namespace ScopeLisp

namespace Json

/-! ## Parts of a token -/

/-- The number that a text is read as. -/
def readNumber (text : String) : Option Double :=
  match numeral text.toList with
  | some (n, []) => n.toDouble?
  | _ => none

/-- A text that is read as a number is a numeral, with nothing behind it. -/
private theorem exists_numeral_of_readNumber {text : String} {x : Double}
    (h : readNumber text = some x) :
    ∃ n, numeral text.toList = some (n, []) ∧ n.toDouble? = some x := by
  unfold readNumber at h
  split at h
  · next n hn => exact ⟨n, hn, h⟩
  · exact nomatch h

/-- A line or a column as a tree. -/
def wordTree (word : Nat) : Tree :=
  .number ⟨false, Nat.toDigits 10 word, none, none⟩

/-- A line or a column is written with its digits. -/
private theorem spells_word (word : Nat) : Spells 1 word.repr (wordTree word) :=
  spells_number (by rw [Nat.toList_repr, numeral_toDigits])

/-- A line or a column is read back if it fits into a word. -/
private theorem word?_wordTree {word : Nat} (h : word ≤ maxWord) :
    word? (wordTree word) = some word := by
  simp [word?, wordTree, Numeral.toWord?, ScopeLisp.Numeral.ofDigits_toDigits, h]

/-- A kind with a value is an object with one member. -/
theorem spells_valued {need : Nat} {s : String} {tree : Tree} (name : String)
    (h : Spells need s tree) :
    Spells (need + 2) (objectText [(name, s)]) (.object [(some name, tree)]) :=
  spells_object [(name, s, tree)] (by simp) (by simpa using h)

end Json

/-- The kind holds no infinity and no not-a-number. -/
def Token.Kind.IsFinite (k : Token.Kind) : Prop :=
  ∀ x, k = .number x → x.isFinite = true

/-- The digits of a finite number that the kind holds are read as that number. -/
def Token.Kind.DigitsReadBack (k : Token.Kind) : Prop :=
  ∀ x, k = .number x → x.isFinite = true → Json.readNumber (Json.numberText x) = some x

namespace Json

-- Reading rounds more than once, so `1.0000000000000007` is read as the next number above it.
example : readNumber (numberText (.ofDecimal ⟨10000000000000007, -16⟩)) =
    some (.ofDecimal ⟨10000000000000009, -16⟩) := by
  decide +kernel

/-- The text of a number is read as the number that its digits are read as. -/
theorem exists_spells_number {x y : Double} (h : readNumber (numberText x) = some y) :
    ∃ tree, Spells 3 (kindText (.number x)) tree ∧ kind? tree = some (.number y) := by
  obtain ⟨n, hn, hy⟩ := exists_numeral_of_readNumber h
  refine ⟨_, spells_valued "Number" (spells_number hn), ?_⟩
  simp [kind?, hy]

/-- The text of a kind is read as that kind. -/
theorem exists_spells_kind {k : Token.Kind} (hfinite : k.IsFinite) (hdigits : k.DigitsReadBack) :
    ∃ tree, Spells 3 (kindText k) tree ∧ kind? tree = some k := by
  -- A kind with a value is an object, any other one is a string.
  cases k with
  | string text => exact ⟨_, spells_valued "String" (spells_string text), rfl⟩
  | symbol name => exact ⟨_, spells_valued "Symbol" (spells_string name), rfl⟩
  | number x => exact exists_spells_number (hdigits x rfl (hfinite x rfl))
  | leftParen => exact ⟨_, (spells_string "LeftParen").mono (by decide), rfl⟩
  | rightParen => exact ⟨_, (spells_string "RightParen").mono (by decide), rfl⟩
  | quote => exact ⟨_, (spells_string "Quote").mono (by decide), rfl⟩
  | blank => exact ⟨_, (spells_string "Whitespace").mono (by decide), rfl⟩
  | endOfInput => exact ⟨_, (spells_string "Eof").mono (by decide), rfl⟩

/-- What is no number is written as `null` and not read as a number. -/
theorem exists_spells_null {x : Double} (h : x.isFinite = false) :
    ∃ tree, Spells 3 (kindText (.number x)) tree ∧ kind? tree = none := by
  have hnull : numberText x = "null" := by simp [numberText, h]
  refine ⟨.object [(some "Number", .null)], ?_, rfl⟩
  show Spells 3 (objectText [("Number", numberText x)]) _
  rw [hnull]
  exact spells_valued "Number" spells_null

/-- The members of a token, with their texts and trees. -/
def entries (t : Token) (tree : Tree) : List (String × String × Tree) :=
  [("kind", kindText t.kind, tree), ("lexeme", stringText t.lexeme, .string (some t.lexeme)),
   ("line", t.position.line.repr, wordTree t.position.line),
   ("column", t.position.column.repr, wordTree t.position.column)]

/-- The text of a token is that of an object. -/
private theorem tokenText_eq (t : Token) (tree : Tree) :
    tokenText t = objectText ((entries t tree).map fun e => (e.1, e.2.1)) := rfl

/-- The text of a token is read as an object if the text of its kind is read. -/
private theorem spells_token {t : Token} {tree : Tree} (h : Spells 3 (kindText t.kind) tree) :
    Spells 8 (tokenText t) (.object ((entries t tree).map fun e => (some e.1, e.2.2))) := by
  rw [tokenText_eq t tree]
  refine spells_object (entries t tree) (by simp [entries]) ?_
  intro e he
  simp only [entries, List.mem_cons, List.not_mem_nil, or_false] at he
  rcases he with rfl | rfl | rfl | rfl
  · exact h
  · exact (spells_string t.lexeme).mono (by decide)
  · exact (spells_word t.position.line).mono (by decide)
  · exact (spells_word t.position.column).mono (by decide)

/-- What is read from the text of a token, part by part. -/
theorem readToken_tokenText {t : Token} {tree : Tree} (h : Spells 3 (kindText t.kind) tree) :
    readToken (tokenText t) =
      ofParts? tree (.string (some t.lexeme)) (wordTree t.position.line)
        (wordTree t.position.column) := by
  -- The fuel is twice the length of the text, and eight steps are needed.
  have hlength : 3 ≤ (tokenText t).length := by
    obtain ⟨text, htext⟩ := exists_intercalate_eq (by simp [entries] : entries t tree ≠ [])
    rw [tokenText_eq t tree, ← String.length_toList, toList_objectText htext]
    simp
  rw [readToken, read_of_spells (spells_token h) (by omega)]
  simp [ofTree?, entries, member?]

/-- If the kind is read, everything else of the token is read back. -/
theorem readToken_of_kind? {t : Token} {tree : Tree} {k : Token.Kind}
    (h : Spells 3 (kindText t.kind) tree) (hkind : kind? tree = some k)
    (hline : t.position.line ≤ maxWord) (hcolumn : t.position.column ≤ maxWord) :
    readToken (tokenText t) = some { t with kind := k } := by
  rw [readToken_tokenText h, ofParts?, hkind, word?_wordTree hline, word?_wordTree hcolumn]
  rfl

/-! ## One line -/

/-- No line feed stands in the text. -/
def OneLine (s : String) : Prop :=
  '\n' ∉ s.toList

instance (s : String) : Decidable (OneLine s) :=
  inferInstanceAs (Decidable ('\n' ∉ s.toList))

/-- Two texts of one line make one line. -/
private theorem OneLine.append {s s' : String} (h : OneLine s) (h' : OneLine s') :
    OneLine (s ++ s') := by
  simp only [OneLine, String.toList_append, List.mem_append, not_or]
  exact ⟨h, h'⟩

/-- Parts of one line each make one line, with separators in between. -/
private theorem OneLine.intercalate {separator : String} {parts : List String}
    (hs : OneLine separator)
    (h : ∀ part ∈ parts, OneLine part) : OneLine (separator.intercalate parts) := by
  -- The first part, a separator, and the other parts.
  induction parts with
  | nil => exact nofun
  | cons part parts ih =>
    have hpart := h part List.mem_cons_self
    have hparts := ih fun p hp => h p (List.mem_cons_of_mem _ hp)
    cases parts with
    | nil => simpa using hpart
    | cons part' parts =>
      rw [String.intercalate_cons_cons]
      exact (hpart.append hs).append hparts

/-- The escape of a character stands on one line, also that of the line feed. -/
theorem oneLine_escaped (c : Char) : OneLine (escaped c) := by
  unfold OneLine
  -- As itself, with a letter or with four digits; the line feed has a letter.
  obtain ⟨htext, hcontrol, -, -⟩ | ⟨d, htext, hcode⟩ | ⟨a, b, htext, hcode⟩ := escaped_cases c
  · rw [htext, List.mem_singleton]
    rintro rfl
    exact absurd hcontrol (by decide)
  · rw [htext]
    have hd : '\n' ≠ d := by
      rintro rfl
      exact nomatch hcode
    simp [hd]
  · rw [htext]
    have ha : '\n' ≠ a := by
      rintro rfl
      exact nomatch hcode
    have hb : '\n' ≠ b := by
      rintro rfl
      simp [hexCode?, hexDigit?] at hcode
    simp [ha, hb]

/-- A string is written on one line. -/
private theorem oneLine_stringText (s : String) : OneLine (stringText s) := by
  have hcontent : '\n' ∉ content s := by
    simp only [content, String.toList_join, List.flatMap_map, List.mem_flatMap, not_exists,
      not_and]
    exact fun c _ => oneLine_escaped c
  rw [OneLine, toList_stringText]
  simp [hcontent]

/-- An object is written on one line, if its values are. -/
private theorem oneLine_objectText {members : List (String × String)}
    (h : ∀ m ∈ members, OneLine m.2) : OneLine (objectText members) := by
  refine ((by decide : OneLine "\x7b").append (.intercalate (by decide) ?_)).append (by decide)
  intro part hpart
  obtain ⟨m, hm, rfl⟩ := List.mem_map.1 hpart
  exact ((oneLine_stringText m.1).append (by decide)).append (h m hm)

private theorem newline_notMem_digits {ds : List Char} (h : ∀ c ∈ ds, c.isDigit = true) :
    '\n' ∉ ds :=
  fun hmem => absurd (h _ hmem) (by decide)

/-- A number is written on one line with a point. -/
private theorem newline_notMem_positionalText (d : Decimal) : '\n' ∉ positionalText d := by
  obtain ⟨-, hwhole, hfraction⟩ := d.isDigit_split
  unfold positionalText
  split
  · next whole hsplit =>
    rw [hsplit] at hwhole
    simp [newline_notMem_digits hwhole]
  · next whole fraction _ hsplit =>
    rw [hsplit] at hwhole hfraction
    simp [newline_notMem_digits hwhole, newline_notMem_digits hfraction]

/-- A number is written on one line with an exponent. -/
private theorem newline_notMem_scientificText (d : Decimal) : '\n' ∉ scientificText d := by
  have hdigits := newline_notMem_digits (Numeral.isDigit_toDigits d.digits)
  have hexponent := newline_notMem_digits (Numeral.isDigit_toDigits d.leadingExponent.natAbs)
  simp only [scientificText, List.mem_append, List.mem_cons, not_or]
  refine ⟨?_, by decide, ?_, hexponent⟩
  -- The point is put behind the first digit.
  · split
    · next first second rest hds =>
      rw [hds] at hdigits
      simpa using hdigits
    · exact hdigits
  · split
    · decide
    · decide

/-- Every number is written on one line. -/
private theorem oneLine_numberText (x : Double) : OneLine (numberText x) := by
  unfold numberText
  split
  -- The sign, and then one of the two ways to write the digits.
  · refine OneLine.append ?_ ?_
    · split
      · decide
      · decide
    · rw [OneLine, String.toList_ofList]
      split
      · exact newline_notMem_positionalText _
      · exact newline_notMem_scientificText _
  · decide

/-- A line or a column is written on one line. -/
private theorem oneLine_repr (n : Nat) : OneLine n.repr := by
  rw [OneLine, Nat.toList_repr]
  exact newline_notMem_digits (Numeral.isDigit_toDigits n)

/-- The kind of a token is written on one line. -/
private theorem oneLine_kindText (k : Token.Kind) : OneLine (kindText k) := by
  cases k with
  | string text => exact oneLine_objectText (by simpa using oneLine_stringText text)
  | number x => exact oneLine_objectText (by simpa using oneLine_numberText x)
  | symbol name => exact oneLine_objectText (by simpa using oneLine_stringText name)
  | _ => exact oneLine_stringText _

/-- A token is written on one line. -/
theorem oneLine_tokenText (t : Token) : OneLine (tokenText t) := by
  refine oneLine_objectText ?_
  intro m hm
  simp only [List.mem_cons, List.not_mem_nil, or_false] at hm
  rcases hm with rfl | rfl | rfl | rfl
  · exact oneLine_kindText t.kind
  · exact oneLine_stringText t.lexeme
  · exact oneLine_repr t.position.line
  · exact oneLine_repr t.position.column

/-- The lines of a listing are the texts of its tokens. -/
theorem splitOn_join_tokenText (ts : List Token) :
    (String.join (ts.map fun t => tokenText t ++ "\n")).toList.splitOn '\n' =
      ts.map (fun t => (tokenText t).toList) ++ [[]] := by
  rw [String.toList_join]
  -- The first line feed is the one behind the first token.
  induction ts with
  | nil => rfl
  | cons t ts ih =>
    rw [List.map_cons, List.flatMap_cons, String.toList_append, List.append_assoc]
    exact (List.splitOn_append_cons_self_of_not_mem (oneLine_tokenText t) _).trans
      (congrArg _ ih)

/-! ## Texts of tokens from elsewhere -/

/-- A kind that is only a name holds no number. -/
private theorem isFinite_of_plainKind? {name : String} {k : Token.Kind}
    (h : plainKind? name = some k) :
    k.IsFinite := by
  unfold plainKind? at h
  split at h
  case h_6 => exact nomatch h
  all_goals
    obtain rfl := Option.some.inj h
    exact nofun

/-- A kind that is read holds no infinity and no not-a-number. -/
private theorem isFinite_of_kind? {tree : Tree} {k : Token.Kind} (h : kind? tree = some k) :
    k.IsFinite := by
  unfold kind? at h
  split at h
  · exact isFinite_of_plainKind? h
  · obtain rfl := Option.some.inj h
    exact nofun
  · obtain rfl := Option.some.inj h
    exact nofun
  -- Only this kind holds a number, which is finite as it was read.
  · obtain ⟨x, hx, rfl⟩ := Option.map_eq_some_iff.1 h
    rintro y hy
    obtain rfl := Token.Kind.number.inj hy
    exact Numeral.isFinite_of_toDouble? hx
  · exact isFinite_of_plainKind? h
  · exact nomatch h

/-- A line or a column that is read fits into a word. -/
private theorem le_maxWord_of_word? {tree : Tree} {word : Nat} (h : word? tree = some word) :
    word ≤ maxWord := by
  unfold word? at h
  split at h
  · simp only [Numeral.toWord?] at h
    split at h
    · exact nomatch h
    · split at h
      -- Digits are taken as a word only if they do not pass the largest one.
      · next hle =>
        obtain rfl := Option.some.inj h
        exact hle
      · exact nomatch h
  · exact nomatch h

/-- What every token that is read has in common. -/
theorem bounds_of_readToken {text : String} {t : Token} (h : readToken text = some t) :
    t.kind.IsFinite ∧ t.position.line ≤ maxWord ∧ t.position.column ≤ maxWord := by
  have hparts : ∀ {kind lexeme line column : Tree}, ofParts? kind lexeme line column = some t →
      t.kind.IsFinite ∧ t.position.line ≤ maxWord ∧ t.position.column ≤ maxWord := by
    intro kind lexeme line column hsome
    simp only [ofParts?, Option.bind_eq_bind, Option.bind_eq_some_iff] at hsome
    obtain ⟨k, hk, s, -, l, hl, c, hc, heq⟩ := hsome
    obtain rfl := Option.some.inj heq
    exact ⟨isFinite_of_kind? hk, le_maxWord_of_word? hl, le_maxWord_of_word? hc⟩
  -- An array and an object both come down to four parts.
  obtain ⟨tree, -, htree⟩ := Option.bind_eq_some_iff.1 h
  unfold ofTree? at htree
  split at htree
  · exact hparts htree
  · split at htree
    · simp only [Option.bind_eq_bind, Option.bind_eq_some_iff] at htree
      obtain ⟨kind, -, lexeme, -, line, -, column, -, hsome⟩ := htree
      exact hparts hsome
    · exact nomatch htree
  · exact nomatch htree

end Json

open Json

/-- The text of a token is read as that token if it holds no number or a finite one whose digits are
    read as that number; if they are read as another number, only the number changes. An infinity or
    a not-a-number is not read back at all. The text is one line, so the lines of a listing are the
    texts of its tokens. The token in any text that is read is read again from its own text. -/
theorem tokens_read_back :
    (∀ t : Token, t.position.line ≤ maxWord → t.position.column ≤ maxWord →
      (t.kind.IsFinite → t.kind.DigitsReadBack → readToken (tokenText t) = some t) ∧
      ∀ x y, t.kind = .number x → readNumber (numberText x) = some y →
        readToken (tokenText t) = some { t with kind := .number y }) ∧
    (∀ t : Token, ¬ t.kind.IsFinite → readToken (tokenText t) = none) ∧
    (∀ t : Token, '\n' ∉ (tokenText t).toList) ∧
    (∀ source, (CommandLine.tokenListing source).1.toList.splitOn '\n' =
      (Scanner.ofSource source).remainder.tokens.map (fun t => (tokenText t).toList) ++ [[]]) ∧
    ∀ text (t : Token), readToken text = some t → t.kind.DigitsReadBack →
      readToken (tokenText t) = some t := by
  have hback : ∀ t : Token, t.position.line ≤ maxWord → t.position.column ≤ maxWord →
      t.kind.IsFinite → t.kind.DigitsReadBack → readToken (tokenText t) = some t := by
    intro t hline hcolumn hfinite hdigits
    obtain ⟨tree, hspells, hkind⟩ := exists_spells_kind hfinite hdigits
    exact readToken_of_kind? hspells hkind hline hcolumn
  refine ⟨fun t hline hcolumn => ⟨hback t hline hcolumn, ?_⟩, ?_, oneLine_tokenText,
    fun source => splitOn_join_tokenText _, ?_⟩
  -- The digits are read as another number, and the rest as it was.
  · intro x y hx hread
    obtain ⟨tree, hspells, hkind⟩ := exists_spells_number hread
    exact readToken_of_kind? (hx ▸ hspells) hkind hline hcolumn
  -- What is written as `null` is no number, and without it no kind.
  · intro t hinfinite
    obtain ⟨x, hkind, hx⟩ : ∃ x, t.kind = .number x ∧ x.isFinite = false := by
      simpa [Token.Kind.IsFinite] using hinfinite
    obtain ⟨tree, hspells, hnone⟩ := exists_spells_null hx
    rw [readToken_tokenText (hkind ▸ hspells), ofParts?, hnone]
    rfl
  -- A token that has been read satisfies what is demanded above.
  · intro text t hread hdigits
    obtain ⟨hfinite, hline, hcolumn⟩ := bounds_of_readToken hread
    exact hback t hline hcolumn hfinite hdigits

/-- A number with a lexeme that has to be escaped, at the last place that there is. -/
def awkwardToken : Token :=
  ⟨.number (.ofDecimal ⟨15, -1⟩), "\"\\\n\x01é", ⟨maxWord, maxWord⟩⟩

/-- This token is read back, and so is one from a text with spaces, in which the parts stand in an
    array. -/
theorem awkwardToken_read_back :
    readToken (tokenText awkwardToken) = some awkwardToken ∧
      ∃ t, readToken "[ \x7b\"Eof\": null\x7d, \"\\u0041\", 2, 1 ]" = some t ∧
        readToken (tokenText t) = some t := by
  have hdigits : awkwardToken.kind.DigitsReadBack := by
    rintro x hx -
    obtain rfl := Token.Kind.number.inj hx
    decide +kernel
  have hfinite : awkwardToken.kind.IsFinite := by
    rintro x hx
    obtain rfl := Token.Kind.number.inj hx
    decide +kernel
  have hread : readToken "[ \x7b\"Eof\": null\x7d, \"\\u0041\", 2, 1 ]" =
      some ⟨.endOfInput, "A", ⟨2, 1⟩⟩ := by
    decide +kernel
  exact ⟨(tokens_read_back.1 _ (Nat.le_refl _) (Nat.le_refl _)).1 hfinite hdigits, _, hread,
    tokens_read_back.2.2.2.2 _ _ hread nofun⟩

end ScopeLisp
