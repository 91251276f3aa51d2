import ScopeLisp.Proofs.Decimals

/-!
# Atoms and their lexemes

The first character of a lexeme says which class it belongs to, so a text in which one class finds
a lexeme has that lexeme, whatever the order in which the classes are tried. Hence atoms that are
written in their class are scanned as what they are; and whatever is scanned as an atom could have
been written.

## Key results

- `Lexeme.scan?_of_symbol?` and its like: what one class finds is the lexeme of the text
- `Lexeme.scan?_symbol`, `Lexeme.scan?_string`, `Lexeme.scan?_number`: atoms are scanned as they
  were written
- `Lexeme.legible_of_scan?`: what is scanned could have been written
-/

namespace ScopeLisp

/-! ## First characters -/

/-- No blank character is between a space and the second half of the first 256 code points. -/
theorem Text.isBlank_eq_false {c : Char} (h : 32 < c.toNat) (h' : c.toNat < 128) :
    isBlank c = false := by
  rw [Bool.eq_false_iff]
  intro hblank
  obtain ⟨r, hr, hlow, hhigh⟩ := (whiteSpace.covers_iff c).1 hblank
  simp only [whiteSpace, List.mem_cons, List.not_mem_nil, or_false] at hr
  -- Each range of blank characters lies outside these bounds.
  rcases hr with rfl | rfl | rfl | rfl | rfl | rfl | rfl | rfl | rfl | rfl <;> omega

namespace Lexeme

variable {c : Char} {rest text : List Char} {l : Lexeme}

private theorem toNat_of_isDigit (h : c.isDigit = true) : 48 ≤ c.toNat ∧ c.toNat ≤ 57 := by
  simpa [Char.isDigit, UInt32.le_iff_toNat_le] using h

/-- Bounds for the code points that a name can start with. -/
private theorem toNat_of_isNameStart (h : isNameStart c = true) : 65 ≤ c.toNat ∧ c.toNat ≤ 122 := by
  simp only [isNameStart, Bool.or_eq_true, decide_eq_true_eq] at h
  rcases h with h | rfl
  · have hranges : (decide (65 ≤ c.val ∧ c.val ≤ 90) || (97 ≤ c.val && c.val ≤ 122)) = true := h
    have hletter : (65 ≤ c.toNat ∧ c.toNat ≤ 90) ∨ (97 ≤ c.toNat ∧ c.toNat ≤ 122) := by
      simpa [UInt32.le_iff_toNat_le] using hranges
    omega
  · decide

/-- A blank lexeme starts with a blank character or a semicolon. -/
private theorem head_of_blank? (h : blank? (c :: rest) = some l) :
    Text.isBlank c = true ∨ c = ';' := by
  by_cases hc : (Text.isBlank c || c = ';' || false) = true
  · simpa using hc
  · have hrun : (blankRun false (c :: rest)).1 = [] := by rw [blankRun, if_neg hc]
    rw [blank?_eq_none_iff.2 hrun] at h
    cases h

/-- A string literal starts with a double quote. -/
theorem head_of_string? (h : string? (c :: rest) = some l) : c = '"' := by
  unfold string? at h
  split at h
  · next heq => exact (List.cons.inj heq).1
  · exact nomatch h

/-- A number literal starts with a digit or a point. -/
private theorem head_of_number? (h : number? (c :: rest) = some l) :
    c.isDigit = true ∨ c = '.' := by
  by_cases hdigit : c.isDigit = true
  · exact .inl hdigit
  · by_cases hpoint : c = '.'
    · exact .inr hpoint
    · have hscan : Numeral.scan? (c :: rest) = none := by
        simp [Numeral.scan?, hdigit, Numeral.scanFraction, hpoint]
      rw [number?, hscan] at h
      cases h

/-- A mark is one of the three marks. -/
private theorem head_of_mark? (h : mark? (c :: rest) = some l) : c = '(' ∨ c = ')' ∨ c = '\'' := by
  unfold mark? at h
  split at h
  · next heq => exact .inl (List.cons.inj heq).1
  · next heq => exact .inr (.inl (List.cons.inj heq).1)
  · next heq => exact .inr (.inr (List.cons.inj heq).1)
  · exact nomatch h

/-- A symbol starts with a character of a name or of an operator. -/
private theorem head_of_symbol? (h : symbol? (c :: rest) = some l) :
    isNameStart c = true ∨ isOperatorChar c = true := by
  rw [symbol?] at h
  by_cases hname : isNameStart c = true
  · exact .inl hname
  · by_cases hoperator : isOperatorChar c = true
    · exact .inr hoperator
    · rw [if_neg hname, if_neg hoperator] at h
      cases h

/-! ## What one class finds is the lexeme of the text -/

/-- A printable ASCII character other than a semicolon starts no blank lexeme. -/
theorem blank?_eq_none_of_head (h : 32 < c.toNat) (h' : c.toNat < 128) (hne : c ≠ ';') :
    blank? (c :: rest) = none := by
  cases hblank : blank? (c :: rest) with
  | none => rfl
  | some l =>
    rcases head_of_blank? hblank with hc | hc
    · rw [Text.isBlank_eq_false h h'] at hc
      exact nomatch hc
    · exact absurd hc hne

/-- Only a double quote starts a string literal. -/
private theorem string?_eq_none_of_head (h : c ≠ '"') : string? (c :: rest) = none := by
  cases hstring : string? (c :: rest) with
  | none => rfl
  | some l => exact absurd (head_of_string? hstring) h

/-- Only a digit or a point starts a number literal. -/
theorem number?_eq_none_of_head (h : c.isDigit = false) (h' : c ≠ '.') :
    number? (c :: rest) = none := by
  cases hnumber : number? (c :: rest) with
  | none => rfl
  | some l =>
    rcases head_of_number? hnumber with hc | hc
    · rw [h] at hc
      exact nomatch hc
    · exact absurd hc h'

/-- Other characters than the three marks start no mark. -/
private theorem mark?_eq_none_of_head (h : c ≠ '(') (h' : c ≠ ')') (h'' : c ≠ '\'') :
    mark? (c :: rest) = none := by
  cases hmark : mark? (c :: rest) with
  | none => rfl
  | some l =>
    rcases head_of_mark? hmark with hc | hc | hc
    · exact absurd hc h
    · exact absurd hc h'
    · exact absurd hc h''

/-- A string literal that its class finds is the lexeme of the text. -/
theorem scan?_of_string? (h : string? (c :: rest) = some l) : scan? (c :: rest) = some l := by
  obtain rfl := head_of_string? h
  have hblank : blank? ('"' :: rest) = none :=
    blank?_eq_none_of_head (by decide) (by decide) (by decide)
  simp [scan?, hblank, h]

/-- A number literal that its class finds is the lexeme of the text. -/
theorem scan?_of_number? (h : number? (c :: rest) = some l) : scan? (c :: rest) = some l := by
  -- A number starts with a point or a digit, above white space and below the letters.
  have hbounds : 32 < c.toNat ∧ c.toNat < 58 := by
    rcases head_of_number? h with hdigit | rfl
    · have := toNat_of_isDigit hdigit
      omega
    · decide
  have hquote : c ≠ '"' := by
    rintro rfl
    exact nomatch h
  have hcomment : c ≠ ';' := by
    rintro rfl
    exact absurd hbounds.2 (by decide)
  have hblank : blank? (c :: rest) = none := by
    apply blank?_eq_none_of_head
    · omega
    · omega
    · exact hcomment
  simp [scan?, hblank, string?_eq_none_of_head hquote, h]

/-- A mark that its class finds is the lexeme of the text. -/
theorem scan?_of_mark? (h : mark? (c :: rest) = some l) : scan? (c :: rest) = some l := by
  -- The classes that are tried before find nothing behind any of the three marks.
  have hnone : blank? (c :: rest) = none ∧ string? (c :: rest) = none ∧
      number? (c :: rest) = none := by
    rcases head_of_mark? h with rfl | rfl | rfl <;>
      exact ⟨blank?_eq_none_of_head (by decide) (by decide) (by decide),
        string?_eq_none_of_head (by decide), number?_eq_none_of_head (by decide) (by decide)⟩
  simp [scan?, hnone.1, hnone.2.1, hnone.2.2, h]

/-- A character that starts a symbol starts no lexeme of another class. -/
theorem eq_none_of_symbolStart (rest : List Char)
    (h : isNameStart c = true ∨ isOperatorChar c = true) :
    blank? (c :: rest) = none ∧ string? (c :: rest) = none ∧ number? (c :: rest) = none ∧
      mark? (c :: rest) = none := by
  rcases h with h | h
  · have hbounds := toNat_of_isNameStart h
    have hdigit : c.isDigit = false := by
      rw [Bool.eq_false_iff]
      intro hdigit
      have := toNat_of_isDigit hdigit
      omega
    -- Names start with characters above all those that are special.
    have hne : ∀ d : Char, d.toNat < 65 → c ≠ d := by
      rintro d hd rfl
      omega
    refine ⟨?_, string?_eq_none_of_head (hne _ (by decide)),
      number?_eq_none_of_head hdigit (hne _ (by decide)),
      mark?_eq_none_of_head (hne _ (by decide)) (hne _ (by decide)) (hne _ (by decide))⟩
    apply blank?_eq_none_of_head
    · omega
    · omega
    · exact hne _ (by decide)
  · simp only [isOperatorChar, List.mem_cons, List.not_mem_nil, or_false,
      decide_eq_true_eq] at h
    -- There are ten operator characters, and none of them starts anything else.
    rcases h with rfl | rfl | rfl | rfl | rfl | rfl | rfl | rfl | rfl | rfl <;>
      exact ⟨blank?_eq_none_of_head (by decide) (by decide) (by decide),
        string?_eq_none_of_head (by decide), number?_eq_none_of_head (by decide) (by decide),
        mark?_eq_none_of_head (by decide) (by decide) (by decide)⟩

/-- A symbol that its class finds is the lexeme of the text. -/
theorem scan?_of_symbol? (h : symbol? (c :: rest) = some l) : scan? (c :: rest) = some l := by
  obtain ⟨hblank, hstring, hnumber, hmark⟩ := eq_none_of_symbolStart rest (head_of_symbol? h)
  simp [scan?, hblank, hstring, hnumber, hmark, h]

/-! ## Atoms as they are written -/

/-- A name or an operator, from its first to its last character. -/
def isSymbolName : List Char → Bool
  | [] => false
  | c :: rest => (isNameStart c && rest.all isNameChar) || (c :: rest).all isOperatorChar

/-- No operator character starts a name. -/
theorem isNameStart_of_isOperatorChar (h : isOperatorChar c = true) : isNameStart c = false := by
  simp only [isOperatorChar, List.mem_cons, List.not_mem_nil, or_false, decide_eq_true_eq] at h
  rcases h with rfl | rfl | rfl | rfl | rfl | rfl | rfl | rfl | rfl | rfl <;> decide

/-- A text of characters of one class is one symbol of that class. -/
private theorem symbolOf_of_forall {isChar : Char → Bool} (h : ∀ c ∈ text, isChar c = true) :
    symbolOf isChar text = ⟨.symbol (String.ofList text), text, []⟩ := by
  obtain ⟨htake, hdrop⟩ := takeWhile_of_forall h
  simp only [symbolOf, htake, hdrop]

/-- A name or an operator is scanned as the symbol that it is. -/
theorem scan?_symbol {name : String} (h : isSymbolName name.toList = true) :
    scan? name.toList = some ⟨.symbol name, name.toList, []⟩ := by
  cases hname : name.toList with
  | nil =>
    rw [hname] at h
    exact nomatch h
  | cons c rest =>
    have hofList : String.ofList (c :: rest) = name := by rw [← hname, String.ofList_toList]
    rw [hname] at h
    simp only [isSymbolName, Bool.or_eq_true, Bool.and_eq_true] at h
    apply scan?_of_symbol?
    rw [symbol?]
    -- A name is taken off by the class of names, an operator by that of operators.
    rcases h with ⟨hstart, hrest⟩ | hall
    · have hchars : ∀ d ∈ c :: rest, isNameChar d = true := by
        intro d hd
        rcases List.mem_cons.1 hd with rfl | hd
        · simp [isNameChar, hstart]
        · exact List.all_eq_true.1 hrest d hd
      rw [if_pos hstart, symbolOf_of_forall hchars, hofList]
    · have hchars : ∀ d ∈ c :: rest, isOperatorChar d = true := List.all_eq_true.1 hall
      have hoperator := hchars c List.mem_cons_self
      have hstart : ¬ isNameStart c = true := by
        rw [isNameStart_of_isOperatorChar hoperator]
        exact Bool.false_ne_true
      rw [if_neg hstart, if_pos hoperator, symbolOf_of_forall hchars, hofList]

/-- A text without double quotes, between double quotes, is scanned as that string. -/
theorem scan?_string {content : String} (h : '"' ∉ content.toList) :
    scan? ('"' :: (content.toList ++ ['"'])) =
      some ⟨.string content, '"' :: (content.toList ++ ['"']), []⟩ := by
  have hchars : ∀ c ∈ content.toList, (decide (c ≠ '"')) = true := by
    rintro c hc
    exact decide_eq_true fun hquote => h (hquote ▸ hc)
  -- The content goes exactly up to the closing quote.
  have htake : (content.toList ++ ['"']).takeWhile (· ≠ '"') = content.toList ++ [] :=
    List.takeWhile_append_of_pos hchars
  have hdrop : (content.toList ++ ['"']).dropWhile (· ≠ '"') = ['"'] :=
    List.dropWhile_append_of_pos hchars
  rw [List.append_nil] at htake
  apply scan?_of_string?
  rw [string?, hdrop]
  simp only [htake, String.ofList_toList]

/-- The digits of a finite number are scanned as its absolute value. -/
theorem scan?_number {x : Double} (hx : x.isFinite = true) :
    scan? (x.shortest .up).positional.toList =
      some ⟨.number x.abs, (x.shortest .up).positional.toList, []⟩ := by
  have hnumber : number? (x.shortest .up).positional.toList =
      some ⟨.number x.abs, (x.shortest .up).positional.toList, []⟩ := by
    rw [Decimal.toList_positional, number?, Decimal.scan?_numeral, Option.map_some]
    dsimp only
    rw [Decimal.value_numeral, Double.ofDecimal_shortest .up hx]
  -- No other scanner comes before that of numbers, as the text is not empty.
  cases htext : (x.shortest .up).positional.toList with
  | nil =>
    rw [htext] at hnumber
    exact nomatch hnumber
  | cons c rest =>
    rw [htext] at hnumber
    exact scan?_of_number? hnumber

/-! ## Atoms as they are scanned -/

/-- A string or a symbol that can be written. -/
def Legible : Token.Kind → Prop
  | .string content => '"' ∉ content.toList
  | .symbol name => isSymbolName name.toList = true
  | _ => True

/-- A scanned string contains no double quote, since the first one ends it. -/
private theorem legible_of_string? (h : string? text = some l) : Legible l.kind := by
  unfold string? at h
  split at h
  · next body =>
    split at h
    · obtain rfl := Option.some.inj h
      intro hquote
      rw [String.toList_ofList] at hquote
      -- The content was taken up to the first quote.
      have hne := List.all_eq_true.1 (List.all_takeWhile (l := body)) _ hquote
      exact absurd rfl (of_decide_eq_true hne)
    · exact nomatch h
  · exact nomatch h

/-- A scanned symbol is a name or an operator. -/
theorem legible_of_symbol? (h : symbol? text = some l) : Legible l.kind := by
  cases text with
  | nil => cases h
  | cons c rest =>
    rw [symbol?] at h
    -- The first character decides whether it is a name or an operator.
    split at h
    · next hstart =>
      obtain rfl := Option.some.inj h
      have hname : isNameChar c = true := by simp [isNameChar, hstart]
      have hrest : (rest.takeWhile isNameChar).all isNameChar = true := List.all_takeWhile
      simp [Legible, symbolOf, String.toList_ofList, hname, isSymbolName, hstart, hrest]
    · split at h
      · next hstart =>
        obtain rfl := Option.some.inj h
        have hall : ((c :: rest).takeWhile isOperatorChar).all isOperatorChar = true :=
          List.all_takeWhile
        rw [List.takeWhile_cons, if_pos hstart] at hall
        simp only [Legible, symbolOf, String.toList_ofList, List.takeWhile_cons, if_pos hstart,
          isSymbolName, hall, Bool.or_true]
      · cases h

/-- Strings and symbols that are scanned could have been written. -/
theorem legible_of_scan? (h : scan? text = some l) : Legible l.kind := by
  simp only [scan?, Option.orElse_eq_orElse, Option.orElse_eq_or, Option.or_eq_some_iff] at h
  -- One case for each class, in the order in which they are tried.
  rcases h with h | ⟨-, h | ⟨-, h | ⟨-, h | ⟨-, h⟩⟩⟩⟩
  · rw [kind_of_blank? h]
    trivial
  · exact legible_of_string? h
  · obtain ⟨_, _, rfl⟩ := Option.map_eq_some_iff.1 h
    trivial
  · unfold mark? at h
    split at h
    case h_4 => cases h
    all_goals
      obtain rfl := Option.some.inj h
      trivial
  · exact legible_of_symbol? h

end Lexeme

/-- Whatever stands in a tokenization could have been written. -/
theorem Lexes.legible {text rest : List Char} {ks : List Token.Kind} (h : Lexes text ks rest) :
    ∀ k ∈ ks, Lexeme.Legible k := by
  induction h with
  | done text => exact nofun
  | token hl _ ih =>
    intro k hk
    rcases List.mem_cons.1 hk with rfl | hk
    · exact Lexeme.legible_of_scan? hl
    · exact ih k hk

end ScopeLisp
