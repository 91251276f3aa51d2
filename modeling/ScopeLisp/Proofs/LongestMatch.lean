import ScopeLisp.Proofs.TokenPatterns

/-!
# Longest matches

A text starts with a word of at most one pattern, so the order in which the classes of tokens are
tried does not matter. What a scanner takes off its text is the longest match of that class.

## Key results

- `Lexeme.scan?_of_mem`: a text that starts with a word of a pattern has a lexeme of that class, at
  least as long as the word
- `Lexeme.mem_of_scan?`: a lexeme is a word of the pattern of its class
- `Lexeme.findSome?_finders`: the classes can be tried in any order
- `Scanner.nextToken_takes_longest_match`: what a scanner does where there is text left
-/

namespace ScopeLisp

namespace Lexeme

open Pattern Token

variable {text w : List Char} {l : Lexeme}

/-! ## The order of the classes -/

/-- How lexemes are found, in the order in which the classes are tried. -/
def finders : List (List Char → Option Lexeme) :=
  [blank?, string?, number?, mark?, symbol?]

/-- What any of the classes finds is the lexeme of the text. -/
private theorem scan?_of_mem_finders {find : List Char → Option Lexeme} (hfind : find ∈ finders)
    (h : find text = some l) : scan? text = some l := by
  simp only [finders, List.mem_cons, List.not_mem_nil, or_false] at hfind
  -- None of them finds anything in an empty text.
  cases text with
  | nil => rcases hfind with rfl | rfl | rfl | rfl | rfl <;> cases h
  | cons c rest =>
    rcases hfind with rfl | rfl | rfl | rfl | rfl
    · simp [scan?, h]
    · exact scan?_of_string? h
    · exact scan?_of_number? h
    · exact scan?_of_mark? h
    · exact scan?_of_symbol? h

/-- The lexeme of a text is found by one of the classes. -/
private theorem exists_finder_of_scan? (h : scan? text = some l) :
    ∃ find ∈ finders, find text = some l := by
  simp only [scan?, Option.orElse_eq_orElse, Option.orElse_eq_or, Option.or_eq_some_iff] at h
  rcases h with h | ⟨-, h | ⟨-, h | ⟨-, h | ⟨-, h⟩⟩⟩⟩
  · exact ⟨blank?, by simp [finders], h⟩
  · exact ⟨string?, by simp [finders], h⟩
  · exact ⟨number?, by simp [finders], h⟩
  · exact ⟨mark?, by simp [finders], h⟩
  · exact ⟨symbol?, by simp [finders], h⟩

/-- The classes can be tried in any order. -/
theorem findSome?_finders {order : List (List Char → Option Lexeme)} (horder : order.Perm finders)
    (text : List Char) : order.findSome? (· text) = scan? text := by
  -- Whichever class finds something first, it is the lexeme of the text.
  cases hfound : order.findSome? (· text) with
  | some l =>
    obtain ⟨find, hfind, hl⟩ := List.exists_of_findSome?_eq_some hfound
    exact (scan?_of_mem_finders (horder.mem_iff.1 hfind) hl).symm
  | none =>
    cases hscan : scan? text with
    | none => rfl
    | some l =>
      obtain ⟨find, hfind, hl⟩ := exists_finder_of_scan? hscan
      have hnone := List.findSome?_eq_none_iff.1 hfound find (horder.mem_iff.2 hfind)
      rw [hl] at hnone
      cases hnone

/-! ## All classes -/

/-- A lexeme is a word of the pattern of its class. -/
theorem mem_of_scan? (h : scan? text = some l) :
    ∃ c : Token.Class, l.kind.class? = some c ∧ l.text ∈ c.pattern := by
  simp only [scan?, Option.orElse_eq_orElse, Option.orElse_eq_or, Option.or_eq_some_iff] at h
  -- One case for each class.
  rcases h with h | ⟨-, h | ⟨-, h | ⟨-, h | ⟨-, h⟩⟩⟩⟩
  · exact ⟨.blank, by rw [kind_of_blank? h]; rfl, mem_of_blank? h⟩
  · obtain ⟨content, hkind⟩ := kind_of_string? h
    exact ⟨.string, by rw [hkind]; rfl, mem_of_string? h⟩
  · obtain ⟨⟨n, rest⟩, hscan, rfl⟩ := Option.map_eq_some_iff.1 h
    exact ⟨.number, rfl, Numeral.mem_pattern_iff.2 ⟨n, Numeral.isWritten_of_scan? hscan, rfl⟩⟩
  · unfold mark? at h
    split at h
    · obtain rfl := Option.some.inj h
      exact ⟨.leftParen, rfl, '(', rfl, rfl⟩
    · obtain rfl := Option.some.inj h
      exact ⟨.rightParen, rfl, ')', rfl, rfl⟩
    · obtain rfl := Option.some.inj h
      exact ⟨.quote, rfl, '\'', rfl, rfl⟩
    · cases h
  · exact ⟨.symbol, by rw [kind_of_symbol? h]; rfl, mem_of_symbol? h⟩

/-- A text that starts with a word of a pattern has a lexeme of that class, at least as long as the
    word. -/
theorem scan?_of_mem {c : Token.Class} (h : w ∈ c.pattern) (rest : List Char) :
    ∃ l, scan? (w ++ rest) = some l ∧ l.kind.class? = some c ∧ w.length ≤ l.text.length := by
  -- The word is given back to the function of its class, which takes it and perhaps more.
  cases c with
  | blank =>
    obtain ⟨item, hitem, items, hitems, rfl⟩ := Language.mem_mul.1 h
    have hle := length_le_of_mem_kstar (append_mem_kstar hitem hitems) rest
    have hpos : 0 < item.length := List.length_pos_iff.2 (ne_nil_of_blankItem hitem)
    rw [List.length_append] at hle
    have hrun : (blankRun false (item ++ items ++ rest)).1 ≠ [] :=
      List.ne_nil_of_length_pos (by omega)
    refine ⟨_, scan?_of_blankRun hrun, rfl, ?_⟩
    rw [List.length_append]
    exact hle
  | string =>
    obtain ⟨content, hcontent, rfl⟩ := mem_string_iff.1 h
    have hstring := string?_of_mem hcontent rest
    rw [List.append_cons] at hstring
    exact ⟨_, scan?_of_string? hstring, rfl, Nat.le_refl _⟩
  | number =>
    obtain ⟨n, hn, rfl⟩ := Numeral.mem_pattern_iff.1 h
    obtain ⟨n', rest', hscan, hle⟩ := Numeral.scan?_text_append hn rest
    have hnumber : number? (n.text ++ rest) = some ⟨.number n'.value, n'.text, rest'⟩ :=
      Option.map_eq_some_iff.2 ⟨_, hscan, rfl⟩
    exact ⟨_, scan?_of_mem_finders (by simp [finders]) hnumber, rfl, hle⟩
  | leftParen =>
    obtain ⟨_, rfl, rfl⟩ := h
    exact ⟨_, scan?_of_mark? rfl, rfl, Nat.le_refl _⟩
  | rightParen =>
    obtain ⟨_, rfl, rfl⟩ := h
    exact ⟨_, scan?_of_mark? rfl, rfl, Nat.le_refl _⟩
  | quote =>
    obtain ⟨_, rfl, rfl⟩ := h
    exact ⟨_, scan?_of_mark? rfl, rfl, Nat.le_refl _⟩
  | symbol =>
    obtain ⟨l, hl, hle⟩ := symbol?_of_mem h rest
    exact ⟨l, scan?_of_mem_finders (by simp [finders]) hl, by rw [kind_of_symbol? hl]; rfl, hle⟩

/-- At most one class matches. -/
theorem class_unique {c c' : Token.Class} (h : c.Matches text) (h' : c'.Matches text) : c = c' := by
  obtain ⟨w, hw, -, rest, rfl⟩ := h
  obtain ⟨w', hw', -, rest', happ⟩ := h'
  obtain ⟨l, hl, hclass, -⟩ := scan?_of_mem hw rest
  obtain ⟨l', hl', hclass', -⟩ := scan?_of_mem hw' rest'
  -- Both matches lead to the lexeme of the text, and that is of one class.
  rw [happ, hl] at hl'
  obtain rfl := Option.some.inj hl'
  exact Option.some.inj (hclass.symm.trans hclass')

/-- The lexeme of a text is the longest match of its class. -/
theorem isLongest_of_scan? (h : scan? text = some l) :
    ∃ c : Token.Class, l.kind.class? = some c ∧ c.IsLongest text l.text := by
  obtain ⟨c, hclass, hmem⟩ := mem_of_scan? h
  obtain ⟨happ, hne⟩ := splits_of_scan? h
  refine ⟨c, hclass, hmem, hne, ⟨l.rest, happ⟩, ?_⟩
  rintro w hw ⟨rest, rfl⟩
  obtain ⟨l', hl', -, hle⟩ := scan?_of_mem hw rest
  obtain rfl := Option.some.inj (h.symm.trans hl')
  exact hle

/-- A text has a lexeme exactly when some class matches it. -/
private theorem exists_scan?_iff :
    (∃ l, scan? text = some l) ↔ ∃ c : Token.Class, c.Matches text := by
  constructor
  · rintro ⟨l, hl⟩
    obtain ⟨c, -, hlongest⟩ := isLongest_of_scan? hl
    exact ⟨c, l.text, hlongest.mem, hlongest.ne_nil, hlongest.begins⟩
  · rintro ⟨c, w, hw, -, rest, rfl⟩
    obtain ⟨l, hl, -⟩ := scan?_of_mem hw rest
    exact ⟨l, hl⟩

/-- The text opens a string and does not close it. -/
def Unterminated (text : List Char) : Prop :=
  ∃ body, text = '"' :: body ∧ '"' ∉ body

/-- Nothing can be taken off a text at a quote exactly when the quote is the last one. -/
theorem scan?_quote_eq_none_iff {body : List Char} :
    scan? ('"' :: body) = none ↔ '"' ∉ body := by
  constructor
  · intro hnone hmem
    obtain ⟨content, rest, rfl, hcontent⟩ := List.eq_append_cons_of_mem hmem
    have hscan := scan?_of_string? (string?_of_mem hcontent rest)
    rw [hnone] at hscan
    cases hscan
  · intro h
    -- Without a closing quote the search runs to the end of the text.
    have hchars : ∀ c ∈ body, (decide (c ≠ '"')) = true :=
      fun c hc => decide_eq_true fun hquote => h (hquote ▸ hc)
    have hdrop : body.dropWhile (· ≠ '"') = [] := (takeWhile_of_forall hchars).2
    have hstring : string? ('"' :: body) = none := by
      rw [string?, hdrop]
    have hblank : blank? ('"' :: body) = none :=
      blank?_eq_none_of_head (by decide) (by decide) (by decide)
    have hnumber : number? ('"' :: body) = none := number?_eq_none_of_head (by decide) (by decide)
    have hsymbol : symbol? ('"' :: body) = none := rfl
    simp [scan?, hblank, hstring, hnumber, hsymbol, mark?]

/-- A lexeme on its own is scanned as the same lexeme. -/
theorem scan?_text (h : scan? text = some l) : scan? l.text = some ⟨l.kind, l.text, []⟩ := by
  obtain ⟨happ, hne⟩ := splits_of_scan? h
  have hwhole :
      scan? (l.text ++ l.rest) = some ((⟨l.kind, l.text, []⟩ : Lexeme).extend l.rest) := by
    rw [happ, h]
    rfl
  exact scan?_of_append hne hwhole

/-- A string is taken from a quote to the next one. -/
theorem text_of_string {content : String} (h : scan? text = some l)
    (hkind : l.kind = .string content) :
    '"' ∉ content.toList ∧ l.text = '"' :: (content.toList ++ ['"']) := by
  obtain ⟨c, hclass, hmem⟩ := mem_of_scan? h
  rw [hkind] at hclass
  obtain rfl := Option.some.inj hclass
  obtain ⟨content', hquote, htext⟩ := mem_string_iff.1 hmem
  have halone := scan?_text h
  rw [htext, scan?_of_string? (string?_of_mem hquote [])] at halone
  -- The token carries what stands between the quotes.
  have hcontent : Kind.string (String.ofList content') = .string content := by
    rw [← hkind]
    exact congrArg Lexeme.kind (Option.some.inj halone)
  rw [← Kind.string.inj hcontent, String.toList_ofList]
  exact ⟨hquote, htext⟩

end Lexeme

/-! ## Scanners -/

namespace Scanner

open Token

/-- A lexeme on its own is scanned as one token of its kind, and then comes the end. -/
theorem scanTokens_lexeme {text : List Char} {l : Lexeme} (h : Lexeme.scan? text = some l) :
    (ofSource (String.ofList l.text)).scanTokens.1 = .ok
      [⟨l.kind, String.ofList l.text, .start⟩, ⟨.endOfInput, "", .after l.text⟩] := by
  have hrest : (ofSource (String.ofList l.text)).rest = l.text := String.toList_ofList
  have hscan : Lexeme.scan? (ofSource (String.ofList l.text)).rest = some ⟨l.kind, l.text, []⟩ := by
    rw [hrest]
    exact Lexeme.scan?_text h
  -- One step takes the lexeme, and the next one meets the end.
  refine scanTokens_fst_eq_ok_iff.2 ?_
  rw [remainder, takeUpTo_succ_of_scan? _ rfl hscan]
  dsimp only
  rw [takeUpTo_succ_of_nil _ rfl rfl]
  refine ⟨rfl, ?_⟩
  rw [← Position.advance_start l.text]
  rfl

/-- What a scanner does where there is text left. At most one class of tokens matches the text, so
    that the order in which the classes are tried does not matter. A token is returned exactly when
    one matches; it is of that class, and its lexeme is the longest match, which for a string ends
    at the next quote. On its own, the lexeme is scanned as that kind of token again. Where nothing
    matches, the fault is a string that is never closed or else the first character. -/
theorem nextToken_takes_longest_match (s : Scanner) (hs : s.rest ≠ []) :
    (∀ c c' : Token.Class, c.Matches s.rest → c'.Matches s.rest → c = c') ∧
    (∀ order : List (List Char → Option Lexeme), order.Perm Lexeme.finders →
      order.findSome? (· s.rest) = Lexeme.scan? s.rest) ∧
    ((∃ token, s.nextToken.1 = .ok token) ↔ ∃ c : Token.Class, c.Matches s.rest) ∧
    (∀ token, s.nextToken.1 = .ok token →
      (∃ c : Token.Class, token.kind.class? = some c ∧ c.IsLongest s.rest token.lexeme.toList) ∧
      (∀ content, token.kind = .string content → '"' ∉ content.toList ∧
        token.lexeme.toList = '"' :: (content.toList ++ ['"'])) ∧
      (ofSource token.lexeme).scanTokens.1 = .ok [⟨token.kind, token.lexeme, .start⟩,
        ⟨.endOfInput, "", .after token.lexeme.toList⟩]) ∧
    (s.nextToken.1 = .error ⟨s.position, .unterminatedString⟩ ↔ Lexeme.Unterminated s.rest) ∧
    ∀ fault, s.nextToken.1 = .error fault → fault = ⟨s.position, .unterminatedString⟩ ∨
      fault = ⟨s.position, .unexpectedCharacter (s.rest.head hs)⟩ := by
  refine ⟨fun c c' => Lexeme.class_unique, ?_⟩
  refine ⟨fun order horder => Lexeme.findSome?_finders horder s.rest, ?_⟩
  rw [← Lexeme.exists_scan?_iff]
  obtain ⟨hnil, -⟩ | ⟨l, hl, hnext⟩ | ⟨c, body, hrest, hl, hnext⟩ := s.nextToken_cases
  · exact absurd hnil hs
  · -- A lexeme is found, and with it the token.
    have hlexeme : (String.ofList l.text).toList = l.text := String.toList_ofList
    rw [hnext]
    refine ⟨⟨fun _ => ⟨l, hl⟩, fun _ => ⟨_, rfl⟩⟩, ?_, ⟨nofun, ?_⟩, nofun⟩
    · rintro _ ⟨⟩
      rw [hlexeme]
      exact ⟨Lexeme.isLongest_of_scan? hl, fun content => Lexeme.text_of_string hl,
        scanTokens_lexeme hl⟩
    · rintro ⟨body, hrest, hquote⟩
      rw [hrest, Lexeme.scan?_quote_eq_none_iff.2 hquote] at hl
      cases hl
  · -- No lexeme is found, and the first character tells why.
    have hhead : s.rest.head hs = c := by simp [hrest]
    rw [hnext, hhead, faultAt]
    rw [hrest] at hl ⊢
    refine ⟨⟨nofun, fun ⟨l, hl'⟩ => absurd (hl.symm.trans hl') nofun⟩, nofun, ?_, ?_⟩
    · by_cases hc : c = '"'
      · subst hc
        exact ⟨fun _ => ⟨body, rfl, Lexeme.scan?_quote_eq_none_iff.1 hl⟩, fun _ => rfl⟩
      · rw [if_neg hc]
        refine ⟨fun h => by simp at h, ?_⟩
        rintro ⟨body', heq, -⟩
        exact absurd (List.cons.inj heq).1 hc
    · rintro _ ⟨⟩
      by_cases hc : c = '"'
      · exact .inl (by rw [if_pos hc])
      · exact .inr (by rw [if_neg hc])

/-- The point belongs to the number even without digits behind it, the mark of an exponent does
    not. -/
theorem nextToken_takes_longest_match_point :
    (ofSource "1.e+").rest ≠ [] ∧ ∃ token, (ofSource "1.e+").nextToken.1 = .ok token ∧
      token.lexeme = "1." ∧ ∃ c : Token.Class, token.kind.class? = some c ∧
        c.IsLongest ['1', '.', 'e', '+'] ['1', '.'] := by
  have hs : (ofSource "1.e+").rest ≠ [] := by decide
  obtain ⟨-, -, -, htoken, -⟩ := nextToken_takes_longest_match (ofSource "1.e+") hs
  obtain ⟨hlongest, -⟩ := htoken _ rfl
  exact ⟨hs, _, rfl, rfl, hlongest⟩

end Scanner

end ScopeLisp
