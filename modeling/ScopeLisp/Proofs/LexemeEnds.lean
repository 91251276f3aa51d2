import ScopeLisp.Proofs.Grammar
import ScopeLisp.Proofs.Tokenization

/-!
# Where lexemes end

Every class of lexemes takes the longest one off a text, so more text behind a lexeme could make
it longer. `Lexeme.Breaks more` says that it does not: `more` is empty or starts with a character
that goes on with neither a name nor an operator nor a numeral. White space, parentheses and quote
marks are such characters. Only a blank run can still grow, and it merges with the blank
characters that follow it.

## Key results

- `Lexeme.scan?_append`: a lexeme stays the same when text that breaks it follows
- `Lexes.append_text`: so does a tokenization
- `Lexeme.blankRun_append_newline`: a blank run merges with a line feed and the run behind it
-/

namespace ScopeLisp

/-- A run ends where it did before if it ended inside the text, or if what follows breaks it. -/
theorem takeWhile_append_of_break {p : Char → Bool} (text more : List Char)
    (h : text.dropWhile p = [] → ∀ c, more.head? = some c → p c = false) :
    (text ++ more).takeWhile p = text.takeWhile p ∧
      (text ++ more).dropWhile p = text.dropWhile p ++ more := by
  induction text with
  | nil =>
    cases more with
    | nil => exact ⟨rfl, rfl⟩
    | cons c more => simp [h rfl c rfl]
  | cons c text ih =>
    -- If the run ends at `c`, nothing behind it matters.
    by_cases hc : p c = true
    · rw [List.dropWhile_cons, if_pos hc] at h
      simp [hc, ih h]
    · simp [hc]

/-- A run takes a whole text if all of its characters belong to it. -/
theorem takeWhile_of_forall {p : Char → Bool} {text : List Char} (h : ∀ c ∈ text, p c = true) :
    text.takeWhile p = text ∧ text.dropWhile p = [] := by
  have htake : (text ++ []).takeWhile p = text ++ [] := List.takeWhile_append_of_pos h
  have hdrop : (text ++ []).dropWhile p = [] := List.dropWhile_append_of_pos h
  rw [List.append_nil] at htake hdrop
  exact ⟨htake, hdrop⟩

namespace Lexeme

/-- Text that does not make a lexeme in front of it longer, white space aside. -/
def Breaks (more : List Char) : Prop :=
  ∀ c, more.head? = some c → isNameChar c = false ∧ isOperatorChar c = false ∧ c ≠ '.'

variable {more : List Char}

/-- The end of the text breaks every lexeme. -/
theorem breaks_nil : Breaks [] := nofun

/-- A line feed breaks every lexeme. -/
theorem breaks_newline (more : List Char) : Breaks ('\n' :: more) := by
  intro c hc
  obtain rfl := Option.some.inj hc
  decide

/-- A closing parenthesis breaks every lexeme. -/
theorem breaks_rightParen (more : List Char) : Breaks (')' :: more) := by
  intro c hc
  obtain rfl := Option.some.inj hc
  decide

/-- What breaks lexemes does not start with a digit. -/
private theorem Breaks.isDigit (h : Breaks more) (c : Char) (hc : more.head? = some c) :
    c.isDigit = false := by
  obtain ⟨hname, -, -⟩ := h c hc
  simp only [isNameChar, Bool.or_eq_false_iff] at hname
  exact hname.1.2

/-- What breaks lexemes does not start with the mark of an exponent. -/
private theorem Breaks.ne_exponentMark (h : Breaks more) (c : Char) (hc : more.head? = some c) :
    ¬ (c = 'e' ∨ c = 'E') := by
  obtain ⟨hname, -, -⟩ := h c hc
  rintro (rfl | rfl)
  · exact nomatch hname
  · exact nomatch hname

/-! ## Numerals -/

/-- A fraction stays the same when text that breaks it follows. -/
private theorem scanFraction_append_text (h : Breaks more) (text : List Char) :
    Numeral.scanFraction (text ++ more) =
      ((Numeral.scanFraction text).1, (Numeral.scanFraction text).2 ++ more) := by
  cases text with
  | nil =>
    cases more with
    | nil => rfl
    | cons c more =>
      -- What breaks the digits is no point.
      have hc := (h c rfl).2.2
      simp [Numeral.scanFraction, hc]
  | cons c text =>
    have hdigits := takeWhile_append_of_break text more fun _ => h.isDigit
    by_cases hc : c = '.'
    · subst hc
      simp only [List.cons_append, Numeral.scanFraction, hdigits.1, hdigits.2]
    · simp [Numeral.scanFraction, hc]

/-- An exponent stays the same when text that breaks it follows. -/
private theorem scanExponent_append_text (h : Breaks more) (text : List Char) :
    Numeral.scanExponent (text ++ more) =
      ((Numeral.scanExponent text).1, (Numeral.scanExponent text).2 ++ more) := by
  cases text with
  | nil =>
    cases more with
    | nil => rfl
    | cons c more =>
      -- What breaks the digits is no mark of an exponent.
      have hc := h.ne_exponentMark c rfl
      simp [Numeral.scanExponent, hc]
  | cons c text =>
    have hdigits := takeWhile_append_of_break text more fun _ => h.isDigit
    simp only [List.cons_append, Numeral.scanExponent, hdigits.1, hdigits.2]
    split
    · rfl
    · rfl

/-- A numeral stays the same when text that breaks it follows. -/
private theorem numeral_scan?_append (h : Breaks more) (text : List Char) :
    Numeral.scan? (text ++ more) =
      (Numeral.scan? text).map fun (n, rest) => (n, rest ++ more) := by
  have hdigits := takeWhile_append_of_break text more fun _ => h.isDigit
  simp only [Numeral.scan?, hdigits.1, hdigits.2, scanFraction_append_text h,
    scanExponent_append_text h]
  split
  · rfl
  · rfl

/-! ## Other classes -/

/-- The lexeme at the start of a text that goes on. -/
def extend (more : List Char) (l : Lexeme) : Lexeme :=
  { l with rest := l.rest ++ more }

/-- A number literal stays the same when text that breaks it follows. -/
private theorem number?_append (h : Breaks more) (text : List Char) :
    number? (text ++ more) = (number? text).map (extend more) := by
  unfold number?
  rw [numeral_scan?_append h]
  cases Numeral.scan? text with
  | none => rfl
  | some scanned => rfl

/-- A mark is one character, so no text behind it matters. -/
theorem mark?_append {text : List Char} (hne : text ≠ []) :
    mark? (text ++ more) = (mark? text).map (extend more) := by
  obtain ⟨c, text, rfl⟩ := List.exists_cons_of_ne_nil hne
  rw [List.cons_append]
  unfold mark?
  split
  · next heq => obtain ⟨rfl, rfl⟩ := List.cons.inj heq; rfl
  · next heq => obtain ⟨rfl, rfl⟩ := List.cons.inj heq; rfl
  · next heq => obtain ⟨rfl, rfl⟩ := List.cons.inj heq; rfl
  -- If the first character is no mark, it is none with the text behind it either.
  · next h₁ h₂ h₃ =>
    split
    · next heq => exact absurd (by rw [(List.cons.inj heq).1]) (h₁ (text ++ more))
    · next heq => exact absurd (by rw [(List.cons.inj heq).1]) (h₂ (text ++ more))
    · next heq => exact absurd (by rw [(List.cons.inj heq).1]) (h₃ (text ++ more))
    · rfl

/-- A symbol stays the same when its class does not go on behind it. -/
theorem symbolOf_append {isChar : Char → Bool} (h : ∀ c, more.head? = some c → isChar c = false)
    (text : List Char) : symbolOf isChar (text ++ more) = (symbolOf isChar text).extend more := by
  have hname := takeWhile_append_of_break text more fun _ => h
  simp only [symbolOf, extend, hname.1, hname.2]

/-- A name or an operator stays the same when text that breaks it follows. -/
private theorem symbol?_append (h : Breaks more) {text : List Char} (hne : text ≠ []) :
    symbol? (text ++ more) = (symbol? text).map (extend more) := by
  obtain ⟨c, text, rfl⟩ := List.exists_cons_of_ne_nil hne
  have hname := symbolOf_append (fun c hc => (h c hc).1) (c :: text)
  have hoperator := symbolOf_append (fun c hc => (h c hc).2.1) (c :: text)
  rw [List.cons_append] at hname hoperator ⊢
  -- The first character is the same, and it alone decides between the two classes.
  simp only [symbol?, hname, hoperator]
  split
  · rfl
  · split
    · rfl
    · rfl

/-- A string ends at its closing quote, whatever follows. -/
theorem string?_append {text : List Char} {l : Lexeme} (h : string? text = some l) :
    string? (text ++ more) = some (l.extend more) := by
  unfold string? at h
  split at h
  · next body =>
    split at h
    · next c rest hdrop =>
      obtain rfl := Option.some.inj h
      -- The run ended inside the text, at the quote.
      have hcontent := takeWhile_append_of_break (p := (· ≠ '"')) body more
        fun hnil => absurd (hdrop.symm.trans hnil) (List.cons_ne_nil c rest)
      simp only [List.cons_append, string?, hcontent.1, hcontent.2, hdrop]
      rfl
    · exact nomatch h
  · exact nomatch h

/-- Nothing but a string starts with a double quote. -/
theorem head?_ne_quote_of_scan? {text : List Char} {l : Lexeme}
    (h : number? text = some l ∨ mark? text = some l ∨ symbol? text = some l) :
    text.head? ≠ some '"' := by
  intro hquote
  obtain ⟨body, rfl⟩ : ∃ body, text = '"' :: body := by
    cases text with
    | nil => exact nomatch hquote
    | cons c body => exact ⟨body, by rw [Option.some.inj hquote]⟩
  rcases h with h | h | h
  · exact nomatch h
  · exact nomatch h
  · exact nomatch h

/-- A text that does not start with a double quote gets no string from more text. -/
private theorem string?_append_eq_none {text : List Char} (hne : text ≠ [])
    (h : text.head? ≠ some '"') : string? (text ++ more) = none := by
  obtain ⟨c, text, rfl⟩ := List.exists_cons_of_ne_nil hne
  unfold string?
  split
  · next heq => exact absurd (congrArg List.head? heq) h
  · rfl

/-! ## White space -/

/-- A blank run that ended inside the text ends where it did before. -/
theorem blankRun_append_of_ne_nil {inComment : Bool} {text : List Char} (more : List Char)
    (h : (blankRun inComment text).2 ≠ []) :
    blankRun inComment (text ++ more) =
      ((blankRun inComment text).1, (blankRun inComment text).2 ++ more) := by
  induction text generalizing inComment with
  | nil => exact absurd rfl h
  | cons c text ih =>
    rw [List.cons_append]
    by_cases hc : (Text.isBlank c || c = ';' || inComment) = true
    · simp only [blankRun, if_pos hc] at h ⊢
      rw [ih h]
    · simp only [blankRun, if_neg hc]
      rfl

/-- A blank run to the end of a text merges with a line feed and the blank run behind it: the line
    feed is blank and ends a comment. -/
theorem blankRun_append_newline {inComment : Bool} {text : List Char} (more : List Char)
    (h : (blankRun inComment text).2 = []) :
    blankRun inComment (text ++ '\n' :: more) =
      (text ++ '\n' :: (blankRun false more).1, (blankRun false more).2) := by
  induction text generalizing inComment with
  | nil =>
    -- The line feed belongs to the run, whether it ends a comment or not.
    have hblank : (Text.isBlank '\n' || '\n' = ';' || inComment) = true := by
      rw [show Text.isBlank '\n' = true from by decide]
      rfl
    rw [List.nil_append, blankRun, if_pos hblank]
    rfl
  | cons c text ih =>
    rw [List.cons_append]
    by_cases hc : (Text.isBlank c || c = ';' || inComment) = true
    · simp only [blankRun, if_pos hc] at h ⊢
      rw [ih h]
      rfl
    · rw [blankRun, if_neg hc] at h
      exact absurd h (List.cons_ne_nil c text)

/-- There is no blank lexeme exactly where the blank run is empty. -/
theorem blank?_eq_none_iff {text : List Char} :
    blank? text = none ↔ (blankRun false text).1 = [] := by
  unfold blank?
  split
  · next h => simp [h]
  · next hne h => simpa [h] using hne

/-- A blank run at the start of a text is its first lexeme. -/
theorem scan?_of_blankRun {text : List Char} (h : (blankRun false text).1 ≠ []) :
    scan? text = some ⟨.blank, (blankRun false text).1, (blankRun false text).2⟩ := by
  have hblank : blank? text = some ⟨.blank, (blankRun false text).1, (blankRun false text).2⟩ := by
    unfold blank?
    split
    · next hrun =>
      rw [hrun] at h
      exact absurd rfl h
    · next hrun => rw [hrun]
  -- White space is tried before anything else.
  unfold scan?
  rw [hblank]
  rfl

/-- A blank lexeme is the blank run at the start of the text. -/
theorem rest_of_blank {text : List Char} {l : Lexeme} (h : scan? text = some l)
    (hkind : l.kind = .blank) : l.rest = (blankRun false text).2 := by
  obtain ⟨hblank, -⟩ | ⟨-, hne, -⟩ := scan?_cases h
  · unfold blank? at hblank
    split at hblank
    · exact nomatch hblank
    · next hrun => rw [hrun, ← Option.some.inj hblank]
  · exact absurd hkind hne

/-- A text that does not start with white space does not with more text either. -/
private theorem blank?_append_eq_none {text : List Char} (hne : text ≠ [])
    (h : blank? text = none) :
    blank? (text ++ more) = none := by
  rw [blank?_eq_none_iff] at h ⊢
  have hrest : (blankRun false text).2 = text := by
    have happ := blankRun_append false text
    rwa [h, List.nil_append] at happ
  rw [blankRun_append_of_ne_nil more (by rw [hrest]; exact hne)]
  exact h

/-- A blank run that ended inside the text stays the same. -/
private theorem blank?_append {text : List Char} {l : Lexeme} (h : blank? text = some l)
    (hrest : l.rest ≠ []) : blank? (text ++ more) = some (l.extend more) := by
  unfold blank? at h
  split at h
  · exact nomatch h
  · next run rest hne hrun =>
    obtain rfl := Option.some.inj h
    -- The run ended before the end of the text, so it ends there with more text, too.
    have hended : (blankRun false text).2 ≠ [] := by
      rw [hrun]
      exact hrest
    have happ := blankRun_append_of_ne_nil more hended
    rw [hrun] at happ
    unfold blank?
    rw [happ]
    split
    · next heq => exact absurd (congrArg Prod.fst heq) hne
    · next heq =>
      obtain ⟨rfl, rfl⟩ := Prod.mk.inj heq
      rfl

/-! ## All classes -/

/-- A lexeme stays the same when text follows that breaks it, unless it is a blank run to the end of
    the text. -/
theorem scan?_append {text : List Char} {l : Lexeme} (h : scan? text = some l)
    (hmore : Breaks more) (hblank : l.kind = .blank → l.rest ≠ []) :
    scan? (text ++ more) = some (l.extend more) := by
  have hne : text ≠ [] := by
    rintro rfl
    exact nomatch h
  simp only [scan?, Option.orElse_eq_orElse, Option.orElse_eq_or, Option.or_eq_some_iff] at h ⊢
  -- The classes are compared in the order in which they are tried.
  rcases h with h | ⟨hb, h⟩
  · exact .inl (blank?_append h (hblank (kind_of_blank? h)))
  · refine .inr ⟨blank?_append_eq_none hne hb, ?_⟩
    rcases h with h | ⟨-, h⟩
    · exact .inl (string?_append h)
    · have hquote : text.head? ≠ some '"' := by
        refine head?_ne_quote_of_scan? (l := l) ?_
        rcases h with h | ⟨-, h | ⟨-, h⟩⟩
        · exact .inl h
        · exact .inr (.inl h)
        · exact .inr (.inr h)
      -- The remaining classes find on the longer text just what they find on the shorter one.
      refine .inr ⟨string?_append_eq_none hne hquote, ?_⟩
      rw [number?_append hmore, mark?_append hne, symbol?_append hmore hne]
      rcases h with h | ⟨hn, h | ⟨hm, h⟩⟩
      · exact .inl (by rw [h]; rfl)
      · exact .inr ⟨by rw [hn]; rfl, .inl (by rw [h]; rfl)⟩
      · exact .inr ⟨by rw [hn]; rfl, .inr ⟨by rw [hm]; rfl, by rw [h]; rfl⟩⟩

end Lexeme

/-- A text whose first token is not blank does not start with white space. -/
theorem Lexes.blankRun_eq_nil {text rest : List Char} {k : Token.Kind} {ks : List Token.Kind}
    (h : Lexes text (k :: ks) rest) (hk : k ≠ .blank) : (Lexeme.blankRun false text).1 = [] := by
  cases h with
  | token hl _ =>
    obtain ⟨-, hkind⟩ | ⟨hnone, -⟩ := Lexeme.scan?_cases hl
    · exact absurd hkind hk
    · exact Lexeme.blank?_eq_none_iff.1 hnone

/-- A tokenization stays the same when text follows that breaks its last lexeme, unless that is a
    blank run to the end of the text. -/
theorem Lexes.append_text {text rest more : List Char} {ks : List Token.Kind}
    (h : Lexes text ks rest) (hmore : Lexeme.Breaks more)
    (hend : rest = [] → ks.getLast? ≠ some .blank) : Lexes (text ++ more) ks (rest ++ more) := by
  induction h with
  | done text => exact .done _
  | @token text l ks rest hl hrest ih =>
    have hblank : l.kind = .blank → l.rest ≠ [] := by
      intro hkind hnil
      -- Nothing is left, so this is the last token.
      rw [hnil] at hrest
      cases hrest with
      | done => exact hend rfl (by rw [hkind]; rfl)
      | token hl' _ => exact nomatch hl'
    -- The lexeme leaves the longer rest, from which the others are taken as before.
    refine .token (l := l.extend more) (Lexeme.scan?_append hl hmore hblank) (ih fun hnil => ?_)
    cases ks with
    | nil => simp
    | cons k ks =>
      rw [← List.getLast?_cons_cons (a := l.kind)]
      exact hend hnil

/-- No expression ends with white space. -/
theorem Grammar.Expr.getLast?_ne_blank {n : Nat} {ks : List Token.Kind} {d : Datum}
    (h : Expr n ks d) : ks.getLast? ≠ some .blank := by
  induction h with
  | number x => simp
  | string text => simp
  | symbol name => simp
  -- A quoted expression ends where the expression does, a list with its parenthesis.
  | quoted hw hx ih =>
    obtain ⟨k, rest, rfl, -⟩ := hx.starts
    simpa [List.getLast?_cons, List.getLast?_append] using ih
  | empty hw => simp [List.getLast?_cons]
  | list hw hx hitems hw' => simp [List.getLast?_cons, List.getLast?_append]

end ScopeLisp
