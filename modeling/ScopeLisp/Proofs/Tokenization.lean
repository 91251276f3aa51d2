import ScopeLisp.Scanner

/-!
# Tokenization of a text

`Lexes text ks rest` says that the text starts with lexemes of the kinds `ks` and goes on with
`rest`. It leaves positions out, so what a reader makes of a text can be stated on the text alone.

## Key results

- `Lexes.unique`: a text has at most one tokenization to its end
- `Scanner.scanTokens_eq_ok_iff`: a scanner delivers the tokens of a text exactly when the text has
  a tokenization to its end
-/

namespace ScopeLisp

/-- The text starts with lexemes of the kinds `ks`, and `rest` follows them. -/
inductive Lexes : (text : List Char) → (ks : List Token.Kind) → (rest : List Char) → Prop where
  | done (text : List Char) : Lexes text [] text
  | token {text : List Char} {l : Lexeme} {ks : List Token.Kind} {rest : List Char} :
      Lexeme.scan? text = some l → Lexes l.rest ks rest → Lexes text (l.kind :: ks) rest

namespace Lexeme

/-- The empty text starts with no lexeme. -/
@[simp] theorem scan?_nil : scan? [] = none := rfl

/-- Behind a lexeme there is less text. -/
theorem length_rest_lt_of_scan? {text : List Char} {l : Lexeme} (h : scan? text = some l) :
    l.rest.length < text.length := by
  obtain ⟨happ, hne⟩ := splits_of_scan? h
  have := List.length_pos_iff.2 hne
  rw [← happ, List.length_append]
  omega

/-- What the blank class finds is blank. -/
theorem kind_of_blank? {text : List Char} {l : Lexeme} (h : blank? text = some l) :
    l.kind = .blank := by
  unfold blank? at h
  split at h
  · exact nomatch h
  · obtain rfl := Option.some.inj h
    rfl

/-- A string literal is neither blank nor the end of input. -/
private theorem kind_ne_of_string? {text : List Char} {l : Lexeme} (h : string? text = some l) :
    l.kind ≠ .blank ∧ l.kind ≠ .endOfInput := by
  unfold string? at h
  split at h
  · split at h
    · obtain rfl := Option.some.inj h
      simp
    · simp at h
  · simp at h

/-- A mark is neither blank nor the end of input. -/
private theorem kind_ne_of_mark? {text : List Char} {l : Lexeme} (h : mark? text = some l) :
    l.kind ≠ .blank ∧ l.kind ≠ .endOfInput := by
  unfold mark? at h
  split at h
  case h_4 => simp at h
  all_goals
    obtain rfl := Option.some.inj h
    simp

/-- A symbol is neither blank nor the end of input. -/
private theorem kind_ne_of_symbol? {text : List Char} {l : Lexeme} (h : symbol? text = some l) :
    l.kind ≠ .blank ∧ l.kind ≠ .endOfInput := by
  have hsymbol : ∀ isChar cs, (symbolOf isChar cs).kind ≠ .blank ∧
      (symbolOf isChar cs).kind ≠ .endOfInput := by
    intro isChar cs
    simp [symbolOf]
  -- The first character decides between a name, an operator and nothing.
  unfold symbol? at h
  split at h
  · simp at h
  · split at h
    · obtain rfl := Option.some.inj h
      exact hsymbol _ _
    · split at h
      · obtain rfl := Option.some.inj h
        exact hsymbol _ _
      · simp at h

/-- A lexeme is either the blank run at the start of the text, or there is none and the lexeme is
    neither blank nor the end of input. -/
theorem scan?_cases {text : List Char} {l : Lexeme} (h : scan? text = some l) :
    (blank? text = some l ∧ l.kind = .blank) ∨
      (blank? text = none ∧ l.kind ≠ .blank ∧ l.kind ≠ .endOfInput) := by
  simp only [scan?, Option.orElse_eq_orElse, Option.orElse_eq_or, Option.or_eq_some_iff] at h
  -- The blank class is tried first, so the others are asked only if it finds nothing.
  rcases h with h | ⟨hblank, h⟩
  · exact .inl ⟨h, kind_of_blank? h⟩
  · refine .inr ⟨hblank, ?_⟩
    rcases h with h | ⟨-, h | ⟨-, h | ⟨-, h⟩⟩⟩
    · exact kind_ne_of_string? h
    · obtain ⟨_, _, rfl⟩ := Option.map_eq_some_iff.1 h
      simp
    · exact kind_ne_of_mark? h
    · exact kind_ne_of_symbol? h

/-- The end of input is no lexeme. -/
theorem kind_ne_endOfInput_of_scan? {text : List Char} {l : Lexeme} (h : scan? text = some l) :
    l.kind ≠ .endOfInput := by
  rcases scan?_cases h with ⟨-, hkind⟩ | ⟨-, -, hkind⟩
  · rw [hkind]
    exact nofun
  · exact hkind

/-- A blank run is as long as it can be, so no blank run starts where it ends. -/
theorem blankRun_blankRun_rest (inComment : Bool) (text : List Char) :
    (blankRun false (blankRun inComment text).2).1 = [] := by
  induction text generalizing inComment with
  | nil => rfl
  | cons c rest ih =>
    by_cases hc : (Text.isBlank c || c = ';' || inComment) = true
    · have hrest : (blankRun inComment (c :: rest)).2 =
          (blankRun (c ≠ '\n' && (inComment || c = ';')) rest).2 := by
        rw [blankRun, if_pos hc]
      rw [hrest]
      exact ih _
    -- The run ends at `c`, which is neither blank nor the start of a comment.
    · have hrest : (blankRun inComment (c :: rest)).2 = c :: rest := by
        rw [blankRun, if_neg hc]
      rw [hrest, blankRun, if_neg]
      simp only [Bool.or_eq_true, not_or] at hc ⊢
      exact ⟨hc.1, Bool.false_ne_true⟩

/-- Blank lexemes do not follow each other. -/
theorem kind_ne_blank_of_scan?_rest {text : List Char} {l l' : Lexeme}
    (h : scan? text = some l) (hl : l.kind = .blank) (h' : scan? l.rest = some l') :
    l'.kind ≠ .blank := by
  obtain ⟨hblank, -⟩ | ⟨-, hne, -⟩ := scan?_cases h
  -- The rest is what follows a blank run, and no blank run starts there.
  · have hrest : l.rest = (blankRun false text).2 := by
      unfold blank? at hblank
      split at hblank
      · exact nomatch hblank
      · next hrun =>
        rw [hrun, ← Option.some.inj hblank]
    obtain ⟨hblank', -⟩ | ⟨-, hne', -⟩ := scan?_cases h'
    · have hempty := blankRun_blankRun_rest false text
      unfold blank? at hblank'
      rw [hrest] at hblank'
      split at hblank'
      · exact nomatch hblank'
      · next hne' hrun =>
        rw [hrun] at hempty
        exact absurd hempty hne'
    · exact hne'
  · exact absurd hl hne

end Lexeme

namespace Lexes

variable {text mid rest : List Char} {k : Token.Kind} {ks ks' : List Token.Kind}

/-- Two stretches of tokens, one behind the other, are one. -/
theorem append (h : Lexes text ks mid) (h' : Lexes mid ks' rest) :
    Lexes text (ks ++ ks') rest := by
  induction h with
  | done text => exact h'
  | token hl _ ih => exact .token hl (ih h')

/-- A stretch of tokens can be cut in two anywhere. -/
theorem append_inv (ks : List Token.Kind) (h : Lexes text (ks ++ ks') rest) :
    ∃ mid, Lexes text ks mid ∧ Lexes mid ks' rest := by
  induction ks generalizing text with
  | nil => exact ⟨text, .done text, h⟩
  | cons k ks ih =>
    cases h with
    | token hl h =>
      obtain ⟨mid, hks, hks'⟩ := ih h
      exact ⟨mid, .token hl hks, hks'⟩

/-- Without tokens, nothing is taken off the text. -/
theorem eq_of_nil (h : Lexes text [] rest) : text = rest := by
  cases h with
  | done => rfl

/-- The first token is the lexeme at the start of the text. -/
theorem cons_inv (h : Lexes text (k :: ks) rest) :
    ∃ l, Lexeme.scan? text = some l ∧ l.kind = k ∧ Lexes l.rest ks rest := by
  cases h with
  | token hl h => exact ⟨_, hl, rfl, h⟩

/-- Every token takes at least one character. -/
theorem length_le (h : Lexes text ks rest) : ks.length + rest.length ≤ text.length := by
  induction h with
  | done text => simp
  | token hl _ ih =>
    have := Lexeme.length_rest_lt_of_scan? hl
    rw [List.length_cons]
    omega

/-- A text has at most one tokenization to its end. -/
theorem unique (h : Lexes text ks []) (h' : Lexes text ks' []) : ks = ks' := by
  generalize hrest : ([] : List Char) = rest at h
  -- By induction on the first tokenization: the second one has to follow it token by token.
  induction h generalizing ks' with
  | done text =>
    subst hrest
    cases h' with
    | done => rfl
    | token hl _ => exact nomatch hl
  | @token text l ks rest hl _ ih =>
    cases h' with
    | done => exact nomatch hl
    | token hl' h' =>
      -- The lexeme at the start is determined, and so is where it ends.
      obtain rfl := Option.some.inj (hl.symm.trans hl')
      rw [ih h' hrest]

end Lexes

namespace Scanner

variable {s : Scanner}

/-! ## One token -/

/-- At the end of the text the next token is the end of input. -/
theorem nextToken_of_nil (h : s.rest = []) :
    s.nextToken = (.ok ⟨.endOfInput, "", s.position⟩, { s with finished := true }) := by
  unfold nextToken
  rw [h]

/-- The lexeme at the start of the rest becomes the next token, and the scanner moves over it. -/
theorem nextToken_of_scan? {l : Lexeme} (h : Lexeme.scan? s.rest = some l) :
    s.nextToken = (.ok ⟨l.kind, String.ofList l.text, s.position⟩,
      { s with rest := l.rest, position := s.position.advance l.text }) := by
  unfold nextToken
  split
  · next hnil => rw [hnil] at h; exact nomatch h
  · rw [h]

/-- A rest without a lexeme is a fault. -/
theorem nextToken_of_scan?_eq_none (hne : s.rest ≠ []) (h : Lexeme.scan? s.rest = none) :
    ∃ fault t, s.nextToken = (.error fault, t) := by
  unfold nextToken
  split
  · next hnil => exact absurd hnil hne
  · rw [h]
    exact ⟨_, _, rfl⟩

/-! ## All tokens -/

/-- A scanner that is not finished gives its next token. -/
theorem next_of_open (hopen : s.finished = false) :
    s.next = (some s.nextToken.1, s.nextToken.2) := by
  simp [next, hopen]

/-- A finished scanner gives nothing. -/
theorem takeUpTo_of_finished (fuel : Nat) (h : s.finished = true) :
    takeUpTo fuel s = ⟨[], none, s⟩ := by
  cases fuel with
  | zero => rfl
  | succ fuel => simp [takeUpTo, next, h]

/-- At the end of the text a scan delivers the end of input and stops. -/
theorem takeUpTo_succ_of_nil (fuel : Nat) (hopen : s.finished = false) (h : s.rest = []) :
    takeUpTo (fuel + 1) s =
      ⟨[⟨.endOfInput, "", s.position⟩], none, { s with finished := true }⟩ := by
  rw [takeUpTo, next_of_open hopen, nextToken_of_nil h]
  dsimp only
  rw [takeUpTo_of_finished fuel rfl]

/-- A scan delivers the lexeme at the start of the rest and goes on behind it. -/
theorem takeUpTo_succ_of_scan? (fuel : Nat) {l : Lexeme} (hopen : s.finished = false)
    (h : Lexeme.scan? s.rest = some l) :
    takeUpTo (fuel + 1) s =
      let r := takeUpTo fuel { s with rest := l.rest, position := s.position.advance l.text }
      { r with tokens := ⟨l.kind, String.ofList l.text, s.position⟩ :: r.tokens } := by
  rw [takeUpTo, next_of_open hopen, nextToken_of_scan? h]

/-- What is delivered when a text has a tokenization to its end. -/
private theorem takeUpTo_of_lexes {ks : List Token.Kind} {fuel : Nat} (h : Lexes s.rest ks [])
    (hopen : s.finished = false) (hfuel : ks.length < fuel) :
    (takeUpTo fuel s).fault = none ∧
      ∃ tokens last, (takeUpTo fuel s).tokens = tokens ++ [last] ∧
        tokens.map (·.kind) = ks ∧ last.kind = .endOfInput := by
  -- By induction on the fuel; each kind of the tokenization uses up one unit.
  induction fuel generalizing s ks with
  | zero => omega
  | succ fuel ih =>
    cases ks with
    | nil =>
      rw [takeUpTo_succ_of_nil fuel hopen (Lexes.eq_of_nil h)]
      exact ⟨rfl, [], _, rfl, rfl, rfl⟩
    | cons k ks =>
      obtain ⟨l, hl, rfl, hrest⟩ := h.cons_inv
      rw [takeUpTo_succ_of_scan? fuel hopen hl]
      have hfuel' : ks.length < fuel := by rw [List.length_cons] at hfuel; omega
      -- The scanner goes on behind the lexeme, with one token less to come.
      obtain ⟨hfault, tokens, last, htokens, hkinds, hlast⟩ :=
        ih (s := { s with rest := l.rest, position := s.position.advance l.text }) hrest hopen
          hfuel'
      refine ⟨hfault, ⟨l.kind, String.ofList l.text, s.position⟩ :: tokens, last, ?_, ?_, hlast⟩
      · dsimp only
        rw [htokens, List.cons_append]
      · rw [List.map_cons, hkinds]

/-- A scan that meets no fault has a tokenization of the whole text behind it. -/
private theorem lexes_of_takeUpTo {fuel : Nat} (h : (takeUpTo fuel s).fault = none)
    (hopen : s.finished = false) (hfuel : s.rest.length < fuel) :
    ∃ ks, Lexes s.rest ks [] := by
  induction fuel generalizing s with
  | zero => omega
  | succ fuel ih =>
    by_cases hnil : s.rest = []
    · exact ⟨[], hnil ▸ .done []⟩
    · cases hl : Lexeme.scan? s.rest with
      | none =>
        obtain ⟨fault, t, hnext⟩ := nextToken_of_scan?_eq_none hnil hl
        rw [takeUpTo, next_of_open hopen, hnext] at h
        exact nomatch h
      | some l =>
        -- The rest is shorter, so the fuel still lasts.
        have hlt := Lexeme.length_rest_lt_of_scan? hl
        rw [takeUpTo_succ_of_scan? fuel hopen hl] at h
        obtain ⟨ks, hks⟩ :=
          ih (s := { s with rest := l.rest, position := s.position.advance l.text }) h hopen
            (by dsimp only; omega)
        exact ⟨l.kind :: ks, .token hl hks⟩

/-- Tokens that end with the end of input are a tokenization of the whole text. -/
theorem lexes_of_kinds_takeUpTo {ks : List Token.Kind} {fuel : Nat} (hopen : s.finished = false)
    (h : (takeUpTo fuel s).tokens.map (·.kind) = ks ++ [.endOfInput]) : Lexes s.rest ks [] := by
  induction fuel generalizing s ks with
  | zero => simp [takeUpTo] at h
  | succ fuel ih =>
    by_cases hnil : s.rest = []
    · rw [takeUpTo_succ_of_nil fuel hopen hnil] at h
      obtain rfl : ks = [] := by simpa using h
      exact hnil ▸ .done []
    · cases hl : Lexeme.scan? s.rest with
      | none =>
        obtain ⟨fault, t, hnext⟩ := nextToken_of_scan?_eq_none hnil hl
        rw [takeUpTo, next_of_open hopen, hnext] at h
        simp at h
      | some l =>
        rw [takeUpTo_succ_of_scan? fuel hopen hl, List.map_cons] at h
        -- The lexeme is not the end of input, so it is the first of the kinds before the end.
        rcases List.cons_eq_append_iff.1 h with ⟨-, hend⟩ | ⟨ks, rfl, hrest⟩
        · exact absurd (List.cons.inj hend).1.symm (Lexeme.kind_ne_endOfInput_of_scan? hl)
        · exact .token hl (ih
            (s := { s with rest := l.rest, position := s.position.advance l.text }) hopen hrest)

/-- A scan succeeds with the tokens it took if it met no fault. -/
theorem scanTokens_fst_eq_ok_iff {tokens : List Token} :
    s.scanTokens.1 = .ok tokens ↔ s.remainder.fault = none ∧ s.remainder.tokens = tokens := by
  cases hf : s.remainder.fault with
  | none => simp [scanTokens, hf]
  | some e => simp [scanTokens, hf]

/-- A fresh scanner delivers the tokens of a text and the end of input exactly when the text has a
    tokenization to its end. -/
theorem scanTokens_eq_ok_iff (source : String) (ks : List Token.Kind) :
    (∃ tokens last, (ofSource source).scanTokens.1 = .ok (tokens ++ [last]) ∧
      tokens.map (·.kind) = ks ∧ last.kind = .endOfInput) ↔ Lexes source.toList ks [] := by
  -- The fuel of a scan is two more than the length of the text.
  have deliver : ∀ {ks' : List Token.Kind}, Lexes source.toList ks' [] →
      (ofSource source).remainder.fault = none ∧
        ∃ tokens last, (ofSource source).remainder.tokens = tokens ++ [last] ∧
          tokens.map (·.kind) = ks' ∧ last.kind = .endOfInput := by
    intro ks' h
    have hlen := h.length_le
    refine takeUpTo_of_lexes (s := ofSource source) h rfl ?_
    show ks'.length < source.toList.length + 2
    omega
  constructor
  · rintro ⟨tokens, last, hok, rfl, hlast⟩
    obtain ⟨hfault, htokens⟩ := scanTokens_fst_eq_ok_iff.1 hok
    -- The text has some tokenization; delivering it again shows that it is the one given.
    obtain ⟨ks', hks'⟩ := lexes_of_takeUpTo hfault rfl (by omega)
    obtain ⟨-, tokens', last', htokens', hkinds, -⟩ := deliver hks'
    obtain ⟨rfl, -⟩ := List.append_inj' (htokens.symm.trans htokens') rfl
    exact hkinds ▸ hks'
  · intro h
    obtain ⟨hfault, tokens, last, htokens, hkinds, hlast⟩ := deliver h
    exact ⟨tokens, last, scanTokens_fst_eq_ok_iff.2 ⟨hfault, htokens⟩, hkinds, hlast⟩

end Scanner

end ScopeLisp
