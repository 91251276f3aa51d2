import ScopeLisp.Proofs.Tokenization

/-!
# Where tokens stand

A scanner keeps its place by moving over one lexeme at a time. `Position.after` says the same of a
whole text at once: the line is one more than the number of line feeds in it, and the column is
one more than the number of characters after the last of them.

A scan loses nothing: the lexemes of its tokens, one after the other, are the text up to the end
or up to the fault that it ends with, and each token stands where the lexemes before it end.

## Key results

- `Position.advance_start`: moving over a text from the start leads to `Position.after`
- `Position.advance_start_append_newline`: behind a line feed, places are those of the text behind
  it, some lines further down
- `Scanner.takeUpTo_covers`: what a scan from any place covers
- `Scanner.remainder_covers_source`: what the scan of a source text covers
-/

namespace ScopeLisp

namespace Position

/-- The place after a text that begins at the start. -/
def after (text : List Char) : Position :=
  ⟨1 + text.count '\n', 1 + (text.reverse.takeWhile (· ≠ '\n')).length⟩

/-- One more character moves the place after a text like any other place. -/
theorem after_append_singleton (text : List Char) (c : Char) :
    after (text ++ [c]) = (after text).next c := by
  -- A line feed starts a new line; any other character stays on the last one.
  by_cases hc : c = '\n'
  · subst hc
    simp only [after, next, List.count_append, List.count_singleton_self, List.reverse_append,
      List.reverse_singleton, List.singleton_append, if_true, mk.injEq]
    exact ⟨by omega, by simp⟩
  · simp only [after, next, if_neg hc, List.count_append, List.reverse_append,
      List.reverse_singleton, List.singleton_append, mk.injEq]
    have hcount : [c].count '\n' = 0 := by simp [hc]
    have hrun : (c :: text.reverse).takeWhile (· ≠ '\n') =
        c :: text.reverse.takeWhile (· ≠ '\n') := by simp [hc]
    rw [hcount, hrun, List.length_cons]
    omega

/-- The place after a text, moved over more text, is the place after both. -/
theorem advance_after (before text : List Char) :
    (after before).advance text = after (before ++ text) := by
  induction text generalizing before with
  | nil => rw [advance_nil, List.append_nil]
  | cons c text ih => rw [advance_cons, ← after_append_singleton, ih, ← List.append_cons]

/-- Moving over a text character by character leads to the place that its line feeds determine. -/
theorem advance_start (text : List Char) : start.advance text = after text :=
  advance_after [] text

/-! ## Places further down -/

/-- The place `n` lines further down. -/
def down (n : Nat) (p : Position) : Position :=
  ⟨p.line + n, p.column⟩

/-- Moving over a text does not depend on the line that it starts in. -/
theorem advance_down (n : Nat) (p : Position) (text : List Char) :
    (p.down n).advance text = (p.advance text).down n := by
  induction text generalizing p with
  | nil => rfl
  | cons c text ih =>
    -- A line feed leads to the first column of the next line wherever it stands.
    have hnext : (p.down n).next c = (p.next c).down n := by
      unfold next
      split
      · exact congrArg (Position.mk · 1) (by simp only [down]; omega)
      · rfl
    rw [advance_cons, advance_cons, hnext, ih]

/-- Behind a line feed a text is at the places that it has on its own, further down by the lines
    before it. -/
theorem advance_start_append_newline (before text : List Char) :
    start.advance (before ++ '\n' :: text) =
      (start.advance text).down (1 + before.count '\n') := by
  -- The line feed itself leads to the first column, one line below those before it.
  have hnewline : (after before).next '\n' = start.down (1 + before.count '\n') := by
    simp only [next, after, down, start, if_true, mk.injEq, and_true]
    omega
  rw [advance_append, advance_cons, advance_start before, hnewline, advance_down]

end Position

namespace Scanner

/-! ## What a scan covers -/

/-- The text of tokens, one after the other. -/
def covered (tokens : List Token) : List Char :=
  tokens.flatMap (·.lexeme.toList)

/-- No tokens cover nothing. -/
@[simp] theorem covered_nil : covered [] = [] := rfl

/-- The text of the first token comes first. -/
@[simp] theorem covered_cons (token : Token) (tokens : List Token) :
    covered (token :: tokens) = token.lexeme.toList ++ covered tokens := by
  simp [covered]

/-- A scan of a text from a place on has delivered tokens and left a rest: none of the tokens is
    empty, each stands where the ones before it end, and the scan ends with the end of input if no
    text is left, and else with a fault. -/
structure Covers (p : Position) (text : List Char) (tokens : List Token) (rest : List Char)
    (r : Remainder) : Prop where
  text_eq : text = covered tokens ++ rest
  token : ∀ before token after, tokens = before ++ token :: after →
    token.lexeme ≠ "" ∧ token.kind ≠ .endOfInput ∧ token.position = p.advance (covered before)
  outcome : (rest = [] ∧ r.fault = none ∧
      r.tokens = tokens ++ [⟨.endOfInput, "", p.advance (covered tokens)⟩]) ∨
    (rest ≠ [] ∧ r.tokens = tokens ∧ ∃ cause, r.fault = some ⟨p.advance (covered tokens), cause⟩)
  position : r.scanner.position = p.advance (covered tokens)
  finished : r.scanner.finished = true

/-- A rest that starts with no lexeme is a fault at the scanner's place. -/
theorem nextToken_of_fault {s : Scanner} {c : Char} {cs : List Char} (hrest : s.rest = c :: cs)
    (h : Lexeme.scan? s.rest = none) :
    s.nextToken = (.error ⟨s.position, faultAt c⟩, { s with finished := true }) := by
  unfold nextToken
  rw [h, hrest]

/-- What a scanner can do: meet the end, take a lexeme off the text, or find a fault. -/
theorem nextToken_cases (s : Scanner) :
    (s.rest = [] ∧
        s.nextToken = (.ok ⟨.endOfInput, "", s.position⟩, { s with finished := true })) ∨
      (∃ l, Lexeme.scan? s.rest = some l ∧
        s.nextToken = (.ok ⟨l.kind, String.ofList l.text, s.position⟩,
          { s with rest := l.rest, position := s.position.advance l.text })) ∨
      ∃ c cs, s.rest = c :: cs ∧ Lexeme.scan? s.rest = none ∧
        s.nextToken = (.error ⟨s.position, faultAt c⟩, { s with finished := true }) := by
  -- Which case it is depends on the text that is left and what is scanned from it.
  by_cases hnil : s.rest = []
  · exact .inl ⟨hnil, nextToken_of_nil hnil⟩
  · cases hl : Lexeme.scan? s.rest with
    | some l => exact .inr (.inl ⟨l, rfl, nextToken_of_scan? hl⟩)
    | none =>
      obtain ⟨c, cs, hrest⟩ := List.exists_cons_of_ne_nil hnil
      exact .inr (.inr ⟨c, cs, hrest, rfl, nextToken_of_fault hrest hl⟩)

/-- A fault ends a scan. -/
theorem takeUpTo_succ_of_fault (fuel : Nat) {s : Scanner} {c : Char} {cs : List Char}
    (hopen : s.finished = false) (hrest : s.rest = c :: cs) (h : Lexeme.scan? s.rest = none) :
    takeUpTo (fuel + 1) s = ⟨[], some ⟨s.position, faultAt c⟩, { s with finished := true }⟩ := by
  rw [takeUpTo, next_of_open hopen, nextToken_of_fault hrest h]

/-- A token in front of what a scan covers from the end of that token on. -/
theorem Covers.cons {text : List Char} {tokens : List Token} {rest : List Char} {r : Remainder}
    (token : Token) (hne : token.lexeme ≠ "") (hkind : token.kind ≠ .endOfInput)
    (h : Covers (token.position.advance token.lexeme.toList) text tokens rest r) :
    Covers token.position (token.lexeme.toList ++ text) (token :: tokens) rest
      { r with tokens := token :: r.tokens } := by
  have hend : token.position.advance (covered (token :: tokens)) =
      (token.position.advance token.lexeme.toList).advance (covered tokens) := by
    rw [covered_cons, Position.advance_append]
  refine ⟨?_, ?_, ?_, ?_, h.finished⟩
  · rw [h.text_eq, covered_cons, List.append_assoc]
  · intro before token' after heq
    -- The token in question is the new one in front, or one of the tokens behind it.
    cases before with
    | nil =>
      obtain ⟨rfl, -⟩ := List.cons.inj heq
      exact ⟨hne, hkind, rfl⟩
    | cons first before =>
      obtain ⟨rfl, htokens⟩ := List.cons.inj heq
      rw [covered_cons, Position.advance_append]
      exact h.token before token' after htokens
  · rw [hend]
    rcases h.outcome with ⟨hnil, hfault, htokens⟩ | ⟨hrest, htokens, hfault⟩
    · exact .inl ⟨hnil, hfault, by rw [htokens, List.cons_append]⟩
    · exact .inr ⟨hrest, by rw [htokens], hfault⟩
  · rw [hend]
    exact h.position

/-- A scan with enough fuel covers the text that is left, up to its end or up to a fault. -/
theorem takeUpTo_covers {fuel : Nat} {s : Scanner} (hopen : s.finished = false)
    (hfuel : s.rest.length < fuel) :
    ∃ tokens rest, Covers s.position s.rest tokens rest (takeUpTo fuel s) := by
  -- Each lexeme takes at least one character and one unit of fuel.
  induction fuel generalizing s with
  | zero => omega
  | succ fuel ih =>
    cases hrest : s.rest with
    | nil =>
      rw [takeUpTo_succ_of_nil fuel hopen hrest]
      exact ⟨[], [], rfl, by simp, .inl ⟨rfl, rfl, rfl⟩, rfl, rfl⟩
    | cons c cs =>
      cases hl : Lexeme.scan? s.rest with
      | none =>
        rw [takeUpTo_succ_of_fault fuel hopen hrest hl]
        exact ⟨[], c :: cs, rfl, by simp, .inr ⟨List.cons_ne_nil c cs, rfl, _, rfl⟩, rfl, rfl⟩
      | some l =>
        obtain ⟨happ, hne⟩ := Lexeme.splits_of_scan? hl
        have hlt := Lexeme.length_rest_lt_of_scan? hl
        -- The scan goes on behind the lexeme, from the place where the lexeme ends.
        obtain ⟨tokens, rest, hcovers⟩ :=
          ih (s := { s with rest := l.rest, position := s.position.advance l.text }) hopen
            (by dsimp only; omega)
        have hlexeme : (String.ofList l.text).toList = l.text := String.toList_ofList
        have hnonempty : String.ofList l.text ≠ "" := by
          intro hempty
          rw [hempty] at hlexeme
          exact hne hlexeme.symm
        let token : Token := ⟨l.kind, String.ofList l.text, s.position⟩
        have hcons := Covers.cons token hnonempty (Lexeme.kind_ne_endOfInput_of_scan? hl)
          (by rw [show token.lexeme.toList = l.text from hlexeme]; exact hcovers)
        rw [show token.lexeme.toList = l.text from hlexeme] at hcons
        rw [takeUpTo_succ_of_scan? fuel hopen hl, ← hrest, ← happ]
        exact ⟨token :: tokens, rest, hcons⟩

/-- The scan of a source text to its end delivers tokens that are not empty and whose lexemes, one
    after the other, are the text up to a rest. It ends with the end of input if the rest is empty,
    and with a fault if not; then nothing more is delivered. Every token, the end of input or the
    fault, and the scanner afterwards stand at the place after the text before them. -/
theorem remainder_covers_source (source : String) :
    ∃ tokens rest, source.toList = covered tokens ++ rest ∧
      (∀ before token after, tokens = before ++ token :: after → token.lexeme ≠ "" ∧
        token.kind ≠ .endOfInput ∧ token.position = .after (covered before)) ∧
      ((rest = [] ∧ (ofSource source).remainder.fault = none ∧
          (ofSource source).remainder.tokens =
            tokens ++ [⟨.endOfInput, "", .after source.toList⟩]) ∨
        (rest ≠ [] ∧ (ofSource source).remainder.tokens = tokens ∧
          ∃ cause, (ofSource source).remainder.fault = some ⟨.after (covered tokens), cause⟩)) ∧
      (ofSource source).remainder.scanner.position = .after (covered tokens) ∧
      (ofSource source).remainder.scanner.next = (none, (ofSource source).remainder.scanner) := by
  have hfuel : (ofSource source).rest.length < (ofSource source).rest.length + 2 := by omega
  obtain ⟨tokens, rest, hcovers⟩ := takeUpTo_covers (s := ofSource source) rfl hfuel
  -- From the start, moving over a text leads to the place after it.
  have hplace : ∀ text, (ofSource source).position.advance text = .after text :=
    Position.advance_start
  refine ⟨tokens, rest, hcovers.text_eq, ?_, ?_, ?_, ?_⟩
  · intro before token after htokens
    rw [← hplace]
    exact hcovers.token before token after htokens
  · rcases hcovers.outcome with ⟨hnil, hfault, htokens⟩ | ⟨hrest, htokens, hfault⟩
    · -- Nothing is left, so the tokens cover the whole text.
      have hall : source.toList = covered tokens := by
        rw [← List.append_nil (covered tokens), ← hnil]
        exact hcovers.text_eq
      rw [hplace, ← hall] at htokens
      exact .inl ⟨hnil, hfault, htokens⟩
    · rw [hplace] at hfault
      exact .inr ⟨hrest, htokens, hfault⟩
  · rw [← hplace]
    exact hcovers.position
  · simp [next, remainder, hcovers.finished]

end Scanner

end ScopeLisp
