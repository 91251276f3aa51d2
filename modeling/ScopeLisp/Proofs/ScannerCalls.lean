import ScopeLisp.Proofs.Positions

/-!
# Calls on one scanner

A scanner can be asked for the next token in two ways, one of which stops at the end, and for all
tokens that are left. The calls share one place in the text, so in whatever order they come, they
take the tokens of one pass over the text off it, each once. The end of the text, or a fault, comes
up at the end of that pass, and then the scanner stays where it is: only the way that does not stop
answers any more, and always the same.

## Key results

- `Scanner.remainder_of_scan?`: what is left is the next token and what is left after it
- `Scanner.remainder_ends`: what is left comes to an end that repeats itself
- `Scanner.advances_of_open`: what a call does before the end
- `Scanner.Ended.call_eq`: what a call does after it
- `Scanner.calls_follow_one_pass`: what holds for all calls in any order
-/

namespace ScopeLisp

namespace Scanner

variable {s : Scanner}

/-! ## Calls and their replies -/

/-- The calls that a scanner serves. -/
inductive Call where
  /-- The next token, until the end has come up. -/
  | next
  /-- The token at the scanner's place. -/
  | nextToken
  /-- All tokens that are left. -/
  | scanTokens
deriving DecidableEq

/-- What a call replies. -/
inductive Reply where
  /-- The end, or a fault, has come up before. -/
  | exhausted
  | token (token : Token)
  | tokens (tokens : List Token)
  | fault (fault : SyntaxError)
deriving DecidableEq

namespace Reply

/-- A token or a fault as a reply. -/
def ofOutcome : Except SyntaxError Token → Reply
  | .ok t => token t
  | .error e => fault e

/-- The tokens in a reply. -/
def delivered : Reply → List Token
  | token t => [t]
  | tokens ts => ts
  | exhausted | fault _ => []

/-- The reply brings up the end of the text, or a fault. -/
inductive Ends : Reply → Except SyntaxError Token → Prop where
  | token {t : Token} : t.kind = .endOfInput → Ends (.token t) (.ok t)
  | tokens {ts : List Token} {t : Token} : t ∈ ts → t.kind = .endOfInput →
      Ends (.tokens ts) (.ok t)
  | fault {e : SyntaxError} : Ends (.fault e) (.error e)

end Reply

/-- Serves a call. -/
def call (s : Scanner) : Call → Reply × Scanner
  | .next => (s.next.1.elim .exhausted .ofOutcome, s.next.2)
  | .nextToken => (.ofOutcome s.nextToken.1, s.nextToken.2)
  | .scanTokens =>
    (match s.scanTokens.1 with
      | .ok ts => .tokens ts
      | .error e => .fault e, s.scanTokens.2)

/-- Tokens other than the end of input. -/
def solid (tokens : List Token) : List Token :=
  tokens.filter (·.kind ≠ .endOfInput)

/-- The tokens that a call takes off the text. If the call for all tokens meets a fault, it does not
    deliver them. -/
def scanned (s : Scanner) : Call → List Token
  | .next => solid (s.call .next).1.delivered
  | .nextToken => solid (s.call .nextToken).1.delivered
  | .scanTokens => solid s.remainder.tokens

/-- The scanner after calls. -/
def afterCalls (s : Scanner) (calls : List Call) : Scanner :=
  calls.foldl (fun s c => (s.call c).2) s

/-- The replies to calls. -/
def replies (s : Scanner) : List Call → List Reply
  | [] => []
  | c :: calls => (s.call c).1 :: (s.call c).2.replies calls

/-- The tokens that calls take off the text, one call after the other. -/
def scannedBy (s : Scanner) : List Call → List Token
  | [] => []
  | c :: calls => s.scanned c ++ (s.call c).2.scannedBy calls

/-! ## What is left -/

/-- The scanner behind a lexeme. -/
def behind (s : Scanner) (l : Lexeme) : Scanner :=
  { s with rest := l.rest, position := s.position.advance l.text }

/-- Fuel beyond the length of the text changes nothing. -/
theorem takeUpTo_eq {fuel fuel' : Nat} (hopen : s.finished = false)
    (h : s.rest.length < fuel) (h' : s.rest.length < fuel') :
    takeUpTo fuel s = takeUpTo fuel' s := by
  induction fuel generalizing s fuel' with
  | zero => omega
  | succ fuel ih =>
    cases fuel' with
    | zero => omega
    | succ fuel' =>
      -- Both scans stop at the end and at a fault, and behind a lexeme both have fuel enough.
      obtain ⟨hnil, -⟩ | ⟨l, hl, -⟩ | ⟨c, cs, hrest, hl, -⟩ := s.nextToken_cases
      · rw [takeUpTo_succ_of_nil fuel hopen hnil, takeUpTo_succ_of_nil fuel' hopen hnil]
      · have hlt := Lexeme.length_rest_lt_of_scan? hl
        have hbehind : takeUpTo fuel (s.behind l) = takeUpTo fuel' (s.behind l) :=
          ih hopen (by dsimp only [behind]; omega) (by dsimp only [behind]; omega)
        rw [behind] at hbehind
        rw [takeUpTo_succ_of_scan? fuel hopen hl, takeUpTo_succ_of_scan? fuel' hopen hl, hbehind]
      · rw [takeUpTo_succ_of_fault fuel hopen hrest hl, takeUpTo_succ_of_fault fuel' hopen hrest hl]

/-- At the end of the text the end of input is left. -/
private theorem remainder_of_nil (hopen : s.finished = false) (h : s.rest = []) :
    s.remainder = ⟨[⟨.endOfInput, "", s.position⟩], none, { s with finished := true }⟩ :=
  takeUpTo_succ_of_nil _ hopen h

/-- At a fault nothing but the fault is left. -/
private theorem remainder_of_fault {c : Char} {cs : List Char} (hopen : s.finished = false)
    (hrest : s.rest = c :: cs) (h : Lexeme.scan? s.rest = none) :
    s.remainder = ⟨[], some ⟨s.position, faultAt c⟩, { s with finished := true }⟩ :=
  takeUpTo_succ_of_fault _ hopen hrest h

/-- What is left is the next token, and what is left after it. -/
theorem remainder_of_scan? {l : Lexeme} (hopen : s.finished = false)
    (h : Lexeme.scan? s.rest = some l) :
    s.remainder = { (s.behind l).remainder with
      tokens := ⟨l.kind, String.ofList l.text, s.position⟩ :: (s.behind l).remainder.tokens } := by
  have hlt := Lexeme.length_rest_lt_of_scan? h
  have hfuel : takeUpTo (s.rest.length + 1) (s.behind l) = (s.behind l).remainder :=
    takeUpTo_eq hopen (by dsimp only [behind]; omega) (by omega)
  rw [remainder, takeUpTo_succ_of_scan? _ hopen h, ← hfuel]
  rfl

/-- Of a finished scanner nothing is left. -/
private theorem remainder_of_finished (h : s.finished = true) : s.remainder = ⟨[], none, s⟩ :=
  takeUpTo_of_finished _ h

/-! ## The end -/

/-- The scanner is finished, and would find the same end or fault again and again. -/
structure Ended (o : Except SyntaxError Token) (s : Scanner) : Prop where
  finished : s.finished = true
  repeats : s.nextToken = (o, s)

/-- A scanner at the end of its text has ended with the end of input. -/
private theorem ended_of_nil (h : s.rest = []) :
    Ended (.ok ⟨.endOfInput, "", s.position⟩) { s with finished := true } :=
  ⟨rfl, nextToken_of_nil h⟩

/-- A scanner at a fault has ended with the fault. -/
private theorem ended_of_fault {c : Char} {cs : List Char} (hrest : s.rest = c :: cs)
    (h : Lexeme.scan? s.rest = none) :
    Ended (.error ⟨s.position, faultAt c⟩) { s with finished := true } :=
  ⟨rfl, nextToken_of_fault hrest h⟩

/-- What is left ends with the end of input, the only one in it, or with a fault after tokens that
    are none. -/
def Remainder.Concludes (r : Remainder) : Except SyntaxError Token → Prop
  | .ok t => r.fault = none ∧ t.kind = .endOfInput ∧
      ∃ ts, r.tokens = ts ++ [t] ∧ ∀ u ∈ ts, u.kind ≠ .endOfInput
  | .error e => r.fault = some e ∧ ∀ u ∈ r.tokens, u.kind ≠ .endOfInput

/-- A token that is not the end of input in front of what is left. -/
private theorem Remainder.Concludes.cons {r : Remainder} {o : Except SyntaxError Token}
    (h : r.Concludes o) {t : Token} (ht : t.kind ≠ .endOfInput) :
    Concludes { r with tokens := t :: r.tokens } o := by
  cases o with
  | ok last =>
    obtain ⟨hfault, hlast, ts, hts, hsolid⟩ := h
    exact ⟨hfault, hlast, t :: ts, by rw [hts, List.cons_append],
      List.forall_mem_cons.2 ⟨ht, hsolid⟩⟩
  | error e => exact ⟨h.1, List.forall_mem_cons.2 ⟨ht, h.2⟩⟩

/-- What is left comes to an end that repeats itself. -/
theorem remainder_ends (hopen : s.finished = false) :
    ∃ o, Ended o s.remainder.scanner ∧ s.remainder.Concludes o := by
  -- Each token leaves less text behind it.
  induction hn : s.rest.length using Nat.strongRecOn generalizing s with
  | ind n ih =>
    obtain ⟨hnil, -⟩ | ⟨l, hl, -⟩ | ⟨c, cs, hrest, hl, -⟩ := s.nextToken_cases
    -- The three things that a scanner can meet: the end, a lexeme, and a fault.
    · rw [remainder_of_nil hopen hnil]
      exact ⟨_, ended_of_nil hnil, rfl, rfl, [], rfl, nofun⟩
    · have hlt : (s.behind l).rest.length < n := hn ▸ Lexeme.length_rest_lt_of_scan? hl
      obtain ⟨o, hended, hconcludes⟩ := ih _ hlt (s := s.behind l) hopen rfl
      rw [remainder_of_scan? hopen hl]
      exact ⟨o, hended, hconcludes.cons (Lexeme.kind_ne_endOfInput_of_scan? hl)⟩
    · rw [remainder_of_fault hopen hrest hl]
      exact ⟨_, ended_of_fault hrest hl, rfl, nofun⟩

/-! ## Calls after the end -/

/-- A scanner that stays where it is has met the end of input. -/
theorem Ended.kind_eq {t : Token} (h : Ended (.ok t) s) : t.kind = .endOfInput := by
  refine Decidable.byContradiction fun hkind => ?_
  -- Any other token would have made the text shorter.
  exact Nat.lt_irrefl _ (length_rest_nextToken_lt h.repeats hkind)

/-- The reply to a call after the end. -/
def replyAfterEnd (o : Except SyntaxError Token) : Call → Reply
  | .next => .exhausted
  | .nextToken => .ofOutcome o
  | .scanTokens => .tokens []

/-- A call after the end replies as said above and leaves the scanner where it is. -/
theorem Ended.call_eq {o : Except SyntaxError Token} (h : Ended o s) (c : Call) :
    s.call c = (replyAfterEnd o c, s) := by
  cases c with
  | next => simp [call, next, h.finished, replyAfterEnd]
  | nextToken => simp [call, h.repeats, replyAfterEnd]
  | scanTokens => simp [call, scanTokens, remainder_of_finished h.finished, replyAfterEnd]

/-- A call after the end takes nothing off the text. -/
private theorem Ended.scanned_eq {o : Except SyntaxError Token} (h : Ended o s) (c : Call) :
    s.scanned c = [] := by
  cases c with
  | next => simp [scanned, h.call_eq, replyAfterEnd, Reply.delivered, solid]
  | nextToken =>
    rw [scanned, h.call_eq]
    cases o with
    | ok t => simp [replyAfterEnd, Reply.ofOutcome, Reply.delivered, solid, h.kind_eq]
    | error e => rfl
  | scanTokens => simp [scanned, remainder_of_finished h.finished, solid]

/-- The reply with the end brings up that end and no other. -/
private theorem Ended.ends_ofOutcome_iff {o o' : Except SyntaxError Token} (h : Ended o s) :
    (Reply.ofOutcome o).Ends o' ↔ o' = o := by
  constructor
  · intro hends
    cases o <;> cases hends <;> rfl
  · rintro rfl
    cases o' with
    | ok t => exact .token h.kind_eq
    | error e => exact .fault

/-- What a reply after the end brings up is the end that has come up. -/
private theorem Ended.eq_of_ends {o o' : Except SyntaxError Token} (h : Ended o s) {c : Call}
    (hends : (s.call c).1.Ends o') : o' = o := by
  rw [h.call_eq] at hends
  cases c with
  | next => exact nomatch hends
  | nextToken => exact h.ends_ofOutcome_iff.1 hends
  | scanTokens =>
    cases hends with
    | tokens hmem _ => exact nomatch hmem

/-- After the end the scanner stays where it is. -/
private theorem Ended.afterCalls_eq {o : Except SyntaxError Token} (h : Ended o s)
    (calls : List Call) :
    s.afterCalls calls = s := by
  induction calls with
  | nil => rfl
  | cons c calls ih =>
    rw [afterCalls, List.foldl_cons, h.call_eq]
    exact ih

/-- After the end no calls take anything off the text. -/
private theorem Ended.scannedBy_eq {o : Except SyntaxError Token} (h : Ended o s)
    (calls : List Call) :
    s.scannedBy calls = [] := by
  induction calls with
  | nil => rfl
  | cons c calls ih => rw [scannedBy, h.scanned_eq, h.call_eq, ih, List.append_nil]

/-! ## Calls before the end -/

/-- What a call does to a scanner for which the end has not come up: it takes the tokens that come
    first in what is left, and the rest is left; or it brings up the end. -/
inductive Advances (s : Scanner) (c : Call) : Prop where
  | onward : (s.call c).2.finished = false → (∀ o, ¬ (s.call c).1.Ends o) →
      solid s.remainder.tokens = s.scanned c ++ solid (s.call c).2.remainder.tokens →
      Advances s c
  | ended {o : Except SyntaxError Token} : Ended o (s.call c).2 →
      (∀ o', (s.call c).1.Ends o' ↔ o' = o) → solid s.remainder.tokens = s.scanned c →
      Advances s c

/-- The call for the token at the scanner's place: the end, a lexeme, or a fault. -/
private theorem advances_nextToken (hopen : s.finished = false) : s.Advances .nextToken := by
  obtain ⟨hnil, hnext⟩ | ⟨l, hl, hnext⟩ | ⟨c, cs, hrest, hl, hnext⟩ := s.nextToken_cases
  · have hended := ended_of_nil hnil
    refine .ended (o := .ok ⟨.endOfInput, "", s.position⟩) ?_ ?_ ?_
    · rw [call, hnext]
      exact hended
    · rw [call, hnext]
      exact fun o' => hended.ends_ofOutcome_iff
    · rw [remainder_of_nil hopen hnil, scanned, call, hnext]
      rfl
  -- A lexeme is none of the ends, and the scanner goes on behind it.
  · have hkind := Lexeme.kind_ne_endOfInput_of_scan? hl
    refine .onward ?_ ?_ ?_
    · rw [call, hnext]
      exact hopen
    · rw [call, hnext]
      rintro _ ⟨hend⟩
      exact hkind hend
    · rw [remainder_of_scan? hopen hl, scanned, call, hnext]
      simp [solid, Reply.ofOutcome, Reply.delivered, hkind, behind]
  · have hended := ended_of_fault hrest hl
    refine .ended (o := .error ⟨s.position, faultAt c⟩) ?_ ?_ ?_
    · rw [call, hnext]
      exact hended
    · rw [call, hnext]
      exact fun o' => hended.ends_ofOutcome_iff
    · rw [remainder_of_fault hopen hrest hl, scanned, call, hnext]
      rfl

/-- Before the end, the two ways to ask for the next token are the same. -/
private theorem call_next_of_open (hopen : s.finished = false) :
    s.call .next = s.call .nextToken := by
  rw [call, call, next_of_open hopen]
  rfl

/-- The call for all tokens replies with what is left, and leaves the scanner behind it. -/
private theorem call_scanTokens (s : Scanner) : s.call .scanTokens =
    (s.remainder.fault.elim (.tokens s.remainder.tokens) .fault, s.remainder.scanner) := by
  simp only [call, scanTokens]
  cases s.remainder.fault <;> rfl

/-- The reply for all tokens that are left brings up the one end that they have. -/
theorem Remainder.Concludes.ends_iff {r : Remainder} {o o' : Except SyntaxError Token}
    (h : r.Concludes o) : (r.fault.elim (.tokens r.tokens) .fault : Reply).Ends o' ↔ o' = o := by
  cases o with
  | ok t =>
    obtain ⟨hfault, hkind, ts, hts, hsolid⟩ := h
    rw [hfault, hts]
    constructor
    · intro hends
      cases hends with
      | tokens hmem hend =>
        -- No token before the last one is the end of input.
        rcases List.mem_append.1 hmem with hmem | hmem
        · exact absurd hend (hsolid _ hmem)
        · rw [List.mem_singleton.1 hmem]
    · rintro rfl
      exact .tokens (List.mem_append_right _ List.mem_cons_self) hkind
  | error e =>
    rw [h.1]
    constructor
    · intro hends
      cases hends
      rfl
    · rintro rfl
      exact .fault

/-- Every call before the end moves the scanner on or brings up the end. -/
theorem advances_of_open (hopen : s.finished = false) (c : Call) : s.Advances c := by
  cases c with
  | nextToken => exact advances_nextToken hopen
  | next =>
    have hcall := call_next_of_open hopen
    have hscanned : s.scanned .next = s.scanned .nextToken := by rw [scanned, scanned, hcall]
    cases advances_nextToken hopen with
    | onward hfinished hends htokens =>
      exact .onward (hcall ▸ hfinished) (hcall ▸ hends) (hcall ▸ hscanned ▸ htokens)
    | ended hended hends htokens =>
      exact .ended (hcall ▸ hended) (hcall ▸ hends) (hscanned ▸ htokens)
  | scanTokens =>
    -- The call for all tokens always brings up the end.
    obtain ⟨o, hended, hconcludes⟩ := remainder_ends hopen
    have hcall := s.call_scanTokens
    refine .ended (o := o) ?_ ?_ rfl
    · rw [hcall]
      exact hended
    · rw [hcall]
      exact fun o' => hconcludes.ends_iff

/-! ## Any calls in any order -/

/-- The end has not come up, or it has and repeats itself. -/
def Serves (s : Scanner) : Prop :=
  s.finished = false ∨ ∃ o, Ended o s

/-- A scanner still serves after a call. -/
private theorem Serves.call (h : s.Serves) (c : Call) : (s.call c).2.Serves := by
  rcases h with hopen | ⟨o, hended⟩
  · cases advances_of_open hopen c with
    | onward hfinished _ _ => exact .inl hfinished
    | ended hended _ _ => exact .inr ⟨_, hended⟩
  · rw [hended.call_eq]
    exact .inr ⟨o, hended⟩

/-- So it does after any calls. -/
private theorem Serves.afterCalls (h : s.Serves) (calls : List Call) :
    (s.afterCalls calls).Serves := by
  induction calls generalizing s with
  | nil => exact h
  | cons c calls ih => exact ih (h.call c)

/-- A call that brings up the end leaves a scanner that repeats it. -/
theorem Serves.ended_of_ends (h : s.Serves) {c : Call} {o : Except SyntaxError Token}
    (hends : (s.call c).1.Ends o) : Ended o (s.call c).2 := by
  rcases h with hopen | ⟨o', hended⟩
  · cases advances_of_open hopen c with
    | onward _ hnot _ => exact absurd hends (hnot o)
    | ended hended hiff _ => exact (hiff o).1 hends ▸ hended
  · rw [hended.eq_of_ends hends, hended.call_eq]
    exact hended

/-- Calls take the tokens that come first in what is left. -/
theorem scannedBy_isPrefix (hopen : s.finished = false) (calls : List Call) :
    s.scannedBy calls <+: solid s.remainder.tokens := by
  induction calls generalizing s with
  | nil => exact List.nil_prefix
  | cons c calls ih =>
    rw [scannedBy]
    cases advances_of_open hopen c with
    | onward hfinished _ htokens =>
      rw [htokens]
      exact (List.prefix_append_right_inj _).2 (ih hfinished)
    -- This call took all that was left, and the calls after it take nothing.
    | ended hended _ htokens =>
      rw [hended.scannedBy_eq, List.append_nil]
      exact ⟨[], by rw [htokens, List.append_nil]⟩

/-- As long as no reply has brought up the end, the scanner is not finished. -/
theorem finished_afterCalls_of_replies (hopen : s.finished = false) {calls : List Call}
    (h : ∀ reply ∈ s.replies calls, ∀ o, ¬ reply.Ends o) :
    (s.afterCalls calls).finished = false := by
  induction calls generalizing s with
  | nil => exact hopen
  | cons c calls ih =>
    obtain ⟨hreply, hlater⟩ := List.forall_mem_cons.1 h
    cases advances_of_open hopen c with
    | onward hfinished _ _ => exact ih hfinished hlater
    | ended _ hiff _ => exact absurd ((hiff _).2 rfl) (hreply _)

/-- What a call takes off the text it delivers, except that the call for all tokens delivers nothing
    but a fault if it meets one. -/
theorem scanned_eq_or_fault (s : Scanner) (c : Call) :
    s.scanned c = solid (s.call c).1.delivered ∨
      (c = .scanTokens ∧ ∃ e, (s.call c).1 = .fault e) := by
  cases c with
  | next => exact .inl rfl
  | nextToken => exact .inl rfl
  | scanTokens =>
    rw [call_scanTokens]
    cases hfault : s.remainder.fault with
    | none => exact .inl rfl
    | some e => exact .inr ⟨rfl, e, rfl⟩

/-- However calls on one scanner follow each other: the tokens before the end of input that they
    take off the text, in order, are the first of one pass over it. A call delivers what it takes,
    unless it asks for all tokens and meets a fault. Once a reply has brought up the end of input or
    a fault, whatever calls follow, the place stays the same, the next token is refused, no tokens
    are left, and the token at the scanner's place is that end or fault. As long as none has, all
    tokens that are left are a fault or end with the only end of input. -/
theorem calls_follow_one_pass (source : String) (calls : List Call) :
    let s := (ofSource source).afterCalls calls
    ((ofSource source).scannedBy calls <+: solid (ofSource source).remainder.tokens) ∧
      (∀ c, s.scanned c = solid (s.call c).1.delivered ∨
        (c = .scanTokens ∧ ∃ e, (s.call c).1 = .fault e)) ∧
      (∀ c o, (s.call c).1.Ends o → ∀ more,
        let t := (s.call c).2.afterCalls more
        t.position = (s.call c).2.position ∧ (t.call .next).1 = .exhausted ∧
          (t.call .scanTokens).1 = .tokens [] ∧ (t.call .nextToken).1 = .ofOutcome o) ∧
      ((∀ reply ∈ (ofSource source).replies calls, ∀ o, ¬ reply.Ends o) →
        (∃ e, (s.call .scanTokens).1 = .fault e) ∨
          ∃ ts t, (s.call .scanTokens).1 = .tokens (ts ++ [t]) ∧ t.kind = .endOfInput ∧
            ∀ u ∈ ts, u.kind ≠ .endOfInput) := by
  intro s
  have hserves : s.Serves := Serves.afterCalls (.inl rfl) calls
  refine ⟨scannedBy_isPrefix rfl calls, s.scanned_eq_or_fault, ?_, ?_⟩
  -- The scanner has ended, so no further call moves it.
  · intro c o hends more
    have hended := hserves.ended_of_ends hends
    rw [hended.afterCalls_eq]
    exact ⟨rfl, congrArg (·.1) (hended.call_eq .next),
      congrArg (·.1) (hended.call_eq .scanTokens), congrArg (·.1) (hended.call_eq .nextToken)⟩
  -- No reply has ended the text, so the scanner is still open.
  · intro hreplies
    have hopen : s.finished = false := finished_afterCalls_of_replies rfl hreplies
    obtain ⟨o, -, hconcludes⟩ := remainder_ends hopen
    rw [call_scanTokens]
    cases o with
    | ok t =>
      obtain ⟨hfault, hkind, ts, hts, hsolid⟩ := hconcludes
      exact .inr ⟨ts, t, by rw [hfault, hts]; rfl, hkind, hsolid⟩
    | error e => exact .inl ⟨e, by rw [hconcludes.1]; rfl⟩

end Scanner

end ScopeLisp
