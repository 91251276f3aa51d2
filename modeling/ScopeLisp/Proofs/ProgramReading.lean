import ScopeLisp.Proofs.Invariants
import ScopeLisp.Proofs.Parsing

/-!
# How a program is read

Reading and evaluating take turns, but neither depends on the other. `Reading source ds fault` says
what a parser alone makes of a text: the data `ds`, and then the end of the text or a fault. Running
the program is evaluating these data in order and then reporting the fault, if there is one.

## Key results

- `Parser.lexes_of_round`, `Parser.round_of_lexes`: one round takes one expression off the text
- `exists_reading`: every text has a reading
- `execute_of_reading`, `parseAll_of_reading`: programs and parses in terms of it
- `Machine.run_evaluateData_ne_malformed`: evaluation itself reports no fault of a text
-/

namespace ScopeLisp

open Grammar ParseM

/-! ## One round -/

namespace Parser

/-- One round of reading a program: the next datum with the parser after it, if there is one. -/
def round (p : Parser) : Except SyntaxError (Option (Datum × Parser)) :=
  match p.run isDone with
  | (.error fault, _) => .error fault
  | (.ok true, _) => .ok none
  | (.ok false, p') =>
    match p'.run expression with
    | (.error fault, _) => .error fault
    | (.ok datum, p'') => .ok (some (datum, p''))

variable {p q : Parser} {t t' : List Char} {d : Datum} {ds : List Datum}

/-- A round that gives a datum takes the tokens of one expression off the text. -/
theorem lexes_of_round (hp : p.At 0 t) (h : p.round = .ok (some (d, q))) :
    ∃ ws ks t', OptBlank ws ∧ Expr maxNesting ks d ∧ Lexes t (ws ++ ks) t' ∧ q.At 0 t' := by
  unfold round at h
  -- The question whether the text is done has to be answered no, and an expression has to follow.
  split at h
  · exact nomatch h
  · exact nomatch h
  · next p₁ hdone =>
    obtain ⟨t₁, hp₁, hsolid, ⟨ws, hw, hws⟩, -⟩ := isDone_yields p hp false p₁ hdone
    split at h
    · exact nomatch h
    · next datum p₂ hexpr =>
      simp only [Except.ok.injEq, Option.some.injEq, Prod.mk.injEq] at h
      obtain ⟨rfl, rfl⟩ := h
      obtain ⟨t₂, hp₂, hread⟩ := expression_yields p₁ hp₁ datum p₂ hexpr
      -- The white space in front of the expression was skipped in asking whether there is one.
      obtain ⟨ks, hx, hks⟩ := hread.of_solid hsolid
      exact ⟨ws, ks, t₂, hw, hx, hws.append hks, hp₂⟩

/-- The tokens of an expression at the start of the text make a round that gives its datum. -/
theorem round_of_lexes {ws ks : List Token.Kind} (hp : p.At 0 t) (hw : OptBlank ws)
    (hx : Expr maxNesting ks d) (hlex : Lexes t (ws ++ ks) t') :
    ∃ q, p.round = .ok (some (d, q)) ∧ q.At 0 t' := by
  obtain ⟨k, rest, rfl, hne, -, hend⟩ := hx.starts
  obtain ⟨_, p₁, t₁, hdone, hp₁, rfl, hlex₁⟩ := isDone_succeeds_of_token hw hlex hne hend p hp
  obtain ⟨_, p₂, _, hexpr, hp₂, rfl, rfl⟩ := expression_succeeds hx [] t₁ t' .absent hlex₁ p₁ hp₁
  refine ⟨p₂, ?_, hp₂⟩
  unfold round
  rw [hdone]
  dsimp only
  rw [hexpr]

/-- The last round is the one that has only white space before it. -/
theorem round_eq_none_iff (hp : p.At 0 t) :
    p.round = .ok none ↔ ∃ ws, OptBlank ws ∧ Lexes t ws [] := by
  constructor
  · intro h
    unfold round at h
    split at h
    · exact nomatch h
    · next p₁ hdone =>
      obtain ⟨t₁, -, -, ⟨ws, hw, hws⟩, hend⟩ := isDone_yields p hp true p₁ hdone
      exact ⟨ws, hw, hend rfl ▸ hws⟩
    · split at h
      · exact nomatch h
      · exact nomatch h
  -- White space is skipped in asking, and then the end is found.
  · rintro ⟨ws, hw, hlex⟩
    obtain ⟨done, p₁, -, hdone, -, rfl⟩ := isDone_succeeds_of_end hw hlex p hp
    unfold round
    rw [hdone]

/-! ## Several rounds -/

/-- Rounds that give the data `ds`, one after the other. -/
inductive Reads : (p : Parser) → (ds : List Datum) → (q : Parser) → Prop where
  | nil (p : Parser) : Reads p [] p
  | cons {p p' q : Parser} {d : Datum} {ds : List Datum} : p.round = .ok (some (d, p')) →
      Reads p' ds q → Reads p (d :: ds) q

/-- The next round is the last: the text is at its end or at a fault. -/
def Ends (p : Parser) (fault : Option SyntaxError) : Prop :=
  p.round = fault.elim (.ok none) .error

/-- Rounds after rounds. -/
theorem Reads.append {ds' : List Datum} {r : Parser} (h : p.Reads ds q) (h' : q.Reads ds' r) :
    p.Reads (ds ++ ds') r := by
  induction h with
  | nil p => exact h'
  | cons hround _ ih => exact .cons hround (ih h')

/-- Every datum takes at least one character. -/
theorem Reads.length_le (h : p.Reads ds q) (hp : p.At 0 t) :
    ∃ t', q.At 0 t' ∧ ds.length + t'.length ≤ t.length := by
  induction h generalizing t with
  | nil p => exact ⟨t, hp, by simp⟩
  | cons hround _ ih =>
    obtain ⟨ws, ks, t₁, -, hx, hlex, hp₁⟩ := lexes_of_round hp hround
    obtain ⟨t', hq, hle⟩ := ih hp₁
    obtain ⟨k, rest, rfl, -⟩ := hx.starts
    have hlen := hlex.length_le
    simp only [List.length_append, List.length_cons] at hlen ⊢
    exact ⟨t', hq, by omega⟩

/-- Rounds come to an end. -/
theorem exists_reads (hp : p.At 0 t) : ∃ ds q fault, p.Reads ds q ∧ q.Ends fault := by
  -- By induction on the length of the text, since each round that gives a datum shortens it.
  induction hn : t.length using Nat.strongRecOn generalizing p t with
  | ind n ih =>
    cases hround : p.round with
    | error fault => exact ⟨[], p, some fault, .nil p, hround⟩
    | ok next =>
      cases next with
      | none => exact ⟨[], p, none, .nil p, hround⟩
      | some next =>
        obtain ⟨d, p'⟩ := next
        obtain ⟨t', hp', hle⟩ := (Reads.cons hround (.nil p')).length_le hp
        rw [List.length_singleton] at hle
        obtain ⟨ds, q, fault, hreads, hends⟩ := ih t'.length (by omega) hp' rfl
        exact ⟨d :: ds, q, fault, .cons hround hreads, hends⟩

end Parser

/-! ## Whole texts -/

/-- A parser makes the data `ds` of a text, and then meets its end or a fault. -/
def Reading (source : String) (ds : List Datum) (fault : Option SyntaxError) : Prop :=
  ∃ q, (Parser.ofSource source).Reads ds q ∧ q.Ends fault

/-- Every text has a reading. -/
theorem exists_reading (source : String) : ∃ ds fault, Reading source ds fault := by
  obtain ⟨ds, q, fault, hreads, hends⟩ := Parser.exists_reads (Parser.at_ofSource source)
  exact ⟨ds, fault, q, hreads, hends⟩

/-- There are no more data than characters. -/
theorem Reading.length_lt {source : String} {ds : List Datum} {fault : Option SyntaxError}
    (h : Reading source ds fault) : ds.length < source.length + 1 := by
  obtain ⟨q, hreads, -⟩ := h
  obtain ⟨t', -, hle⟩ := hreads.length_le (Parser.at_ofSource source)
  rw [← String.length_toList]
  omega

/-- A step of the loop that reads all data is a round. -/
theorem run_expressionsUpTo_succ (p : Parser) (fuel : Nat) :
    (p.run (expressionsUpTo (fuel + 1))).1 =
      match p.round with
      | .error fault => .error fault
      | .ok none => .ok []
      | .ok (some (d, p')) => (d :: ·) <$> (p'.run (expressionsUpTo fuel)).1 := by
  rw [expressionsUpTo, Parser.round, Parser.run_bind]
  -- Both sides ask whether the text is done and then read an expression; only what follows differs.
  cases p.run isDone with
  | mk outcome p₁ =>
    cases outcome with
    | error fault => rfl
    | ok done =>
      cases done with
      | true => rfl
      | false =>
        dsimp only
        rw [if_neg Bool.false_ne_true, Parser.run_bind]
        cases p₁.run expression with
        | mk outcome p₂ =>
          cases outcome with
          | error fault => rfl
          | ok d =>
            dsimp only
            rw [Parser.run_bind]
            cases p₂.run (expressionsUpTo fuel) with
            | mk outcome p₃ => cases outcome <;> rfl

/-- With fuel for all rounds, the loop gives their data or the fault that ends them. -/
private theorem run_expressionsUpTo_of_reads {p q : Parser} {ds : List Datum}
    {fault : Option SyntaxError} {fuel : Nat} (h : p.Reads ds q) (hends : q.Ends fault)
    (hfuel : ds.length < fuel) :
    (p.run (expressionsUpTo fuel)).1 = fault.elim (.ok ds) .error := by
  obtain ⟨fuel, rfl⟩ : ∃ f, fuel = f + 1 := ⟨fuel - 1, by omega⟩
  rw [run_expressionsUpTo_succ]
  -- One unit of fuel for each round, and one for the last, which finds the end or the fault.
  induction h generalizing fuel with
  | nil p =>
    rw [hends]
    cases fault <;> rfl
  | @cons p p' q d ds hround _ ih =>
    rw [List.length_cons] at hfuel
    obtain ⟨fuel, rfl⟩ : ∃ f, fuel = f + 1 := ⟨fuel - 1, by omega⟩
    rw [hround]
    dsimp only
    rw [run_expressionsUpTo_succ, ih hends fuel (by omega)]
    cases fault <;> rfl

/-- Reading a text as a whole gives its data, or the fault that ends them. -/
theorem parseAll_of_reading {source : String} {ds : List Datum} {fault : Option SyntaxError}
    (h : Reading source ds fault) : parseAll source = fault.elim (.ok ds) .error := by
  have hlength := h.length_lt
  obtain ⟨q, hreads, hends⟩ := h
  unfold parseAll expressions
  rw [Parser.run_bind, run_pending, (Parser.at_ofSource source).text_eq]
  dsimp only
  rw [String.length_toList]
  exact run_expressionsUpTo_of_reads hreads hends hlength

/-! ## Evaluating what was read -/

/-- Evaluates data in order; the value of the last one, or the value given if there is none. -/
def evaluateData : List Datum → (last : Value) → EvalM Value
  | [], last => return last
  | d :: ds, _ => do evaluateData ds (← evaluateDatum d)

/-- The end of a program: its value, or the fault at which reading ended. -/
def conclude (fault : Option SyntaxError) (last : Value) : EvalM Value :=
  fault.elim (return last) fun fault => throw (.malformed fault)

/-- Data after data: the second ones go on from the value of the first. -/
theorem evaluateData_append (ds ds' : List Datum) (last : Value) :
    evaluateData (ds ++ ds') last = evaluateData ds last >>= evaluateData ds' := by
  induction ds generalizing last with
  | nil => exact (pure_bind ..).symm
  | cons d ds ih => simp only [List.cons_append, evaluateData, ih, bind_assoc]

/-- The value before them does not matter if there are any data. -/
theorem evaluateData_eq_of_ne_nil {ds : List Datum} (h : ds ≠ []) (last last' : Value) :
    evaluateData ds last = evaluateData ds last' := by
  obtain ⟨d, ds, rfl⟩ := List.exists_cons_of_ne_nil h
  rfl

/-- A step of the loop that runs a program is a round. -/
theorem executeUpTo_succ (p : Parser) (fuel : Nat) (last : Value) :
    executeUpTo (fuel + 1) p last =
      match p.round with
      | .error fault => throw (.malformed fault)
      | .ok none => return last
      | .ok (some (d, p')) => evaluateDatum d >>= executeUpTo fuel p' := by
  rw [executeUpTo, Parser.round]
  -- As in the loop that only reads.
  cases p.run isDone with
  | mk outcome p₁ =>
    cases outcome with
    | error fault => rfl
    | ok done =>
      cases done with
      | true => rfl
      | false =>
        dsimp only
        cases p₁.run expression with
        | mk outcome p₂ => cases outcome <;> rfl

/-- With fuel for all rounds, running a program evaluates their data and reports the fault that ends
    them. -/
private theorem executeUpTo_of_reads {p q : Parser} {ds : List Datum} {fault : Option SyntaxError}
    {fuel : Nat} (h : p.Reads ds q) (hends : q.Ends fault) (hfuel : ds.length < fuel)
    (last : Value) : executeUpTo fuel p last = evaluateData ds last >>= conclude fault := by
  obtain ⟨fuel, rfl⟩ : ∃ f, fuel = f + 1 := ⟨fuel - 1, by omega⟩
  rw [executeUpTo_succ]
  induction h generalizing fuel last with
  | nil p =>
    rw [hends, evaluateData, pure_bind]
    cases fault <;> rfl
  | @cons p p' q d ds hround _ ih =>
    rw [List.length_cons] at hfuel
    obtain ⟨fuel, rfl⟩ : ∃ f, fuel = f + 1 := ⟨fuel - 1, by omega⟩
    rw [hround, evaluateData, bind_assoc]
    dsimp only
    -- Both evaluate the datum first, and then go on from its value.
    congr 1
    funext v
    rw [executeUpTo_succ]
    exact ih hends v fuel (by omega)

/-- Running a program is evaluating its data in order and then reporting the fault, if any. -/
theorem execute_of_reading {source : String} {ds : List Datum} {fault : Option SyntaxError}
    (h : Reading source ds fault) : execute source = evaluateData ds .nil >>= conclude fault := by
  have hlength := h.length_lt
  obtain ⟨q, hreads, hends⟩ := h
  exact executeUpTo_of_reads hreads hends hlength .nil

/-! ## Evaluation reports no faults of a text and keeps the global scope -/

/-- The global scope is the one given, and no fault of a text comes up. -/
def Invariant.hosted (globals : ScopeId) : Invariant :=
  plain (fun m => m.globals = globals) fun e => ∀ fault, e ≠ .malformed fault

/-- All steps of evaluation keep the global scope and report no fault of a text. -/
theorem Invariant.lawful_hosted (globals : ScopeId) : (hosted globals).Lawful where
  toLawfulSteps := by
    refine lawfulSteps_plain ?_ (fun _ h => h) (fun _ h => h) (fun _ h => h) (fun _ _ _ h => h)
    rintro e he fault rfl
    exact he
  limit _ _ := nofun
  refuse _ h := h
  enter h := h
  leave h := h

/-- Evaluating data never reports a fault of a text. -/
theorem Machine.run_evaluateData_ne_malformed (m : Machine) (ds : List Datum) (last : Value)
    (fault : SyntaxError) : (m.run (evaluateData ds last)).1 ≠ .error (.malformed fault) := by
  have L := Invariant.lawful_hosted m.globals
  -- By induction on the data: no evaluation fails with a fault of a text.
  have htracks : ∀ n v, (Invariant.hosted m.globals).alone.Tracks n (fun _ _ => True)
      (evaluateData ds v) (evaluateData ds v) := by
    induction ds with
    | nil => exact fun n v => .pure fun _ _ => trivial
    | cons d ds ih =>
      intro n v
      exact (L.tracks_evaluateDatum Invariant.admitsData_plain (fun _ _ => trivial) d).bind
        fun k _ w _ => ih k w
  have hkept := Invariant.kept_of_tracks (htracks _ last) rfl (Invariant.closed_plain _)
  exact fun herror => hkept.error _ herror fault rfl

end ScopeLisp
