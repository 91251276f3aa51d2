import ScopeLisp.CommandLine.Shell
import ScopeLisp.Proofs.ProgramReading

/-!
# Programs, files and lines

There are three ways to run a source text. A program is read and evaluated by turns, and its value
is that of its last expression. A file is read and evaluated by turns for what it does. A line is
read to its end before its one expression is evaluated. All three do what evaluating the data that
a parser alone makes of the text would do: reading does not depend on the machine, evaluating does
not change the global scope that the next datum is evaluated in, and faults of a text come from
reading only.

## Key results

- `Machine.hosts_evaluate`, `Machine.hosts_apply`: evaluations and calls report no fault of a text
  and keep the global scope
- `Machine.run_runUpTo`: files beside programs
- `reading_of_parseSingle`: what a line is to a program
- `host_loops_agree`: the three ways to run a text
-/

namespace ScopeLisp

open Grammar EvalM CommandLine

/-! ## What a run leaves to its host -/

/-- What a run does with the global scope, and which errors it does not report. -/
structure Machine.Hosts (m : Machine) {α : Type} (r : Except Error α × Machine) : Prop where
  globals : r.2.globals = m.globals
  error : ∀ fault, r.1 ≠ .error (.malformed fault)

namespace Machine

/-- A run that tracks the invariant of the host keeps what the host relies on. -/
private theorem hosts_of_tracks {α : Type} {Q : Nat → α → Prop} {act : EvalM α} {m : Machine}
    (h : (Invariant.hosted m.globals).alone.Tracks m.extent Q act act) : m.Hosts (m.run act) := by
  have hkept := Invariant.kept_of_tracks h rfl (Invariant.closed_plain _)
  exact ⟨hkept.holds, fun fault herror => hkept.error _ herror fault rfl⟩

/-- Evaluations keep the global scope and report no fault of a text. -/
theorem hosts_evaluate (m : Machine) (v : Value) (e : ScopeId) : m.Hosts (m.run (evaluate v e)) :=
  hosts_of_tracks ((Invariant.lawful_hosted m.globals).tracks_evaluate
    (Invariant.value_plain m.extent v) trivial)

/-- Calls keep the global scope and report no fault of a text. -/
theorem hosts_apply (m : Machine) (callee args : Value) (e : ScopeId) :
    m.Hosts (m.run (apply callee args e)) := by
  have L := Invariant.lawful_hosted m.globals
  rw [run_apply]
  refine hosts_of_tracks (Q := (Invariant.hosted m.globals).alone.value) ?_
  exact tracks_applyWith L.alone
    (tracks_evaluateWithin_of_sharesLimit L.alone L.nests L.sharesLimit m.room)
    (Invariant.value_plain _ callee) (Invariant.value_plain _ args) trivial

end Machine

/-! ## Files -/

/-- A step of the loop that runs a file is a round. -/
theorem runUpTo_succ (scope : ScopeId) (p : Parser) (fuel : Nat) :
    runUpTo scope (fuel + 1) p =
      match p.round with
      | .error fault => throw (.malformed fault)
      | .ok none => return
      | .ok (some (d, p')) => allocate (·.load d) >>= fun v =>
        evaluate v scope >>= fun _ => runUpTo scope fuel p' := by
  rw [runUpTo, Parser.round]
  -- As in the loop that runs a program.
  cases p.run ParseM.isDone with
  | mk outcome p₁ =>
    cases outcome with
    | error fault => rfl
    | ok done =>
      cases done with
      | true => rfl
      | false =>
        dsimp only
        cases p₁.run ParseM.expression with
        | mk outcome p₂ => cases outcome <;> rfl

/-- The loop that runs a file does what the loop that runs a program does, and drops its value. -/
theorem Machine.run_runUpTo (m : Machine) (fuel : Nat) (p : Parser) (last : Value) :
    m.run (runUpTo m.globals fuel p) = m.run (do let _ ← executeUpTo fuel p last; return) := by
  induction fuel generalizing m p last with
  | zero => rfl
  | succ fuel ih =>
    rw [runUpTo_succ, executeUpTo_succ]
    cases p.round with
    | error fault => rfl
    | ok next =>
      cases next with
      | none => rfl
      | some next =>
        obtain ⟨d, p'⟩ := next
        dsimp only
        -- Both load the datum and evaluate it in the same scope.
        have hhosts := hosts_evaluate { m with store := (m.store.load d).2 } (m.store.load d).1
          m.globals
        simp only [run_bind, run_allocate, evaluateDatum, run_get]
        generalize ({ m with store := (m.store.load d).2 } : Machine).run
          (evaluate (m.store.load d).1 m.globals) = r at hhosts ⊢
        obtain ⟨outcome, m'⟩ := r
        cases outcome with
        | error e => rfl
        | ok v =>
          -- The next datum is evaluated in the global scope of the machine that is left.
          have hglobals : m'.globals = m.globals := hhosts.globals
          dsimp only
          rw [← hglobals, ih m' p' v, run_bind]

/-- Running a file is running it as a program whose value is dropped. -/
theorem Machine.run_runSource (m : Machine) (source : String) :
    m.run (runSource source) = m.run (do let _ ← execute source; return) := by
  rw [runSource, run_bind, run_get]
  exact m.run_runUpTo _ _ .nil

/-! ## Lines -/

/-- A text that is read as one datum is a program with this datum. -/
theorem reading_of_parseSingle {text : String} {d : Datum} (h : parseSingle text = .ok d) :
    Reading text [d] none := by
  obtain ⟨ws, ks, ws', hw, hx, hw', hlex⟩ := (parseSingle_eq_ok_iff_lexes text d).1 h
  rw [← List.append_assoc] at hlex
  obtain ⟨t, hks, hws'⟩ := Lexes.append_inv (ws ++ ks) hlex
  obtain ⟨q, hround, hq⟩ := Parser.round_of_lexes (Parser.at_ofSource text) hw hx hks
  -- After the expression only white space is left.
  have hends : q.round = .ok none := (Parser.round_eq_none_iff hq).2 ⟨ws', hw', hws'⟩
  exact ⟨q, .cons hround (.nil q), hends⟩

/-- At the end of a text nothing is reported. -/
theorem bind_conclude_none (act : EvalM Value) : act >>= conclude none = act :=
  bind_pure act

/-- A line that is read as one datum is run as a program. -/
private theorem executeLine_of_ok {line : String} {d : Datum} (h : parseSingle line = .ok d) :
    executeLine line = execute line := by
  rw [execute_of_reading (reading_of_parseSingle h), bind_conclude_none]
  simp [executeLine, readSingle, h, evaluateData, evaluateDatum]

/-- A line that is not read is refused before anything is done. -/
private theorem Machine.run_executeLine_of_error (m : Machine) {line : String} {fault : SyntaxError}
    (h : parseSingle line = .error fault) :
    m.run (executeLine line) = (.error (.malformed fault), m) := by
  simp [executeLine, readSingle, h]

/-! ## The three ways to run a text -/

/-- Evaluations and calls report no fault of a text, and reading one reports nothing else. Running a
    file does the same as running a program, and both evaluate in order the data that a parser alone
    makes of the text and then report the fault that ends them, if there is one: the one that is
    found in reading the text as a whole. A line is refused for a fault before anything is
    done, or it is run as a program. -/
theorem host_loops_agree (m : Machine) (text : String) :
    ((∀ v scope fault, (m.run (evaluate v scope)).1 ≠ .error (.malformed fault)) ∧
      (∀ callee args scope fault,
        (m.run (apply callee args scope)).1 ≠ .error (.malformed fault)) ∧
      ∀ e, (m.run (readSingle text)).1 = .error e →
        ∃ fault, parseSingle text = .error fault ∧ e = .malformed fault) ∧
    (m.run (runSource text) = m.run (do let _ ← execute text; return) ∧
      (∃ ds fault, Reading text ds fault ∧ parseAll text = fault.elim (.ok ds) .error ∧
        m.run (execute text) = m.run (evaluateData ds .nil >>= conclude fault)) ∧
      ∀ ds, parseAll text = .ok ds → m.run (execute text) = m.run (evaluateData ds .nil)) ∧
    (∀ fault, (m.run (executeLine text)).1 = .error (.malformed fault) →
      (m.run (executeLine text)).2 = m) ∧
    ((∀ fault, (m.run (executeLine text)).1 ≠ .error (.malformed fault)) →
      m.run (executeLine text) = m.run (execute text)) := by
  obtain ⟨ds, fault, hreading⟩ := exists_reading text
  have hparse := parseAll_of_reading hreading
  have hexecute := execute_of_reading hreading
  refine ⟨⟨fun v scope => (m.hosts_evaluate v scope).error,
    fun callee args scope => (m.hosts_apply callee args scope).error, ?_⟩,
    ⟨m.run_runSource text, ⟨ds, fault, hreading, hparse, by rw [hexecute]⟩, ?_⟩, ?_, ?_⟩
  · intro e he
    cases hsingle : parseSingle text with
    | error fault =>
      simp only [readSingle, hsingle, Machine.run_throw, Except.error.injEq] at he
      exact ⟨fault, rfl, he.symm⟩
    | ok d => simp [readSingle, hsingle] at he
  · intro ds' hds'
    -- A text that is read to its end has no fault, and its data are those of the reading.
    rw [hparse] at hds'
    cases fault with
    | some fault => exact nomatch hds'
    | none =>
      obtain rfl := Except.ok.inj hds'
      rw [hexecute, bind_conclude_none]
  · intro fault herror
    cases hsingle : parseSingle text with
    | error fault => rw [m.run_executeLine_of_error hsingle]
    | ok d =>
      -- What is read to its end is run as a program, and evaluation reports no fault.
      rw [executeLine_of_ok hsingle, execute_of_reading (reading_of_parseSingle hsingle),
        bind_conclude_none] at herror
      exact absurd herror (m.run_evaluateData_ne_malformed [d] .nil fault)
  · intro hne
    cases hsingle : parseSingle text with
    | error fault =>
      rw [m.run_executeLine_of_error hsingle] at hne
      exact absurd rfl (hne fault)
    | ok d => rw [executeLine_of_ok hsingle]

end ScopeLisp
