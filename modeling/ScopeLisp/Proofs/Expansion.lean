import Mathlib.Data.List.Forall2
import ScopeLisp.Proofs.NestingCounter

/-!
# Expansions as calls

A code-computing form binds its argument forms as they are written, a function binds their values,
and the value of a quoted form is that form. So an expansion computes the same code as a call of a
function with the same parameters, body and captured scope on the quoted forms. The code is then
evaluated in the scope of the caller.

Both bind arguments in a procedure of their own, and each logs something that the other does not.
The runs are therefore compared up to their logs.

## Key results

- `lawful_upToLog`: nothing that a run does depends on its log
- `tracks_computeCode`: the code of an expansion is the value of a call on the quoted forms
- `expansion_is_call_on_quoted_forms`: expansions as calls
-/

namespace ScopeLisp

open EvalM Correspondence

/-! ## Runs up to their logs -/

namespace Correspondence

/-- Two runs that differ in their logs only. -/
def upToLog : Correspondence where
  machines m m' := ∃ events, m' = { m with events }
  stopped _ _ _ := False
  error _ := True
  scope _ _ := True
  part _ _ := True

/-- The log of an expansion changes nothing but the log. -/
theorem machines_traced (m : Machine) (params : List String) (args code : Value) :
    ∃ events, m.traced params args code = { m with events } := by
  unfold Machine.traced
  split
  · exact ⟨_, rfl⟩
  · exact ⟨m.events, rfl⟩

/-- Nothing that a run does depends on its log. -/
theorem lawful_upToLog : upToLog.Lawful := by
  apply lawful_upTo
  · rintro m m' ⟨events, rfl⟩
    rfl
  · rintro m m' ⟨events, rfl⟩
    rfl
  · rintro m m' s ⟨events, rfl⟩
    exact ⟨events, rfl⟩
  · rintro m m' text ⟨events, rfl⟩
    exact ⟨events, rfl⟩
  · rintro m m' params ⟨events, rfl⟩
    exact ⟨_, rfl⟩
  -- Whether an expansion is logged depends on the settings, which are the same.
  · rintro m m' params args code ⟨events, rfl⟩
    obtain ⟨log, hlog⟩ := machines_traced m params args code
    obtain ⟨log', hlog'⟩ := machines_traced { m with events } params args code
    exact ⟨log', by rw [hlog', hlog]⟩

/-- The counter of nested evaluations does not depend on the log. -/
private theorem nests_upToLog : upToLog.Nests where
  enter := by
    rintro m m' ⟨events, rfl⟩
    exact ⟨events, rfl⟩
  leave := by
    rintro m m' ⟨events, rfl⟩
    exact ⟨events, rfl⟩
  stopped _ _ := False.elim

/-- The limit does not depend on the log, and refusals only add to it. -/
private theorem sharesLimit_upToLog : upToLog.SharesLimit where
  room_eq := by
    rintro m m' ⟨events, rfl⟩
    rfl
  limit_eq := by
    rintro m m' ⟨events, rfl⟩
    rfl
  refuse := by
    rintro m m' limit ⟨events, rfl⟩
    exact ⟨_, rfl⟩
  error _ := trivial

end Correspondence

/-! ## Quoted arguments -/

/-- The second list quotes the elements of the first, one by one. -/
def Value.QuotedBy (forms quoted : Value) : Prop :=
  List.Forall₂ (fun form q => ∃ id, q = .quoted id form) forms.items quoted.items

/-- Where one more evaluation may be nested, a quoted form is evaluated to that form. -/
theorem evaluateWithin_succ_quoted (room : Nat) (id : Identity) (inner : Value) (scope : ScopeId) :
    evaluateWithin (room + 1) (.quoted id inner) scope = pure inner :=
  EvalM.ext_run fun _ => rfl

/-- Parameters are bound to quoted arguments as to the forms themselves. -/
private theorem bindParams_quoted {forms quoted : List Value} (room : Nat) (scope frame : ScopeId)
    (h : List.Forall₂ (fun form q => ∃ id, q = .quoted id form) forms quoted)
    (params : List String) :
    bindParams (evaluateWithin (room + 1) · scope) frame (params.zip quoted) =
      bindParams pure frame (params.zip forms) := by
  -- Along both lists of arguments; surplus parameters or arguments are dropped on both sides.
  induction h generalizing params with
  | nil =>
    rw [List.zip_nil_right]
    rfl
  | cons hquoted _ ih =>
    obtain ⟨id, rfl⟩ := hquoted
    cases params with
    | nil => rfl
    | cons param params =>
      rw [List.zip_cons_cons, List.zip_cons_cons]
      unfold bindParams
      rw [evaluateWithin_succ_quoted, ih params]

/-- The frame of a call on quoted forms is the frame of an expansion. -/
theorem enterFrame_quoted {forms quoted : Value} (h : forms.QuotedBy quoted) (room : Nat)
    (scope captured : ScopeId) (params : List String) :
    enterFrame (evaluateWithin (room + 1) · scope) captured params quoted =
      enterFrame pure captured params forms := by
  unfold enterFrame
  refine bind_congr fun frame => ?_
  rw [bindParams_quoted room scope frame h params]

/-! ## Computing code -/

/-- The first half of an expansion: the code, before it is evaluated. -/
def computeCode (evaluate : Evaluate) (params : List String) (body : Value) (captured : ScopeId)
    (args : Value) : EvalM Value := do
  demand ((Arity.exactly params.length).check (Value.paramList params) args.length)
  let frame ← enterFrame pure captured params args
  evaluate body frame

/-- An expansion computes code, logs it and evaluates it in the scope of the caller. -/
theorem applyExpander_eq_computeCode (evaluate : Evaluate) (params : List String) (body : Value)
    (captured : ScopeId) (args : Value) (scope : ScopeId) :
    applyExpander evaluate params body captured args scope = (do
      let code ← computeCode evaluate params body captured args
      logExpansion params args code
      evaluate code scope) := by
  rw [applyExpander_eq]
  simp only [computeCode, bind_assoc]

/-- The code of an expansion is the value of a call on the quoted forms. -/
theorem tracks_computeCode {forms quoted : Value} (h : forms.QuotedBy quoted) (n room : Nat)
    (params : List String) (body : Value) (captured scope : ScopeId) :
    upToLog.Tracks n (fun _ _ => True)
      (computeCode (evaluateWithin (room + 1)) params body captured forms)
      (applyFunction (evaluateWithin (room + 1)) params body captured quoted scope) := by
  have L := lawful_upToLog
  have hlength : quoted.length = forms.length := h.length_eq.symm
  rw [computeCode, applyFunction_eq, enterFrame_quoted h, hlength]
  refine tracks_demand_bind L (Arity.errorIn_check _ _ _) fun _ _ => ?_
  -- Only the call is logged.
  have hlog : ∀ params' : String, upToLog.Tracks n (fun _ _ => True) (pure ())
      (do emit (.call params' (← get).depth)) := by
    intro params'
    refine ⟨?_, fun _ _ _ _ => False.elim⟩
    rintro m m' - ⟨events, rfl⟩ hc
    exact .ok (Nat.le_refl _) ⟨_, rfl⟩ hc trivial
  rw [← pure_bind () fun _ => enterFrame pure captured params forms >>= _]
  refine (hlog _).bind fun k _ _ _ => ?_
  have hframe : upToLog.Tracks k upToLog.scope (enterFrame pure captured params forms)
      (enterFrame pure captured params forms) :=
    tracks_enterFrame L params (fun _ _ v hv => .pure fun _ hle => L.value_mono hv hle) trivial
      (value_upTo k forms)
  -- In the frame, both evaluate the same body.
  refine hframe.bind fun j _ frame _ => ?_
  exact (tracks_evaluateWithin_of_sharesLimit L nests_upToLog sharesLimit_upToLog (room + 1)
    (value_upTo j body) trivial).imp fun _ _ _ _ => trivial

/-- A call of a code-computing form has the same result or error as a call of the function with its
    parameters, body and captured scope on the quoted argument forms, whose value is evaluated once
    more in the scope of the caller. Both leave the same store, output and nesting: the machines
    differ in their logs only. -/
theorem expansion_is_call_on_quoted_forms (m : Machine) (hdepth : m.depth < m.config.maxDepth)
    (id id' : Identity) (params : List String) (body : Value) (captured scope : ScopeId)
    (forms quoted : Value) (hquoted : forms.QuotedBy quoted) :
    let expanded := m.run (apply (.lambda .expander id params body captured) forms scope)
    let called := m.run (do
      let code ← apply (.lambda .function id' params body captured) quoted scope
      evaluate code scope)
    called.1 = expanded.1 ∧ ∃ events, called.2 = { expanded.2 with events } := by
  intro expanded called
  obtain ⟨room, hroom⟩ : ∃ room, m.room = room + 1 :=
    ⟨m.room - 1, by unfold Machine.room; omega⟩
  have hexpanded : expanded = m.run (do
      let code ← computeCode (evaluateWithin (room + 1)) params body captured forms
      logExpansion params forms code
      evaluateWithin (room + 1) code scope) := by
    rw [← hroom, ← applyExpander_eq_computeCode]
    rfl
  have happly : m.run (apply (.lambda .function id' params body captured) quoted scope) =
      m.run (applyFunction (evaluateWithin (room + 1)) params body captured quoted scope) := by
    rw [← hroom]
    rfl
  obtain ⟨hresult, hmachines⟩ :=
    (tracks_computeCode hquoted m.extent room params body captured scope).eq_upTo
      (Nat.le_refl _) ⟨m.events, rfl⟩
  -- After the call the nesting is what it was, so the code is evaluated with as much room.
  have hlevel := (Machine.onLevel_of_tracks (tracks_applyAlarmed (Nat.le_of_lt hdepth) (return)
    (.lambda .function id' params body captured) quoted scope)).2
  have hcalled : called = _ := Machine.run_bind m _ _
  rw [happly] at hcalled hlevel
  rw [hexpanded, Machine.run_bind, hcalled]
  generalize m.run (computeCode (evaluateWithin (room + 1)) params body captured forms) = r,
    m.run (applyFunction (evaluateWithin (room + 1)) params body captured quoted scope) = r'
    at hresult hmachines hlevel
  obtain ⟨outcome, m₁⟩ := r
  obtain ⟨outcome', m₂⟩ := r'
  obtain rfl : outcome' = outcome := hresult
  -- If computing the code fails, so do both; otherwise the code is evaluated with the same room.
  cases outcome' with
  | error e => exact ⟨rfl, hmachines⟩
  | ok code =>
    have hroom' : m₂.room = room + 1 := by
      rw [← hroom, Machine.room, Machine.room, hlevel.depth, hlevel.config]
    have hlogged : upToLog.machines (m₁.traced params forms code) m₂ := by
      obtain ⟨events, rfl⟩ := hmachines
      obtain ⟨log, hlog⟩ := machines_traced m₁ params forms code
      exact ⟨events, by rw [hlog]⟩
    have hevaluate := tracks_evaluateWithin_of_sharesLimit lawful_upToLog nests_upToLog
      sharesLimit_upToLog (room + 1) (value_upTo 0 code) (e := scope) trivial
    have hend := hevaluate.eq_upTo (Nat.zero_le _) hlogged
    dsimp only
    rw [Machine.run_evaluate, hroom']
    exact hend

/-- A form that returns its argument, called on a call of `f`, where only one evaluation may be
    nested: the code is computed, and evaluating it meets the limit, both in the expansion and in
    the call on the quoted form. -/
theorem expansion_is_call_loopingMachine :
    let m := loopingMachine.withLimit 1
    let forms : Value := .pair 4 (.pair 3 (.symbol "f") .nil) .nil
    let quoted : Value := .pair 6 (.quoted 5 (.pair 3 (.symbol "f") .nil)) .nil
    let expanded := m.run (apply (.lambda .expander 2 ["x"] (.symbol "x") 0) forms 0)
    let called := m.run (do
      let code ← apply (.lambda .function 2 ["x"] (.symbol "x") 0) quoted 0
      evaluate code 0)
    m.depth < m.config.maxDepth ∧ forms.QuotedBy quoted ∧
      expanded.1 = .error (.recursionLimit 1) ∧ called.1 = .error (.recursionLimit 1) ∧
      called.2.store = expanded.2.store := by
  intro m forms quoted expanded called
  have hdepth : m.depth < m.config.maxDepth := by decide
  have hquoted : forms.QuotedBy quoted := .cons ⟨5, rfl⟩ .nil
  obtain ⟨hresult, events, hmachine⟩ :=
    expansion_is_call_on_quoted_forms m hdepth 2 2 ["x"] (.symbol "x") 0 0 forms quoted hquoted
  have hlimit : expanded.1 = .error (.recursionLimit 1) := rfl
  have hstore := congrArg Machine.store hmachine
  exact ⟨hdepth, hquoted, hlimit, hresult.trans hlimit, hstore⟩

end ScopeLisp
