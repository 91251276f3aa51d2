import ScopeLisp.Proofs.NestingCounter

/-!
# Forms evaluated in turn

The arguments of a call are evaluated from left to right. `Machine.InTurn` says this form by form:
each one is evaluated on the machine that the one before it left. If a form fails, the forms behind
it are not evaluated at all (`Machine.FailsInTurn`).

An evaluation leaves as much room for nested evaluations as there was before it, so every form in
the row has the same room.

## Key results

- `Machine.room_run_evaluate`: evaluations leave the room that there was
- `Machine.inTurn_or_failsInTurn`: forms succeed in turn, or one of them is the first to fail
- `Machine.InTurn.run_mapM`, `Machine.FailsInTurn.run_mapM`: what evaluating a list of forms does
-/

namespace ScopeLisp

open EvalM

namespace Machine

/-! ## Room for nested evaluations -/

/-- The counter and the settings are put back after an evaluation, also where the counter is past
    the limit already. -/
theorem room_run_evaluate (m : Machine) (v : Value) (scope : ScopeId) :
    (m.run (evaluate v scope)).2.room = m.room := by
  by_cases hdepth : m.depth ≤ m.config.maxDepth
  · have hlevel := (onLevel_of_tracks (tracks_evaluateAlarmed hdepth (return)
      (Invariant.value_plain m.extent v) (e := scope) trivial)).2
    simp only [room, hlevel.depth, hlevel.config]
  · -- Without room the evaluation is refused, and only the log changes.
    have hroom : m.room = 0 := by
      unfold room
      omega
    rw [run_evaluate, hroom]
    show room (m.run refuseDepth).2 = 0
    rw [run_refuseDepth, ← hroom]
    rfl

/-! ## From left to right -/

/-- The forms have the values given: each is evaluated in the scope, on the machine that the form
    before it left. -/
inductive InTurn (scope : ScopeId) : Machine → (forms values : List Value) → Machine → Prop where
  | done (m : Machine) : InTurn scope m [] [] m
  | form {m m₁ m₂ : Machine} {form v : Value} {forms vs : List Value} :
      m.run (evaluate form scope) = (.ok v, m₁) → InTurn scope m₁ forms vs m₂ →
      InTurn scope m (form :: forms) (v :: vs) m₂

/-- One of the forms fails, after all forms before it have been evaluated in turn. Forms behind it
    are not evaluated. -/
inductive FailsInTurn (scope : ScopeId) :
    Machine → (forms : List Value) → Error → Machine → Prop where
  | here {m m₁ : Machine} {form : Value} {forms : List Value} {e : Error} :
      m.run (evaluate form scope) = (.error e, m₁) → FailsInTurn scope m (form :: forms) e m₁
  | later {m m₁ m₂ : Machine} {form v : Value} {forms : List Value} {e : Error} :
      m.run (evaluate form scope) = (.ok v, m₁) → FailsInTurn scope m₁ forms e m₂ →
      FailsInTurn scope m (form :: forms) e m₂

variable {scope : ScopeId} {m m' m'' : Machine} {forms vs : List Value} {e : Error}

/-- All forms succeed in turn, or one of them is the first to fail. -/
theorem inTurn_or_failsInTurn (scope : ScopeId) (m : Machine) (forms : List Value) :
    (∃ vs m', InTurn scope m forms vs m') ∨ ∃ e m', FailsInTurn scope m forms e m' := by
  -- The first form is evaluated, and the others on the machine that it leaves.
  induction forms generalizing m with
  | nil => exact .inl ⟨[], m, .done m⟩
  | cons form forms ih =>
    cases hrun : m.run (evaluate form scope) with
    | mk outcome m₁ =>
      cases outcome with
      | error e => exact .inr ⟨e, m₁, .here hrun⟩
      | ok v =>
        cases ih m₁ with
        | inl h =>
          obtain ⟨vs, m₂, h⟩ := h
          exact .inl ⟨v :: vs, m₂, .form hrun h⟩
        | inr h =>
          obtain ⟨e, m₂, h⟩ := h
          exact .inr ⟨e, m₂, .later hrun h⟩

/-- There are as many values as forms. -/
theorem InTurn.length_eq (h : InTurn scope m forms vs m') : vs.length = forms.length := by
  induction h with
  | done => rfl
  | form _ _ ih => simp only [List.length_cons, ih]

/-- Forms in a row succeed part by part. -/
theorem InTurn.of_append {forms' : List Value} (h : InTurn scope m (forms ++ forms') vs m') :
    ∃ vs₁ vs₂ m₁, InTurn scope m forms vs₁ m₁ ∧ InTurn scope m₁ forms' vs₂ m' := by
  -- The values are divided where the forms are.
  induction forms generalizing m vs with
  | nil => exact ⟨[], vs, m, .done m, h⟩
  | cons form forms ih =>
    cases h with
    | form hrun h =>
      obtain ⟨vs₁, vs₂, m₁, h₁, h₂⟩ := ih h
      exact ⟨_ :: vs₁, vs₂, m₁, .form hrun h₁, h₂⟩

/-- Of forms in a row, one of the first part is the first to fail, or the first part succeeds. -/
theorem FailsInTurn.of_append {forms' : List Value}
    (h : FailsInTurn scope m (forms ++ forms') e m') :
    FailsInTurn scope m forms e m' ∨
      ∃ vs m₁, InTurn scope m forms vs m₁ ∧ FailsInTurn scope m₁ forms' e m' := by
  induction forms generalizing m with
  | nil => exact .inr ⟨[], m, .done m, h⟩
  | cons form forms ih =>
    -- The first form fails, or it succeeds and the failure is further on.
    cases h with
    | here hrun => exact .inl (.here hrun)
    | later hrun h =>
      cases ih h with
      | inl h => exact .inl (.later hrun h)
      | inr h =>
        obtain ⟨vs, m₁, h₁, h₂⟩ := h
        exact .inr ⟨_ :: vs, m₁, .form hrun h₁, h₂⟩

/-- An evaluation that succeeds leaves the room that there was. -/
theorem room_of_run_evaluate {v form : Value} {m₁ : Machine}
    (h : m.run (evaluate form scope) = (.ok v, m₁)) : m₁.room = m.room := by
  have hroom := m.room_run_evaluate form scope
  rwa [h] at hroom

/-- Forms that succeed in turn leave the room that there was. -/
theorem InTurn.room_eq (h : InTurn scope m forms vs m') : m'.room = m.room := by
  induction h with
  | done => rfl
  | form hrun _ ih => rw [ih, room_of_run_evaluate hrun]

/-- Forms that succeed in turn are evaluated to the list of their values. -/
theorem InTurn.run_mapM (h : InTurn scope m forms vs m') :
    m.run (forms.mapM (evaluateWithin m.room · scope)) = (.ok vs, m') := by
  induction h with
  | done m => rfl
  | @form m m₁ m₂ form v forms vs hrun _ ih =>
    -- The rest of the forms have as much room as the first one had.
    rw [room_of_run_evaluate hrun] at ih
    rw [run_evaluate] at hrun
    simp only [List.mapM_cons, run_bind, hrun, ih, run_pure]

/-- Where one form fails in turn, so does the list of forms. -/
theorem FailsInTurn.run_mapM (h : FailsInTurn scope m forms e m') :
    m.run (forms.mapM (evaluateWithin m.room · scope)) = (.error e, m') := by
  induction h with
  | here hrun =>
    rw [run_evaluate] at hrun
    simp only [List.mapM_cons, run_bind, hrun]
  | later hrun _ ih =>
    rw [room_of_run_evaluate hrun] at ih
    rw [run_evaluate] at hrun
    simp only [List.mapM_cons, run_bind, hrun, ih]

end Machine

end ScopeLisp
