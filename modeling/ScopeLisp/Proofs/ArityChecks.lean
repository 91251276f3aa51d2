import ScopeLisp.Proofs.InTurn

/-!
# Argument counts

Counts are checked in three places. A call of a lambda or of a special form checks the count of its
argument forms first, so a refused call does nothing. A call of a builtin function evaluates all
arguments first, keeps what they did, and checks then. A builtin that takes a fixed number of
arguments apart checks once more, and this last check never fails for the builtins of the language:
the arities that they declare are those that they rely on.

## Key results

- `Arity.check_of_not_admits`: which error a count gives
- `Builtin.failsOnly_run`: arity errors of a builtin are those of evaluations that it makes
- `apply_checks_argument_counts`: the whole contract of `apply`
-/

namespace ScopeLisp

open EvalM

/-! ## What a count is refused with -/

namespace Arity

/-- The smallest count that is accepted. -/
def least : Arity → Nat
  | exactly n => n
  | atLeast n => n
  | any => 0

/-- The error of a callee that is given a wrong count. -/
def refusal (a : Arity) (callee : String) (got : Nat) : Error :=
  .arity callee a got (if got < a.least then .tooFew else .tooMany)

/-- A count that is not admitted is refused as too small or too large. -/
theorem check_of_not_admits {a : Arity} {got : Nat} (h : ¬ a.Admits got) (callee : String) :
    a.check callee got = .error (a.refusal callee got) := by
  -- An exact count may be missed on either side, a least count only from below.
  cases a with
  | exactly n =>
    have hne : got ≠ n := h
    by_cases hlt : got < n
    · simp [check, mismatch?, refusal, least, hlt]
    · have hgt : n < got := by omega
      simp [check, mismatch?, refusal, least, hlt, hgt]
  | atLeast n =>
    have hlt : got < n := Nat.lt_of_not_le h
    simp [check, mismatch?, refusal, least, hlt]
  | any => exact absurd trivial h

end Arity

/-! ## Which errors a step can give -/

/-- On every machine, the step only gives errors that satisfy the condition. -/
def EvalM.FailsOnly {α : Type} (p : Error → Prop) (act : EvalM α) : Prop :=
  ∀ m : Machine, ErrorIn p (m.run act).1

namespace EvalM

variable {α β : Type} {p : Error → Prop}

/-- A step that only returns does not fail. -/
private theorem failsOnly_pure (a : α) : FailsOnly p (pure a) := fun _ => errorIn_ok a

/-- A demanded result fails as the result does. -/
private theorem failsOnly_demand {r : Except Error α} (hr : ErrorIn p r) :
    FailsOnly p (demand r) := fun _ => hr

/-- Allocation does not fail. -/
private theorem failsOnly_allocate (f : Store → α × Store) : FailsOnly p (allocate f) := by
  intro m
  rw [Machine.run_allocate]
  exact errorIn_ok _

/-- A transaction fails as the change of the store does. -/
private theorem failsOnly_transact {f : Store → Except Error (α × Store)}
    (hf : ∀ s, ErrorIn p (f s)) : FailsOnly p (transact f) := by
  intro m
  have hresult := hf m.store
  rw [Machine.run_transact]
  cases hf : f m.store with
  | error e =>
    rw [hf] at hresult
    exact errorIn_error (hresult e rfl)
  | ok => exact errorIn_ok _

/-- An update fails as the change of the store does. -/
private theorem failsOnly_update {f : Store → Except Error Store}
    (hf : ∀ s, ErrorIn p (f s)) : FailsOnly p (update f) := by
  apply failsOnly_transact
  intro s
  exact (hf s).bind fun _ => errorIn_ok _

/-- Two steps in a row fail as the first or as the second. -/
private theorem FailsOnly.bind {act : EvalM α} {next : α → EvalM β} (h : FailsOnly p act)
    (hnext : ∀ a, FailsOnly p (next a)) : FailsOnly p (act >>= next) := by
  intro m
  have hfirst := h m
  rw [Machine.run_bind]
  generalize m.run act = r at hfirst
  obtain ⟨outcome, m'⟩ := r
  -- After an error of the first step the second is not taken.
  cases outcome with
  | error e => exact errorIn_error (hfirst e rfl)
  | ok a => exact hnext a m'

/-- A loop over a list fails as one of its steps. -/
private theorem failsOnly_foldlM {f : β → α → EvalM β} (hf : ∀ b a, FailsOnly p (f b a))
    (l : List α)
    (b : β) : FailsOnly p (l.foldlM f b) := by
  induction l generalizing b with
  | nil => exact failsOnly_pure b
  | cons a l ih =>
    rw [List.foldlM_cons]
    exact (hf b a).bind ih

end EvalM

/-! ## Errors of builtins -/

/-- How many arguments the operation takes apart, if it does. -/
def Operation.operands : Operation → Option Nat
  | .quote | .head | .tail | .isNil | .eval | .body | .closure | .typeOf | .display | .render =>
    some 1
  | .define | .assign | .assignNonLocal | .makeFunction | .makeExpander | .cons | .isSame => some 2
  | .branch => some 3
  | .sequence | .add | .concat | .list | .print | .currentScope | .globalScope | .echo => none

/-- A list of the right length is taken apart into its elements. -/
private theorem Value.expectArgs_of_length_eq {args : Value} {n : Nat} (h : args.length = n)
    (callee : String) :
    ∃ vs : Vector Value n, args.expectArgs n callee = .ok vs ∧ vs.toList = args.items := by
  have hsize : args.items.toArray.size = n := h
  refine ⟨⟨args.items.toArray, hsize⟩, ?_, rfl⟩
  simp only [expectArgs, dif_pos hsize]

namespace Builtin

/-- An operation with operands takes them apart before it does anything else. -/
theorem exists_run_eq {b : Builtin} {n : Nat} (h : b.operation.operands = some n)
    (evaluate : Evaluate) (scope : ScopeId) :
    ∃ step : Vector Value n → EvalM Value, ∀ args,
      b.run evaluate args scope = (do step (← demand (args.expectArgs n b.name))) := by
  unfold run
  cases hoperation : b.operation <;> rw [hoperation] at h <;> cases h <;> exact ⟨_, fun _ => rfl⟩

/-- The arities that the builtins of the language declare are those that they rely on. -/
theorem arity_of_mem_catalogue {b : Builtin} (hb : b ∈ catalogue) {n : Nat}
    (h : b.operation.operands = some n) : b.arity = .exactly n := by
  have hall : ∀ b ∈ catalogue, ∀ n ∈ b.operation.operands, b.arity = .exactly n := by decide
  exact hall b hb n h

section Errors

variable {p : Error → Prop}

/-- Arguments that are as many as wanted can be taken apart. -/
theorem failsOnly_expectArgs {args : Value} {n : Nat} (h : args.length = n) {callee : String}
    {step : Vector Value n → EvalM Value} (hstep : ∀ vs, FailsOnly p (step vs)) :
    FailsOnly p (do step (← demand (args.expectArgs n callee))) := by
  obtain ⟨vs, hvs, -⟩ := Value.expectArgs_of_length_eq h callee
  rw [hvs]
  exact (failsOnly_pure vs).bind hstep

variable (hp : ∀ e : Error, e.IsPlain → p e)

include hp

/-- Building a list cell has no errors about counts. -/
private theorem failsOnly_runCons (head tail : Value) : FailsOnly p (runCons head tail) :=
  failsOnly_transact fun s => (s.errorIn_cons head tail).imp hp

/-- Making a lambda has no errors about counts. -/
private theorem failsOnly_runLambda (kind : LambdaKind) (params body : Value) (scope : ScopeId) :
    FailsOnly p (runLambda kind params body scope) :=
  (failsOnly_demand ((errorIn_parameterNames params).imp hp)).bind fun _ => failsOnly_allocate _

variable {evaluate : Evaluate} (he : ∀ v scope, FailsOnly p (evaluate v scope)) {scope : ScopeId}

include he

/-- A branch fails as the condition or the form chosen, or for want of a truth value. -/
private theorem failsOnly_runBranch (condition yes no : Value) :
    FailsOnly p (runBranch evaluate condition yes no scope) := by
  apply (he condition scope).bind
  intro v
  -- Only a truth value chooses a form; anything else is a type error.
  cases v with
  | bool b =>
    cases b with
    | true => exact he yes scope
    | false => exact he no scope
  | _ => exact failsOnly_demand (errorIn_error (hp _ ⟨trivial, nofun⟩))

/-- Binding a name fails for want of a name, as the form does, or as the change does. -/
private theorem failsOnly_runBinding {change : Store → String → Value → Except Error Store}
    (hchange : ∀ s name v, ErrorIn Error.IsPlain (change s name v)) (symbol form : Value) :
    FailsOnly p (runBinding evaluate change symbol form scope) := by
  apply (failsOnly_demand (symbol.errorIn_asSymbol.imp hp)).bind
  intro name
  apply (he form scope).bind
  intro v
  exact (failsOnly_update fun s => (hchange s name v).imp hp).bind fun _ => failsOnly_pure _

/-- A builtin that is given as many arguments as it takes apart has no arity errors of its own: all
    that it gives come from evaluations. -/
theorem failsOnly_run {b : Builtin} {args : Value}
    (hargs : ∀ n, b.operation.operands = some n → args.length = n) :
    FailsOnly p (b.run evaluate args scope) := by
  -- One case per operation: how it takes its arguments apart, and what it then may give.
  obtain ⟨name, description, kind, arity, operation⟩ := b
  cases operation with
  | quote | isNil => exact failsOnly_expectArgs (hargs 1 rfl) fun _ => failsOnly_pure _
  | typeOf | display | render =>
    exact failsOnly_expectArgs (hargs 1 rfl) fun _ => failsOnly_allocate _
  | head | tail =>
    exact failsOnly_expectArgs (hargs 1 rfl) fun _ =>
      (failsOnly_demand ((errorIn_uncons _ _).imp hp)).bind fun _ => failsOnly_pure _
  | body | closure =>
    exact failsOnly_expectArgs (hargs 1 rfl) fun _ =>
      (failsOnly_demand ((errorIn_lambdaParts _).imp hp)).bind fun _ => failsOnly_pure _
  | eval => exact failsOnly_expectArgs (hargs 1 rfl) fun _ => he _ _
  | isSame => exact failsOnly_expectArgs (hargs 2 rfl) fun _ => failsOnly_pure _
  | cons => exact failsOnly_expectArgs (hargs 2 rfl) fun _ => failsOnly_runCons hp _ _
  | makeFunction | makeExpander =>
    exact failsOnly_expectArgs (hargs 2 rfl) fun _ => failsOnly_runLambda hp _ _ _ _
  -- The forms that bind a name differ in the change of the store only.
  | define =>
    exact failsOnly_expectArgs (hargs 2 rfl) fun _ =>
      failsOnly_runBinding hp he (fun s => s.errorIn_define _) _ _
  | assign =>
    exact failsOnly_expectArgs (hargs 2 rfl) fun _ =>
      failsOnly_runBinding hp he (fun s => s.errorIn_assign _) _ _
  | assignNonLocal =>
    exact failsOnly_expectArgs (hargs 2 rfl) fun _ =>
      failsOnly_runBinding hp he (fun s => s.errorIn_assignNonLocal _) _ _
  | branch => exact failsOnly_expectArgs (hargs 3 rfl) fun _ => failsOnly_runBranch hp he _ _ _
  -- From here on, operations that do not take their arguments apart.
  | sequence => exact failsOnly_foldlM (fun _ form => he form scope) _ _
  | add => exact (failsOnly_demand ((errorIn_sum _).imp hp)).bind fun _ => failsOnly_pure _
  | concat =>
    exact (failsOnly_demand ((errorIn_joined _).imp hp)).bind fun _ => failsOnly_allocate _
  | print => exact fun _ => errorIn_ok _
  | globalScope => exact fun _ => errorIn_ok _
  | list | currentScope => exact failsOnly_pure _
  | echo => exact failsOnly_runCons hp _ _

end Errors

end Builtin

/-! ## Calls -/

/-- The machine after a number of list cells have been made: only the next identity differs. -/
def Machine.withCells (m : Machine) (n : Nat) : Machine :=
  { m with store := { m.store with fresh := m.store.fresh + n } }

namespace Store

/-- A new list has the elements it is made of. -/
private theorem items_newList (s : Store) (vs : List Value) : (s.newList vs).1.items = vs := by
  induction vs with
  | nil => rfl
  | cons v vs ih =>
    show v :: (s.newList vs).1.items = v :: vs
    rw [ih]

/-- Making a list uses up one identity for each element and changes nothing else. -/
private theorem newList_snd (s : Store) (vs : List Value) :
    (s.newList vs).2 = { s with fresh := s.fresh + vs.length } := by
  -- The cells are made from the last to the first.
  induction vs with
  | nil => rfl
  | cons v vs ih =>
    show ((s.newList vs).2.newPair v (s.newList vs).1).2 = _
    rw [ih]
    rfl

end Store

namespace Machine

variable {m m₁ : Machine} {scope : ScopeId} {args : Value}

/-- The count of the argument forms is checked before anything else happens. -/
theorem run_apply_lambda_of_length_ne {params : List String} (h : args.length ≠ params.length)
    (kind : LambdaKind) (id : Identity) (body : Value) (captured : ScopeId) :
    m.run (apply (.lambda kind id params body captured) args scope) =
      (.error ((Arity.exactly params.length).refusal (Value.paramList params) args.length), m) := by
  have hcheck := Arity.check_of_not_admits (a := .exactly params.length) h (Value.paramList params)
  rw [run_apply]
  -- Functions and code-computing forms make the same check, in procedures of their own.
  cases kind with
  | function =>
    show m.run (applyFunction _ params body captured args scope) = _
    rw [applyFunction, run_bind, hcheck, run_demand]
  | expander =>
    show m.run (applyExpander _ params body captured args scope) = _
    rw [applyExpander, run_bind, hcheck, run_demand]

/-- A special form checks the count of its argument forms and then runs on them. -/
private theorem run_apply_specialForm {b : Native} (hkind : b.kind = .specialForm) :
    m.run (apply (.native b) args scope) =
      m.run (do
        demand (b.arity.check b.name args.length)
        b.run (evaluateWithin m.room) args scope) := by
  rw [run_apply, applyWith, hkind]

/-- The arguments of a function are evaluated before the count is checked. -/
theorem run_apply_function_of_inTurn {b : Native} (hkind : b.kind = .function) {vs : List Value}
    (h : InTurn scope m args.items vs m₁) :
    m.run (apply (.native b) args scope) =
      (m₁.withCells vs.length).run (do
        demand (b.arity.check b.name args.length)
        b.run (evaluateWithin m.room) (m₁.store.newList vs).1 scope) := by
  have hlength : (m₁.store.newList vs).1.length = args.length := by
    rw [Value.length, Store.items_newList, h.length_eq, Value.length]
  rw [run_apply, applyWith, hkind]
  simp only [evaluateArgs, bind_assoc]
  rw [run_bind, h.run_mapM]
  simp only [run_bind, run_allocate, hlength, Store.newList_snd]
  rfl

/-- A function fails with the first argument that fails. -/
private theorem run_apply_function_of_failsInTurn {b : Native} (hkind : b.kind = .function)
    {e : Error}
    (h : FailsInTurn scope m args.items e m₁) :
    m.run (apply (.native b) args scope) = (.error e, m₁) := by
  rw [run_apply, applyWith, hkind]
  simp only [evaluateArgs, bind_assoc]
  rw [run_bind, h.run_mapM]

/-- A step behind a refused count is not taken. -/
private theorem run_demand_check_of_not_admits {α : Type} {a : Arity} {got : Nat}
    (h : ¬ a.Admits got)
    (callee : String) (act : EvalM α) :
    m.run (do demand (a.check callee got); act) = (.error (a.refusal callee got), m) := by
  rw [run_bind, Arity.check_of_not_admits h, run_demand]

/-- A step behind an accepted count is taken as if nothing had been checked. -/
private theorem run_demand_check_of_admits {α : Type} {a : Arity} {got : Nat} (h : a.Admits got)
    (callee : String) (act : EvalM α) :
    m.run (do demand (a.check callee got); act) = m.run act := by
  rw [run_bind, Arity.check_eq_ok_iff.2 h, run_demand]

end Machine

/-- What `apply` does about the number of arguments.

    A lambda or a special form that is given a wrong number of argument forms is refused, and the
    machine stays as it is. A builtin function fails with the first of its arguments that fails in
    turn. If all of them succeed, a wrong number is refused then, with everything kept that the
    arguments did, and a right number is passed on in a new list.

    A builtin of the language that takes arguments apart does so first. It succeeds if their number
    is one that its arity admits. Whatever evaluation the builtin uses, an arity error is then one
    that an evaluation has given. -/
theorem apply_checks_argument_counts (m : Machine) (args : Value) (scope : ScopeId) :
    (∀ kind id params body captured, args.length ≠ params.length →
      m.run (apply (.lambda kind id params body captured) args scope) =
        (.error ((Arity.exactly params.length).refusal (Value.paramList params) args.length), m)) ∧
    (∀ b : Native, b.toBuiltin ∈ catalogue → b.kind = .specialForm →
      (¬ b.arity.Admits args.length → m.run (apply (.native b) args scope) =
        (.error (b.arity.refusal b.name args.length), m)) ∧
      (b.arity.Admits args.length → m.run (apply (.native b) args scope) =
        m.run (b.run (evaluateWithin m.room) args scope))) ∧
    (∀ b : Native, b.toBuiltin ∈ catalogue → b.kind = .function →
      (∀ e m₁, Machine.FailsInTurn scope m args.items e m₁ →
        m.run (apply (.native b) args scope) = (.error e, m₁)) ∧
      ∀ vs m₁, Machine.InTurn scope m args.items vs m₁ →
        (¬ b.arity.Admits args.length → m.run (apply (.native b) args scope) =
          (.error (b.arity.refusal b.name args.length), m₁.withCells vs.length)) ∧
        (b.arity.Admits args.length → ∃ values, values.items = vs ∧
          m.run (apply (.native b) args scope) =
            (m₁.withCells vs.length).run (b.run (evaluateWithin m.room) values scope))) ∧
    ∀ b ∈ catalogue, b.arity.Admits args.length →
      (∀ n, b.operation.operands = some n →
        (∀ evaluate, ∃ step : Vector Value n → EvalM Value, ∀ args,
          b.run evaluate args scope = (do step (← demand (args.expectArgs n b.name)))) ∧
        ∃ vs : Vector Value n, args.expectArgs n b.name = .ok vs ∧ vs.toList = args.items) ∧
      ∀ evaluate e, (m.run (b.run evaluate args scope)).1 = .error e → e.IsArity →
        ∃ v scope m', (Machine.run m' (evaluate v scope)).1 = .error e := by
  refine ⟨?_, ?_, ?_, ?_⟩
  -- Lambdas.
  · intro kind id params body captured hlength
    exact Machine.run_apply_lambda_of_length_ne hlength kind id body captured
  -- Special forms.
  · intro b _ hkind
    rw [Machine.run_apply_specialForm hkind]
    exact ⟨fun h => Machine.run_demand_check_of_not_admits h _ _,
      fun h => Machine.run_demand_check_of_admits h _ _⟩
  -- Functions, which evaluate their arguments first.
  · intro b _ hkind
    refine ⟨fun e m₁ h => Machine.run_apply_function_of_failsInTurn hkind h, fun vs m₁ h => ?_⟩
    rw [Machine.run_apply_function_of_inTurn hkind h]
    exact ⟨fun h => Machine.run_demand_check_of_not_admits h _ _,
      fun h => ⟨_, Store.items_newList _ _, Machine.run_demand_check_of_admits h _ _⟩⟩
  -- Builtins on a count that they admit.
  · intro b hb hadmits
    have hoperands : ∀ n, b.operation.operands = some n → args.length = n := by
      intro n hn
      rw [Builtin.arity_of_mem_catalogue hb hn] at hadmits
      exact hadmits
    refine ⟨fun n hn => ⟨fun evaluate => Builtin.exists_run_eq hn evaluate scope,
      Value.expectArgs_of_length_eq (hoperands n hn) b.name⟩, ?_⟩
    intro evaluate e hrun hcount
    -- Errors that are not about counts, and those of evaluations.
    have honly : FailsOnly (fun e => e.IsArity → ∃ v scope m',
        (Machine.run m' (evaluate v scope)).1 = .error e) (b.run evaluate args scope) := by
      apply Builtin.failsOnly_run
      · exact fun e hplain hcount => absurd hcount hplain.2
      · exact fun v scope m' e hrun _ => ⟨v, scope, m', hrun⟩
      · exact hoperands
    exact honly m e hrun hcount

/-- The first of two arguments prints. A builtin function that takes one argument is refused after
    that, a lambda that takes none before. -/
theorem counts_checked_around_print :
    let m := Machine.start .empty {}
    let print : Native := ⟨⟨"print", "", .function, .any, .print⟩, 0⟩
    let head : Native :=
      ⟨⟨"head", "First element of a non-empty list", .function, .exactly 1, .head⟩, 1⟩
    let args : Value := .pair 0 (.pair 1 (.native print) .nil) (.pair 2 (.bool true) .nil)
    head.toBuiltin ∈ catalogue ∧
    (m.run (apply (.native head) args 0)).1 = .error (.arity "head" (.exactly 1) 2 .tooMany) ∧
    (m.run (apply (.native head) args 0)).2.output = "\n" ∧
    m.run (apply (.lambda .function 3 [] .nil 0) args 0) =
      (.error (.arity "()" (.exactly 0) 2 .tooMany), m) := by
  intro m print head args
  have hmem : head.toBuiltin ∈ catalogue := by decide
  obtain ⟨hlambda, -, hfunction, -⟩ := apply_checks_argument_counts m args 0
  have hrefused := ((hfunction head hmem rfl).2 [.nil, .bool true] _
    (.form rfl (.form rfl (.done _)))).1 (show ¬ (2 = 1) by decide)
  refine ⟨hmem, ?_, ?_, hlambda .function 3 [] .nil 0 (by decide)⟩
  · rw [hrefused]
    rfl
  · rw [hrefused]
    rfl

end ScopeLisp
