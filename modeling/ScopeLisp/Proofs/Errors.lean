import ScopeLisp.Evaluation.Operation

/-!
# Errors of pure operations

Most of what a builtin computes does not look at the machine: it checks an argument, takes a value
apart or adds numbers up. Such a computation either succeeds or gives one of a few errors, and which
ones these are is said by a condition on errors (`ErrorIn`). The condition holds of a computation
made of several parts if it holds of the parts.

## Key results

- `ErrorIn.bind`, `errorIn_mapM`, `errorIn_foldlM`: conditions on the errors of compound
  computations
- `Builtin.errorIn_parameterNames`, `Builtin.errorIn_sum`, `Builtin.errorIn_uncons` and the like:
  the computations of builtins give plain errors only
- `Value.errorIn_expectArgs`, `Arity.errorIn_check`: checks of argument counts give ordinary errors
-/

namespace ScopeLisp

namespace Error

/-- Errors of single steps: neither faults of a text nor the limit on nesting. -/
def Ordinary : Error → Prop
  | .malformed _ | .recursionLimit _ => False
  | _ => True

/-- Whether an error is about a number of arguments. -/
def IsArity : Error → Prop
  | .arity .. => True
  | _ => False

/-- Errors of single steps that are not about a number of arguments. -/
def IsPlain (e : Error) : Prop :=
  e.Ordinary ∧ ¬ e.IsArity

end Error

/-! ## Conditions on errors -/

/-- If the result is an error, then one that satisfies the condition. -/
def ErrorIn {α : Type} (p : Error → Prop) (r : Except Error α) : Prop :=
  ∀ e, r = .error e → p e

section Results

variable {α β : Type} {p q : Error → Prop} {r : Except Error α}

/-- A success satisfies every condition on errors. -/
theorem errorIn_ok (a : α) : ErrorIn p (.ok a) := nofun

/-- A failure satisfies the conditions that its error satisfies. -/
theorem errorIn_error {e : Error} (he : p e) : ErrorIn (α := α) p (.error e) :=
  fun _ h => Except.error.inj h ▸ he

/-- A condition may be replaced by one that follows from it. -/
theorem ErrorIn.imp (hr : ErrorIn p r) (h : ∀ e, p e → q e) : ErrorIn q r :=
  fun e he => h e (hr e he)

/-- Plain errors are ordinary. -/
theorem ErrorIn.ordinary (hr : ErrorIn Error.IsPlain r) : ErrorIn Error.Ordinary r :=
  hr.imp fun _ he => he.1

/-- A computation followed by another gives the errors of both. -/
theorem ErrorIn.bind (hr : ErrorIn p r) {f : α → Except Error β} (hf : ∀ a, ErrorIn p (f a)) :
    ErrorIn p (r >>= f) := by
  cases r with
  | error e => exact errorIn_error (hr e rfl)
  | ok a => exact hf a

/-- Computing on all elements of a list gives the errors of the single computations. -/
theorem errorIn_mapM {f : α → Except Error β} (hf : ∀ a, ErrorIn p (f a)) (l : List α) :
    ErrorIn p (l.mapM f) := by
  induction l with
  | nil => exact errorIn_ok _
  | cons a l ih =>
    rw [List.mapM_cons]
    apply (hf a).bind
    intro b
    exact ih.bind fun bs => errorIn_ok _

/-- Going through a list with an accumulator gives the errors of the single steps. -/
theorem errorIn_foldlM {f : β → α → Except Error β} (hf : ∀ b a, ErrorIn p (f b a))
    (l : List α) (b : β) : ErrorIn p (l.foldlM f b) := by
  induction l generalizing b with
  | nil => exact errorIn_ok b
  | cons a l ih =>
    rw [List.foldlM_cons]
    exact (hf b a).bind ih

end Results

/-! ## Values and counts -/

/-- A value that is no symbol is of the wrong type. -/
theorem Value.errorIn_asSymbol (v : Value) : ErrorIn Error.IsPlain v.asSymbol := by
  cases v with
  | symbol => exact errorIn_ok _
  | _ => exact errorIn_error ⟨trivial, nofun⟩

/-- A value that is no string is of the wrong type. -/
theorem Value.errorIn_asString (v : Value) : ErrorIn Error.IsPlain v.asString := by
  cases v with
  | string => exact errorIn_ok _
  | _ => exact errorIn_error ⟨trivial, nofun⟩

/-- Taking arguments apart fails at most on their number. -/
theorem Value.errorIn_expectArgs (n : Nat) (callee : String) (args : Value) :
    ErrorIn Error.Ordinary (args.expectArgs n callee) := by
  unfold expectArgs
  dsimp only
  split
  · exact errorIn_ok _
  · exact errorIn_error trivial

/-- A check of a count fails at most on the count. -/
theorem Arity.errorIn_check (a : Arity) (callee : String) (got : Nat) :
    ErrorIn Error.Ordinary (a.check callee got) := by
  unfold check
  split
  · exact errorIn_ok _
  · exact errorIn_error trivial

/-! ## What builtins compute -/

namespace Builtin

/-- A parameter list that is no list, or holds something that is no symbol, is of the wrong type. -/
theorem errorIn_parameterNames (params : Value) :
    ErrorIn Error.IsPlain (parameterNames params) := by
  unfold parameterNames
  split
  · exact errorIn_mapM Value.errorIn_asSymbol _
  · exact errorIn_error ⟨trivial, nofun⟩

/-- What cannot be added is of the wrong type. -/
theorem errorIn_addend (v : Value) : ErrorIn Error.IsPlain (addend v) := by
  cases v with
  | number => exact errorIn_ok _
  | bool => exact errorIn_ok _
  | _ => exact errorIn_error ⟨trivial, nofun⟩

/-- A sum fails at most on one of its terms. -/
theorem errorIn_sum (values : List Value) : ErrorIn Error.IsPlain (sum values) := by
  apply errorIn_foldlM
  intro acc v
  exact (errorIn_addend v).bind fun _ => errorIn_ok _

/-- Joining strings fails at most on a value that is none. -/
theorem errorIn_joined (values : List Value) : ErrorIn Error.IsPlain (joined values) :=
  (errorIn_mapM Value.errorIn_asString values).bind fun _ => errorIn_ok _

/-- What has no head and tail is the empty list or of the wrong type. -/
theorem errorIn_uncons (callee : String) (v : Value) : ErrorIn Error.IsPlain (uncons callee v) := by
  cases v with
  | pair => exact errorIn_ok _
  | _ => exact errorIn_error ⟨trivial, nofun⟩

/-- A value that is no lambda is of the wrong type. -/
theorem errorIn_lambdaParts (v : Value) : ErrorIn Error.IsPlain (lambdaParts v) := by
  cases v with
  | lambda => exact errorIn_ok _
  | _ => exact errorIn_error ⟨trivial, nofun⟩

end Builtin

/-! ## Changes of scopes -/

namespace Store

variable (s : Store) (e : ScopeId) (name : String) (v : Value)

/-- A lookup fails at most on a name without meaning. -/
theorem errorIn_lookup : ErrorIn Error.IsPlain (s.lookup e name) := by
  unfold lookup
  split
  · exact errorIn_ok _
  · exact errorIn_error ⟨trivial, nofun⟩

/-- A definition fails at most on a name that the scope binds already. -/
theorem errorIn_define : ErrorIn Error.IsPlain (s.define e name v) := by
  unfold define
  split
  · exact errorIn_error ⟨trivial, nofun⟩
  · exact errorIn_ok _

/-- An assignment fails at most on a name that the scope does not bind. -/
theorem errorIn_assign : ErrorIn Error.IsPlain (s.assign e name v) := by
  unfold assign
  split
  · exact errorIn_ok _
  · exact errorIn_error ⟨trivial, nofun⟩

/-- A non-local assignment fails at most on a name that no scope of the chain binds. -/
theorem errorIn_assignNonLocal : ErrorIn Error.IsPlain (s.assignNonLocal e name v) := by
  unfold assignNonLocal
  split
  · exact errorIn_ok _
  · exact errorIn_error ⟨trivial, nofun⟩

/-- Putting a value in front fails at most on what is no list. -/
theorem errorIn_cons (head tail : Value) : ErrorIn Error.IsPlain (s.cons head tail) := by
  unfold cons
  split
  · exact errorIn_ok _
  · exact errorIn_error ⟨trivial, nofun⟩

end Store

end ScopeLisp
