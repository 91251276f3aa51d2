import ScopeLisp.Builtin.Registry
import ScopeLisp.Store.Render

/-!
# Machines

The state that evaluation runs on: the store, the global scope, the settings, the current nesting
of evaluations, the text printed so far and the log of what happened. `EvalM` is a step on a
machine that may fail; a failing step keeps what it did before it failed.

Evaluation touches a machine only through the steps of this module.
-/

namespace ScopeLisp

/-- Settings of a machine. -/
structure Config where
  /-- How deeply evaluations may be nested. -/
  maxDepth : Nat := 256
  /-- Whether expansions are logged. -/
  traceExpansions : Bool := false
deriving DecidableEq

/-- An entry of the log. -/
inductive Event where
  /-- A user-defined function is called, at a nesting of evaluations. -/
  | call (params : String) (depth : Nat)
  /-- A code-computing form has turned its arguments into code. -/
  | expansion (params input output : String)
  /-- An evaluation would be nested too deeply. -/
  | depthLimit (limit : Nat)
  /-- Bindings were put into the global scope. -/
  | installed (count : Nat)
deriving DecidableEq

/-- The state of a run. -/
structure Machine where
  store : Store
  globals : ScopeId
  config : Config
  /-- The current nesting of evaluations. -/
  depth : Nat
  /-- Everything printed so far. -/
  output : String
  /-- Everything logged so far. -/
  events : Array Event

/-- A machine whose global scope holds the builtins of a registry. -/
def Machine.start (registry : Registry) (config : Config) : Machine :=
  let (globals, store) := Store.empty.newScope none
  let (count, store) := registry.install store globals
  { store, globals, config, depth := 0, output := "", events := #[.installed count] }

/-- A step of evaluation. -/
abbrev EvalM := ExceptT Error (StateM Machine)

namespace EvalM

variable {α : Type}

/-- A result that does not depend on the machine. -/
def demand (result : Except Error α) : EvalM α :=
  ExceptT.mk (pure result)

/-- Something read off the store. -/
def readStore (f : Store → α) : EvalM α := do
  return f (← get).store

/-- A change of the store that may be refused, with its result. -/
def transact (f : Store → Except Error (α × Store)) : EvalM α := do
  let m ← get
  let (a, store) ← demand (f m.store)
  set { m with store }
  return a

/-- Something new in the store. -/
def allocate (f : Store → α × Store) : EvalM α :=
  transact fun s => .ok (f s)

/-- A change of the store that may be refused. -/
def update (f : Store → Except Error Store) : EvalM Unit :=
  transact fun s => ((), ·) <$> f s

/-- Prints a text. -/
def write (text : String) : EvalM Unit :=
  modify fun m => { m with output := m.output ++ text }

/-- Logs an event. -/
def emit (event : Event) : EvalM Unit :=
  modify fun m => { m with events := m.events.push event }

/-- Runs a step one level deeper, and comes back up whether it succeeds or not. -/
def nested (act : EvalM α) : EvalM α := ExceptT.mk do
  modify fun m => { m with depth := m.depth + 1 }
  let outcome ← act.run
  modify fun m => { m with depth := m.depth - 1 }
  return outcome

end EvalM

/-- Runs a step on a machine. -/
def Machine.run {α : Type} (m : Machine) (act : EvalM α) : Except Error α × Machine :=
  StateT.run (ExceptT.run act) m

namespace Machine

/-! ## What each step does to a machine -/

variable {α β : Type} (m : Machine)

/-- A result leaves the machine alone. -/
@[simp] theorem run_pure (a : α) : m.run (pure a) = (.ok a, m) := rfl

/-- An error leaves the machine alone. -/
@[simp] theorem run_throw (e : Error) : m.run (throw e : EvalM α) = (.error e, m) := rfl

/-- Looking at the machine leaves it alone. -/
@[simp] theorem run_get : m.run get = (.ok m, m) := rfl

/-- The second of two steps runs on the machine that the first leaves, unless that failed. -/
theorem run_bind (act : EvalM α) (next : α → EvalM β) :
    m.run (act >>= next) =
      match m.run act with
      | (.ok a, m') => m'.run (next a)
      | (.error e, m') => (.error e, m') := by
  unfold Machine.run ExceptT.run StateT.run
  -- Both sides are now matches on what the first step gives.
  simp only [bind, ExceptT.bind, ExceptT.mk, StateT.bind, ExceptT.bindCont]
  cases act m with
  | mk outcome m' => cases outcome <;> rfl

/-- What does not depend on the machine leaves it alone. -/
@[simp] theorem run_demand (result : Except Error α) :
    m.run (EvalM.demand result) = (result, m) := rfl

/-- Reading the store leaves the machine alone. -/
@[simp] theorem run_readStore (f : Store → α) :
    m.run (EvalM.readStore f) = (.ok (f m.store), m) := rfl

/-- A refused change leaves the machine as it was. -/
theorem run_transact (f : Store → Except Error (α × Store)) :
    m.run (EvalM.transact f) =
      match f m.store with
      | .ok (a, store) => (.ok a, { m with store })
      | .error e => (.error e, m) := by
  unfold EvalM.transact
  rw [run_bind, run_get]
  dsimp only
  rw [run_bind, run_demand]
  cases f m.store <;> rfl

/-- An allocation changes the store only, and never fails. -/
@[simp] theorem run_allocate (f : Store → α × Store) :
    m.run (EvalM.allocate f) = (.ok (f m.store).1, { m with store := (f m.store).2 }) :=
  run_transact m _

/-- A change without a result: a refused one leaves the machine as it was. -/
theorem run_update (f : Store → Except Error Store) :
    m.run (EvalM.update f) =
      match f m.store with
      | .ok store => (.ok (), { m with store })
      | .error e => (.error e, m) := by
  unfold EvalM.update
  rw [run_transact]
  cases f m.store <;> rfl

/-- Printing adds to the output and does nothing else. -/
@[simp] theorem run_write (text : String) :
    m.run (EvalM.write text) = (.ok (), { m with output := m.output ++ text }) := rfl

/-- Logging adds an event and does nothing else. -/
@[simp] theorem run_emit (event : Event) :
    m.run (EvalM.emit event) = (.ok (), { m with events := m.events.push event }) := rfl

/-- A nested step runs one level deeper and comes back up, whatever its outcome. -/
theorem run_nested (act : EvalM α) :
    m.run (EvalM.nested act) =
      let (outcome, m') := { m with depth := m.depth + 1 }.run act
      (outcome, { m' with depth := m'.depth - 1 }) := rfl

end Machine

end ScopeLisp
