import ScopeLisp.Datum
import ScopeLisp.NameMap
import ScopeLisp.Value.Basic

/-!
# Stores

A store holds the scopes of a run and the next unused identity. A scope binds names and may have a
parent; the chain of a scope is the scope itself, its parent, and so on. `Store.lookup`,
`Store.owner?`, `Store.root` and `Store.depth` all go along the chain.

A scope is never removed and its parent never changes. What an operation does to the bindings is
said by `Store.bindings_bind`, and that it leaves the chains alone by `Store.chain_bind`.
-/

namespace ScopeLisp

/-- Names bound together, inside a parent scope or at the outermost level. -/
structure Scope where
  parent : Option ScopeId
  bindings : NameMap Value

/-- The scopes of a run and the next unused identity. -/
structure Store where
  scopes : Array Scope
  fresh : Identity

namespace Store

/-- The store without scopes. -/
def empty : Store := ⟨#[], 0⟩

/-! ## Scopes -/

/-- The names that a scope itself binds. -/
def bindings (s : Store) (e : ScopeId) : NameMap Value :=
  (s.scopes[e]?).elim .empty (·.bindings)

/-- The parent of a scope. -/
def parent? (s : Store) (e : ScopeId) : Option ScopeId :=
  (s.scopes[e]?).bind (·.parent)

/-- The first `fuel` scopes of the chain of a scope. -/
def chainUpTo (s : Store) : (fuel : Nat) → ScopeId → List ScopeId
  | 0, _ => []
  | fuel + 1, e => e :: (s.parent? e).elim [] (s.chainUpTo fuel)

/-- A scope and the scopes around it, from the inside out. Parents do not form a cycle, so no chain
    is longer than the number of scopes. -/
def chain (s : Store) (e : ScopeId) : List ScopeId :=
  s.chainUpTo s.scopes.size e

/-- The outermost scope around a scope. -/
def root (s : Store) (e : ScopeId) : ScopeId :=
  (s.chain e).getLastD e

/-- The number of scopes in the chain of a scope. -/
def depth (s : Store) (e : ScopeId) : Nat :=
  (s.chain e).length

/-- Whether a scope itself binds a name. -/
def binds (s : Store) (e : ScopeId) (name : String) : Bool :=
  (s.bindings e).contains name

/-- The nearest scope of a chain that binds a name. -/
def owner? (s : Store) (e : ScopeId) (name : String) : Option ScopeId :=
  (s.chain e).find? (s.binds · name)

/-- What a name means in a scope. -/
def lookup (s : Store) (e : ScopeId) (name : String) : Except Error Value :=
  match (s.chain e).findSome? fun o => (s.bindings o).find? name with
  | some v => .ok v
  | none => .error (.undefined name)

/-- Whether a name means anything in a scope. -/
def resolves (s : Store) (e : ScopeId) (name : String) : Bool :=
  (s.lookup e name).toOption.isSome

/-- A new scope without bindings. -/
def newScope (s : Store) (parent : Option ScopeId) : ScopeId × Store :=
  (s.scopes.size, { s with scopes := s.scopes.push ⟨parent, .empty⟩ })

/-- Binds a name in a scope, over what it was bound to before. -/
def bind (s : Store) (e : ScopeId) (name : String) (v : Value) : Store :=
  { s with scopes := s.scopes.modify e fun scope =>
      { scope with bindings := scope.bindings.insert name v } }

/-- Binds a name that the scope itself does not bind yet. -/
def define (s : Store) (e : ScopeId) (name : String) (v : Value) : Except Error Store :=
  if s.binds e name then .error (.duplicateDefinition name) else .ok (s.bind e name v)

/-- Changes a binding of the scope itself. -/
def assign (s : Store) (e : ScopeId) (name : String) (v : Value) : Except Error Store :=
  if s.binds e name then .ok (s.bind e name v) else .error (.undefinedHere name)

/-- Changes the binding of a name in the nearest scope that has one. -/
def assignNonLocal (s : Store) (e : ScopeId) (name : String) (v : Value) : Except Error Store :=
  match s.owner? e name with
  | some o => .ok (s.bind o name v)
  | none => .error (.undefined name)

/-! ## Values with an identity -/

/-- An identity that no value has yet. -/
def newIdentity (s : Store) : Identity × Store :=
  (s.fresh, { s with fresh := s.fresh + 1 })

/-- A new string. -/
def newString (s : Store) (text : String) : Value × Store :=
  let (id, s) := s.newIdentity
  (.string id text, s)

/-- A new list cell. -/
def newPair (s : Store) (head tail : Value) : Value × Store :=
  let (id, s) := s.newIdentity
  (.pair id head tail, s)

/-- A new quoted value. -/
def newQuoted (s : Store) (inner : Value) : Value × Store :=
  let (id, s) := s.newIdentity
  (.quoted id inner, s)

/-- A new lambda. -/
def newLambda (s : Store) (kind : LambdaKind) (params : List String) (body : Value)
    (scope : ScopeId) : Value × Store :=
  let (id, s) := s.newIdentity
  (.lambda kind id params body scope, s)

/-- A new list. -/
def newList (s : Store) : List Value → Value × Store
  | [] => (.nil, s)
  | v :: vs =>
    let (tail, s) := s.newList vs
    s.newPair v tail

/-- Puts a value in front of a list. -/
def cons (s : Store) (head tail : Value) : Except Error (Value × Store) :=
  if tail.isList then .ok (s.newPair head tail) else .error (.type .list tail.tag)

/-- A datum as a new value. -/
def load (s : Store) : Datum → Value × Store
  | .nil => (.nil, s)
  | .number x => (.number x, s)
  | .string text => s.newString text
  | .symbol name => (.symbol name, s)
  | .pair head tail =>
    let (head, s) := s.load head
    let (tail, s) := s.load tail
    s.newPair head tail
  | .quoted inner =>
    let (inner, s) := s.load inner
    s.newQuoted inner

/-! ## Laws of binding -/

/-- Binding a name changes that name in that scope and nothing else. -/
theorem bindings_bind (s : Store) (e f : ScopeId) (name : String) (v : Value) :
    (s.bind e name v).bindings f =
      if e = f ∧ e < s.scopes.size then (s.bindings f).insert name v else s.bindings f := by
  simp only [bindings, bind, Array.getElem?_modify]
  by_cases hef : e = f
  · subst hef
    by_cases he : e < s.scopes.size <;> simp [he]
  · simp [hef]

/-- Binding a name changes no parent. -/
@[simp] theorem parent?_bind (s : Store) (e f : ScopeId) (name : String) (v : Value) :
    (s.bind e name v).parent? f = s.parent? f := by
  simp only [parent?, bind, Array.getElem?_modify]
  split
  · cases s.scopes[f]? <;> rfl
  · rfl

/-- Binding a name makes no scope. -/
@[simp] theorem size_bind (s : Store) (e : ScopeId) (name : String) (v : Value) :
    (s.bind e name v).scopes.size = s.scopes.size :=
  Array.size_modify

/-- Binding a name changes no part of a chain. -/
theorem chainUpTo_bind (s : Store) (e : ScopeId) (name : String) (v : Value) (fuel : Nat)
    (f : ScopeId) : (s.bind e name v).chainUpTo fuel f = s.chainUpTo fuel f := by
  induction fuel generalizing f with
  | zero => rfl
  | succ n ih =>
    simp only [chainUpTo, parent?_bind]
    cases s.parent? f with
    | none => rfl
    | some p => simp [ih]

/-- Binding a name does not change which scopes are around a scope. -/
@[simp] theorem chain_bind (s : Store) (e : ScopeId) (name : String) (v : Value) (f : ScopeId) :
    (s.bind e name v).chain f = s.chain f := by
  simp only [chain, size_bind, chainUpTo_bind]

/-! ## Laws of new scopes -/

section NewScope

variable (s : Store) (p : Option ScopeId) (e : ScopeId)

/-- A new scope is one more. -/
@[simp] theorem size_newScope : (s.newScope p).2.scopes.size = s.scopes.size + 1 :=
  Array.size_push ..

/-- A new scope has the parent it was given; the other parents stay. -/
theorem parent?_newScope : (s.newScope p).2.parent? e =
    if e = s.scopes.size then p else s.parent? e := by
  simp only [parent?, newScope, Array.getElem?_push]
  split
  · rfl
  · rfl

/-- A new scope binds nothing, and the bindings of the others stay. -/
theorem bindings_newScope : (s.newScope p).2.bindings e = s.bindings e := by
  simp only [bindings, newScope, Array.getElem?_push]
  split
  -- The new scope binds what a scope that is not there binds: nothing.
  · next h => simp [h]
  · rfl

/-- A scope that is not there binds nothing. -/
theorem bindings_of_size_le (h : s.scopes.size ≤ e) : s.bindings e = .empty := by
  simp [bindings, h]

/-- A scope that is not there has no parent. -/
theorem parent?_of_size_le (h : s.scopes.size ≤ e) : s.parent? e = none := by
  simp [parent?, h]

end NewScope

end Store

end ScopeLisp
