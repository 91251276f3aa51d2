import ScopeLisp.Builtin.Catalogue
import ScopeLisp.Store.Basic
import ScopeLisp.Text.Columns

/-!
# Registries

A registry holds builtins by name and puts them, with the three constants of the language, into a
scope. Each registration gets an identity of its own.
-/

namespace ScopeLisp

/-- Registered builtins by name, and the next unused identity. -/
structure Registry where
  builtins : NameMap Native
  fresh : Identity

namespace Registry

/-- The registry without builtins. -/
def empty : Registry := ⟨.empty, 0⟩

/-- Adds a builtin, over any builtin of the same name. -/
def register (r : Registry) (b : Builtin) : Registry :=
  ⟨r.builtins.insert b.name ⟨b, r.fresh⟩, r.fresh + 1⟩

/-- The registry of all builtins of the language. -/
def full : Registry :=
  catalogue.foldl register empty

/-- The builtin of a name. -/
def get (r : Registry) (name : String) : Except Error Native :=
  match r.builtins.find? name with
  | some b => .ok b
  | none => .error (.undefined name)

/-- Whether there is a builtin of a name. -/
def has (r : Registry) (name : String) : Bool :=
  r.builtins.contains name

/-- The names of all builtins, in ascending order. -/
def names (r : Registry) : List String :=
  r.builtins.names

/-- The number of builtins. -/
def count (r : Registry) : Nat :=
  r.builtins.size

/-- One line on a builtin, in columns. -/
def line (b : Builtin) : String :=
  let kind := match b.kind with
    | .function => Tag.builtin.name
    | .specialForm => Tag.specialForm.name
  Text.padTo 8 b.name ++ " " ++ Text.padTo 11 kind ++ " " ++ Text.padTo 3 b.arity.short ++ " " ++
    b.description

/-- One line on the builtin of a name. -/
def describe (r : Registry) (name : String) : Except Error String :=
  (line ·) <$> r.get name

/-- The constants that every program starts with. -/
def constants : List (String × Value) :=
  [("nil", .nil), ("true", .bool true), ("false", .bool false)]

/-- The builtins with their names, as bindings. -/
def bindings (r : Registry) : List (String × Value) :=
  r.builtins.entries.map fun (name, b) => (name, .native b)

end Registry

/-- Binds names in order. -/
def Store.bindAll (s : Store) (e : ScopeId) (entries : List (String × Value)) : Store :=
  entries.foldl (fun s (name, v) => s.bind e name v) s

/-- Binds the constants and then the builtins in a scope; a builtin goes over a constant of its
    name. Also the number of bindings made. -/
def Registry.install (r : Registry) (s : Store) (e : ScopeId) : Nat × Store :=
  (r.count + constants.length, (s.bindAll e constants).bindAll e r.bindings)

end ScopeLisp
