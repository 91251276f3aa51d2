import ScopeLisp.Double.Text
import ScopeLisp.Store.Basic

/-!
# Text of values

Values are written as source text where source text can denote them. A scope is written with its
own bindings; a scope met again inside its own bindings is written `<environment>`, so the text is
finite even where scopes refer to themselves.
-/

namespace ScopeLisp

namespace Value

mutual

/-- The text of a value, with a text for each scope in it. -/
def render (scopeText : ScopeId → String) : Value → String
  | nil => "()"
  | bool b => if b then "#t" else "#f"
  | number x => x.text "Infinity"
  | string _ text => "\"" ++ text ++ "\""
  | symbol name => name
  | pair _ head tail => "(" ++ head.render scopeText ++ tail.renderRest scopeText ++ ")"
  | quoted _ inner => "'" ++ inner.render scopeText
  | native b => "<" ++ (native b).tag.name ++ " \"" ++ b.name ++ "\">"
  | lambda kind id params body scope =>
    "<" ++ (lambda kind id params body scope).tag.name ++ " " ++ paramList params ++ " -> " ++
      body.render scopeText ++ ">"
  | environment e => scopeText e

/-- The elements of the rest of a list, each after a space. -/
def renderRest (scopeText : ScopeId → String) : Value → String
  | pair _ head tail => " " ++ head.render scopeText ++ tail.renderRest scopeText
  | _ => ""

end

end Value

namespace Store

/-- The text of a scope that is being written inside the scopes `opened`. At most `room` scopes are
    not open yet; with none left, every scope is open. -/
def renderScope (s : Store) : (room : Nat) → (opened : List ScopeId) → ScopeId → String
  | 0, _, _ => "<environment>"
  | room + 1, opened, e =>
    if e ∈ opened then "<environment>"
    else
      -- What is bound in the scope is written inside of it.
      let binding := fun (name, v) => name ++ "=" ++ v.render (s.renderScope room (e :: opened))
      "<environment \x7b" ++ ", ".intercalate ((s.bindings e).entries.map binding) ++ "\x7d>"

/-- The text of a value, as close to source text as it can be. -/
def render (s : Store) (v : Value) : String :=
  v.render (s.renderScope s.scopes.size [])

/-- The text of a value for display: a string is its own text. -/
def display (s : Store) : Value → String
  | .string _ text => text
  | v => s.render v

/-- A scope with its depth and its names, for debugging. -/
def scopeRecord (s : Store) (e : ScopeId) : String :=
  Text.record "Environment"
    [("depth", (s.depth e).repr), ("names", Text.quotedList (s.bindings e).names)]

end Store

end ScopeLisp
