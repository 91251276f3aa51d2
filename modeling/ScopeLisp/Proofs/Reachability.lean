import ScopeLisp.Proofs.Correspondence

/-!
# Reachability

What can be got at from some scopes and values by following references in a store. Code gets from
a scope to its parent and to the values that it binds, and from a value to its parts and to the
scope that a lambda captured. A scope that is held as a value cannot be entered by code, but it
can be written out, so whether such a value leads to its scope depends on the `Sight`.

During a run, scopes are added. A scope is `Touchable` if it was reachable at the start or has been
added since.

## Key results

- `Reachable.within`: scopes that only lead to each other include all that are reachable from them
- `Reachable.all_refersWithin`: the scopes that parts of a reachable value refer to are reachable
- `Touchable.parent`, `Touchable.all_refersWithin_of_binding`: touchable scopes only lead to
  touchable scopes
- `Correspondence.closed_within`: a store is closed for runs that stay within touchable scopes
-/

namespace ScopeLisp

/-- What references lead from and to. -/
inductive Node where
  | scope (e : ScopeId)
  | value (v : Value)

/-- Which references count. -/
inductive Sight where
  /-- Those that code follows; a scope held as a value leads nowhere. -/
  | code
  /-- Those that are followed when values are written out, too. -/
  | text

namespace Store

/-- A node refers to another one. -/
inductive Leads (s : Store) : Sight → Node → Node → Prop where
  | parent {sight : Sight} {e p : ScopeId} :
      s.parent? e = some p → Leads s sight (.scope e) (.scope p)
  | binding {sight : Sight} {e : ScopeId} {name : String} {v : Value} :
      (s.bindings e).find? name = some v → Leads s sight (.scope e) (.value v)
  | head {sight : Sight} {id : Identity} {head tail : Value} :
      Leads s sight (.value (.pair id head tail)) (.value head)
  | tail {sight : Sight} {id : Identity} {head tail : Value} :
      Leads s sight (.value (.pair id head tail)) (.value tail)
  | inner {sight : Sight} {id : Identity} {inner : Value} :
      Leads s sight (.value (.quoted id inner)) (.value inner)
  | body {sight : Sight} {kind : LambdaKind} {id : Identity} {params : List String} {body : Value}
      {e : ScopeId} : Leads s sight (.value (.lambda kind id params body e)) (.value body)
  | captured {sight : Sight} {kind : LambdaKind} {id : Identity} {params : List String}
      {body : Value} {e : ScopeId} :
      Leads s sight (.value (.lambda kind id params body e)) (.scope e)
  | shown {e : ScopeId} : Leads s .text (.value (.environment e)) (.scope e)

/-- What the roots lead to, in any number of steps. -/
inductive Reachable (s : Store) (sight : Sight) (roots : List Node) : Node → Prop where
  | root {a : Node} : a ∈ roots → Reachable s sight roots a
  | step {a b : Node} : Reachable s sight roots a → s.Leads sight a b → Reachable s sight roots b

/-- A scope that is reachable, or that has been added since. -/
def Touchable (s : Store) (sight : Sight) (roots : List Node) (e : ScopeId) : Prop :=
  s.scopes.size ≤ e ∨ s.Reachable sight roots (.scope e)

end Store

/-- If the value itself refers to a scope, then to one that satisfies the condition. -/
def Value.RefersWithin (sight : Sight) (p : ScopeId → Prop) : Value → Prop
  | .lambda _ _ _ _ e => p e
  | .environment e => sight = .text → p e
  | _ => True

/-- A scope that satisfies the condition, or a value whose parts refer to such scopes only. -/
def Node.Within (sight : Sight) (p : ScopeId → Prop) : Node → Prop
  | .scope e => p e
  | .value v => v.All (Value.RefersWithin sight p)

namespace Store

variable {s : Store} {sight : Sight} {roots : List Node}

/-- Scopes that only lead to each other include all that are reachable from them. -/
theorem Reachable.within {q : ScopeId → Prop} {a : Node} (h : s.Reachable sight roots a)
    (hroots : ∀ r ∈ roots, r.Within sight q)
    (hparent : ∀ e p, q e → s.parent? e = some p → q p)
    (hbinding : ∀ e name v, q e → (s.bindings e).find? name = some v →
      v.All (Value.RefersWithin sight q)) : a.Within sight q := by
  -- By induction on the path. Parents and bindings are given; a value holds its own parts.
  induction h with
  | root hmem => exact hroots _ hmem
  | step _ hlead ih =>
    cases hlead with
    | parent hp => exact hparent _ _ ih hp
    | binding hv => exact hbinding _ _ _ ih hv
    | head => exact ih.2.1
    | tail => exact ih.2.2
    | inner => exact ih.2
    | body => exact ih.2
    | captured => exact ih.1
    | shown => exact ih rfl

/-- Every part of a reachable value refers to touchable scopes only. -/
theorem Reachable.all_refersWithin {v : Value} (h : s.Reachable sight roots (.value v)) :
    v.All (Value.RefersWithin sight (s.Touchable sight roots)) := by
  -- The parts of a value are reached from it, so the hypothesis is carried to each of them.
  induction v with
  | pair id head tail ihh iht => exact ⟨trivial, ihh (h.step .head), iht (h.step .tail)⟩
  | quoted id inner ih => exact ⟨trivial, ih (h.step .inner)⟩
  | lambda kind id params body e ih => exact ⟨.inr (h.step .captured), ih (h.step .body)⟩
  | environment e =>
    intro hsight
    subst hsight
    exact .inr (h.step .shown)
  | _ => trivial

/-- A scope among the roots is touchable. -/
theorem Touchable.of_mem {e : ScopeId} (h : .scope e ∈ roots) : s.Touchable sight roots e :=
  .inr (.root h)

/-- The parent of a touchable scope is touchable. -/
theorem Touchable.parent {e p : ScopeId} (h : s.Touchable sight roots e)
    (hp : s.parent? e = some p) : s.Touchable sight roots p := by
  rcases h with hnew | hreach
  · -- A scope that does not exist yet has no parent.
    rw [parent?_of_size_le s e hnew] at hp
    exact nomatch hp
  · exact .inr (hreach.step (.parent hp))

/-- What a touchable scope binds refers to touchable scopes only. -/
theorem Touchable.all_refersWithin_of_binding {e : ScopeId} {name : String} {v : Value}
    (h : s.Touchable sight roots e) (hv : (s.bindings e).find? name = some v) :
    v.All (Value.RefersWithin sight (s.Touchable sight roots)) := by
  rcases h with hnew | hreach
  -- A scope that does not exist yet binds nothing.
  · rw [bindings_of_size_le s e hnew] at hv
    exact nomatch hv
  · exact (hreach.step (.binding hv)).all_refersWithin

end Store

/-! ## Runs within some scopes -/

namespace Correspondence

/-- Two runs that never part, and that only touch scopes which satisfy a condition. -/
def within (sight : Sight) (p : ScopeId → Prop) (machines : Machine → Machine → Prop) :
    Correspondence where
  machines := machines
  stopped _ _ _ := False
  error _ := True
  scope _ := p
  part _ := Value.RefersWithin sight p

/-- Values that refer within some scopes are kept by everything that builds values. -/
theorem lawfulValues_within (sight : Sight) (p : ScopeId → Prop)
    (machines : Machine → Machine → Prop) : (within sight p machines).LawfulValues where
  scope_mono _ h := h
  scope_of_succ h _ := h
  part_mono _ h := h
  part_nil := trivial
  part_bool := trivial
  part_string := trivial
  part_zero := trivial
  part_one := trivial
  part_add _ _ := trivial
  part_pair _ := trivial
  part_echo _ _ := trivial
  part_lambda := Iff.rfl
  part_environment h _ := h

/-- A store is closed for runs that stay within the scopes which are touchable in it. -/
theorem closed_within (s : Store) (sight : Sight) (roots : List Node)
    (machines : Machine → Machine → Prop) :
    (within sight (s.Touchable sight roots) machines).Closed s where
  parent h hp := h.parent hp
  binding h hv := h.all_refersWithin_of_binding hv

end Correspondence

end ScopeLisp
