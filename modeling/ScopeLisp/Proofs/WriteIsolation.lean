import ScopeLisp.Proofs.Evaluation
import ScopeLisp.Proofs.Reachability

/-!
# Evaluation changes only what code reaches

Evaluation moves between scopes through lambdas, code-computing forms and `eval`, and changes
bindings on the way. It can still not get at a scope that neither the expression nor the scope it
is evaluated in leads to: such a scope keeps its bindings, whatever else happens and however the
evaluation ends. To hold a scope as a value gives no way to change it.

The invariant of a run is that all scopes it enters and all lambdas it holds are `Touchable`, and
that the other scopes bind what they did at the start.

## Key results

- `bindings_evaluate_of_not_reachable`: scopes out of reach keep their bindings
-/

namespace ScopeLisp

open Correspondence

/-- Scopes outside of those given bind what they bind in the store given, and no scope has been
    removed. -/
structure Machine.Undisturbed (m : Machine) (s : Store) (p : ScopeId → Prop) : Prop where
  size_le : s.scopes.size ≤ m.extent
  bindings_eq : ∀ e, ¬ p e → m.store.bindings e = s.bindings e

/-- A run beside itself, where scopes outside of those given keep the bindings they have in the
    store given. -/
def Correspondence.isolation (s : Store) (p : ScopeId → Prop) : Correspondence :=
  within .code p fun m m' => m' = m ∧ m.Undisturbed s p

namespace Machine.Undisturbed

variable {m : Machine} {s : Store} {p : ScopeId → Prop}

/-- A new scope disturbs none of the others. -/
private theorem newScope (h : m.Undisturbed s p) (parent : Option ScopeId) :
    Undisturbed { m with store := (m.store.newScope parent).2 } s p := by
  constructor
  · have hsize : (m.store.newScope parent).2.scopes.size = m.store.scopes.size + 1 :=
      Store.size_newScope ..
    have hle := h.size_le
    simp only [Machine.extent] at hle ⊢
    omega
  · intro e he
    -- A new scope binds nothing, just as a scope that does not exist.
    rw [Store.bindings_newScope]
    exact h.bindings_eq e he

/-- A binding made in one of the scopes given disturbs none of the others. -/
private theorem bind (h : m.Undisturbed s p) {e : ScopeId} (he : p e) (name : String) (v : Value) :
    Undisturbed { m with store := m.store.bind e name v } s p := by
  constructor
  · have hle := h.size_le
    simp only [Machine.extent, Store.size_bind] at hle ⊢
    exact hle
  · intro f hf
    -- The scope that changes is among those given, so it is not `f`.
    have hne : e ≠ f := fun hef => hf (hef ▸ he)
    rw [Store.bindings_bind, if_neg fun hcond => hne hcond.1]
    exact h.bindings_eq f hf

/-- A change of the machine that leaves the store alone. -/
theorem of_store_eq (h : m.Undisturbed s p) {m' : Machine} (hstore : m'.store = m.store) :
    m'.Undisturbed s p := by
  refine ⟨?_, fun e he => ?_⟩
  · rw [Machine.extent, hstore]
    exact h.size_le
  · rw [hstore]
    exact h.bindings_eq e he

end Machine.Undisturbed

namespace Correspondence

variable {s : Store} {p : ScopeId → Prop}

/-- Every operation of the machine leaves the scopes outside of those given alone. -/
private theorem lawful_isolation (hnew : ∀ e, s.scopes.size ≤ e → p e) :
    (isolation s p).Lawful where
  toLawfulValues := lawfulValues_within ..
  error _ := trivial
  extent_eq h := h.1 ▸ rfl
  fresh_eq h := h.1 ▸ rfl
  globals_eq h := h.1 ▸ rfl
  parent_eq h _ := h.1 ▸ rfl
  bindings_eq h _ := h.1 ▸ rfl
  render_eq h _ _ := h.1 ▸ rfl
  part_globals := nofun
  scope_extent h := hnew _ h.2.size_le
  newIdentity := by
    intro m m' hm
    obtain ⟨rfl, h⟩ := hm
    exact ⟨rfl, h.size_le, h.bindings_eq⟩
  newScope := by
    intro m m' q hm _
    obtain ⟨rfl, h⟩ := hm
    exact ⟨rfl, h.newScope _⟩
  -- The scope that is written to has been entered, so it is among those given.
  bind := by
    intro m m' e name v hm he _
    obtain ⟨rfl, h⟩ := hm
    exact ⟨rfl, h.bind he name v⟩
  write := by
    intro m m' text hm
    obtain ⟨rfl, h⟩ := hm
    exact ⟨rfl, h.of_store_eq rfl⟩
  call := by
    intro m m' params hm
    obtain ⟨rfl, h⟩ := hm
    exact ⟨rfl, h.of_store_eq rfl⟩
  trace := by
    intro m m' params args code hm _ _ _
    obtain ⟨rfl, h⟩ := hm
    refine ⟨rfl, h.of_store_eq ?_⟩
    unfold Machine.traced
    split <;> rfl
  scope_of_stopped := False.elim
  part_of_stopped := False.elim
  stopped_store := False.elim
  stopped_write := False.elim
  stopped_emit := False.elim

/-- Counting nested evaluations leaves the store alone. -/
private theorem nests_isolation : (isolation s p).Nests where
  enter := by
    intro m m' hm
    obtain ⟨rfl, h⟩ := hm
    exact ⟨rfl, h.of_store_eq rfl⟩
  leave := by
    intro m m' hm
    obtain ⟨rfl, h⟩ := hm
    exact ⟨rfl, h.of_store_eq rfl⟩
  stopped _ _ := False.elim

/-- A machine beside itself has the same room and the same limit. -/
private theorem sharesLimit_isolation : (isolation s p).SharesLimit where
  room_eq h := h.1 ▸ rfl
  limit_eq h := h.1 ▸ rfl
  refuse := by
    intro m m' limit hm
    obtain ⟨rfl, h⟩ := hm
    exact ⟨rfl, h.of_store_eq rfl⟩
  error _ := trivial

end Correspondence

/-- A scope that neither the expression nor the scope of its evaluation leads to keeps exactly the
    bindings it has, whether the evaluation succeeds or fails. -/
theorem bindings_evaluate_of_not_reachable (m : Machine) (v : Value) (env f : ScopeId)
    (hf : f < m.extent)
    (hreach : ¬ m.store.Reachable .code [.scope env, .value v] (.scope f)) :
    (m.run (evaluate v env)).2.store.bindings f = m.store.bindings f := by
  let p := m.store.Touchable .code [.scope env, .value v]
  have hlawful : (isolation m.store p).Lawful := lawful_isolation fun e he => .inl he
  have htracks := tracks_evaluate_of_sharesLimit hlawful nests_isolation sharesLimit_isolation
  have henv : p env := .of_mem List.mem_cons_self
  have hv : v.All (Value.RefersWithin .code p) :=
    (Store.Reachable.root (List.mem_cons_of_mem _ List.mem_cons_self)).all_refersWithin
  -- Nothing has changed yet, and what is reachable only leads to what is reachable.
  have hstart : (isolation m.store p).machines m m := ⟨rfl, Nat.le_refl _, fun _ _ => rfl⟩
  have hout := (htracks hv henv).together m m (Nat.le_refl _) hstart (closed_within ..)
  have hend := (hout.eq_and_machines fun _ _ _ => id).2.2
  -- The scope existed before, so it is touchable only if it is reachable.
  have hnot : ¬ p f := by
    rintro (hnew | h)
    · exact Nat.not_lt.2 hnew hf
    · exact hreach h
  exact hend.bindings_eq f hnot

/-- A machine whose global scope binds `bump`, a function that changes `count` in the scope that it
    captured, and holds another scope with a `count` as a value. -/
def counterMachine : Machine where
  store :=
    let setCount : Value :=
      .pair 0 (.native ⟨⟨"set*", "", .specialForm, .exactly 2, .assignNonLocal⟩, 0⟩)
        (.pair 1 (.symbol "count") (.pair 2 (.bool true) .nil))
    let bump : Value := .lambda .function 3 [] setCount 1
    { scopes := #[⟨none, ⟨[("bump", bump), ("held", .environment 2)], by decide⟩⟩,
        ⟨some 0, ⟨[("count", .nil)], by decide⟩⟩, ⟨some 0, ⟨[("count", .nil)], by decide⟩⟩]
      fresh := 4 }
  globals := 0
  config := {}
  depth := 0
  output := ""
  events := #[]

/-- The scope held as a value is out of the reach of code. -/
private theorem not_reachable_counterMachine :
    ¬ counterMachine.store.Reachable .code [.scope 0, .value (.pair 4 (.symbol "bump") .nil)]
      (.scope 2) := by
  intro h
  -- The other two scopes only lead to each other.
  have hne := h.within (q := (· ≠ 2)) ?_ ?_ ?_
  · exact hne rfl
  · intro r hr
    rcases List.mem_cons.1 hr with rfl | hr
    · exact nofun
    · obtain rfl := List.mem_singleton.1 hr
      exact ⟨trivial, trivial, trivial⟩
  · intro e p he hp
    match e with
    | 0 => exact nomatch hp
    | 1 => exact Option.some.inj hp ▸ nofun
    | 2 => exact absurd rfl he
    | _ + 3 => exact nomatch hp
  · intro e name v he hv
    have hmem := NameMap.find?_eq_some_iff_mem.1 hv
    match e with
    | 0 =>
      rcases List.mem_cons.1 hmem with heq | hmem
      · obtain ⟨rfl, rfl⟩ := Prod.mk.inj heq
        exact ⟨nofun, trivial, trivial, trivial, trivial, trivial, trivial, trivial⟩
      · obtain ⟨rfl, rfl⟩ := Prod.mk.inj (List.mem_singleton.1 hmem)
        exact nofun
    | 1 =>
      obtain ⟨rfl, rfl⟩ := Prod.mk.inj (List.mem_singleton.1 hmem)
      exact trivial
    | 2 => exact absurd rfl he
    | _ + 3 => exact nomatch hmem

/-- Calling `bump` changes the scope that it captured, and not the one that is held as a value. -/
theorem bindings_counterMachine_bump :
    (¬ counterMachine.store.Reachable .code [.scope 0, .value (.pair 4 (.symbol "bump") .nil)]
        (.scope 2)) ∧
      (counterMachine.run (evaluate (.pair 4 (.symbol "bump") .nil) 0)).2.store.bindings 2 =
        counterMachine.store.bindings 2 ∧
      ((counterMachine.run (evaluate (.pair 4 (.symbol "bump") .nil) 0)).2.store.bindings 1).find?
        "count" = some (.bool true) :=
  ⟨not_reachable_counterMachine,
    bindings_evaluate_of_not_reachable _ _ _ _ (by decide) not_reachable_counterMachine,
    by decide +kernel⟩

end ScopeLisp
