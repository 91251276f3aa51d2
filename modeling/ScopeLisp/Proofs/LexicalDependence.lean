import ScopeLisp.Proofs.Evaluation
import ScopeLisp.Proofs.Reachability

/-!
# Evaluation depends only on what it can see

What an evaluation does is settled by the scopes that can be seen from the expression, the scope it
is evaluated in and the global scope: two stores that agree on those give the same result, output
and log, and agree on them afterwards. Scopes may be written out, so a scope that is held as a
value is seen, too.

A call of a function with quoted arguments does not even depend on the scope it is called from.

## Key results

- `Store.AgreesOn.render_eq`: values that only refer to scopes agreed on are written alike
- `sameOutcome_of_agreesOn`: evaluations and calls over stores that agree
-/

namespace ScopeLisp

open Correspondence

/-! ## Stores that agree -/

/-- Two stores with the same scopes and the same next identity, which bind the same in the scopes
    that satisfy a condition. -/
structure Store.AgreesOn (s s' : Store) (p : ScopeId → Prop) : Prop where
  size_eq : s'.scopes.size = s.scopes.size
  parent_eq : ∀ e, s'.parent? e = s.parent? e
  fresh_eq : s'.fresh = s.fresh
  bindings_eq : ∀ e, p e → s'.bindings e = s.bindings e

namespace Store.AgreesOn

variable {s s' : Store} {p : ScopeId → Prop}

/-- Stores that agree still do when both get a new scope in the same place. -/
private theorem newScope (h : s.AgreesOn s' p) (parent : Option ScopeId) :
    (s.newScope parent).2.AgreesOn (s'.newScope parent).2 p where
  size_eq := by
    rw [size_newScope, size_newScope, h.size_eq]
  parent_eq e := by
    rw [parent?_newScope, parent?_newScope, h.size_eq, h.parent_eq]
  fresh_eq := h.fresh_eq
  bindings_eq e he := by
    rw [bindings_newScope, bindings_newScope]
    exact h.bindings_eq e he

/-- Stores that agree still do when both get the same binding. -/
private theorem bind (h : s.AgreesOn s' p) (e : ScopeId) (name : String) (v : Value) :
    (s.bind e name v).AgreesOn (s'.bind e name v) p where
  size_eq := by
    rw [size_bind, size_bind, h.size_eq]
  parent_eq f := by
    rw [parent?_bind, parent?_bind, h.parent_eq]
  fresh_eq := h.fresh_eq
  bindings_eq f hf := by
    rw [bindings_bind, bindings_bind, h.size_eq, h.bindings_eq f hf]

end Store.AgreesOn

/-! ## Text of values -/

/-- The text of a value depends only on the texts of the scopes that its parts refer to. -/
theorem Value.render_congr {p : ScopeId → Prop} {f g : ScopeId → String} {v : Value}
    (h : v.All (RefersWithin .text p)) (hfg : ∀ e, p e → f e = g e) :
    v.render f = v.render g ∧ v.renderRest f = v.renderRest g := by
  -- A pair is written in two ways, as a list or as the rest of one, so both go through together.
  induction v with
  | pair id head tail ihh iht =>
    obtain ⟨hhead, _⟩ := ihh h.2.1
    obtain ⟨_, htail⟩ := iht h.2.2
    simp only [render, renderRest, hhead, htail, and_self]
  | quoted id inner ih =>
    obtain ⟨hinner, _⟩ := ih h.2
    simp only [render, renderRest, hinner, and_self]
  | lambda kind id params body e ih =>
    obtain ⟨hbody, _⟩ := ih h.2
    simp only [render, renderRest, hbody, and_self]
  | environment e =>
    have he : f e = g e := hfg e (h rfl)
    simp only [render, renderRest, he, and_self]
  | _ => simp only [render, renderRest, and_self]

namespace Store.AgreesOn

variable {s s' : Store} {p : ScopeId → Prop}

/-- A scope agreed on is written alike, if all that it leads to is agreed on. -/
private theorem renderScope_eq (h : s.AgreesOn s' p)
    (hbinding : ∀ e name v, p e → (s.bindings e).find? name = some v →
      v.All (Value.RefersWithin .text p)) (room : Nat) (opened : List ScopeId) {e : ScopeId}
    (he : p e) : s'.renderScope room opened e = s.renderScope room opened e := by
  -- By induction on the room that is left, as scopes may hold each other.
  induction room generalizing opened e with
  | zero => rfl
  | succ room ih =>
    unfold renderScope
    by_cases hopen : e ∈ opened
    · rw [if_pos hopen, if_pos hopen]
    · rw [if_neg hopen, if_neg hopen, h.bindings_eq e he]
      -- Both list the same bindings, and the bound values are written alike.
      have htext : ∀ entry ∈ (s.bindings e).entries,
          entry.2.render (s'.renderScope room (e :: opened)) =
            entry.2.render (s.renderScope room (e :: opened)) := by
        intro entry hentry
        have hall := hbinding e entry.1 entry.2 he (NameMap.find?_eq_some_iff_mem.2 hentry)
        exact (Value.render_congr hall fun f hf => ih (e :: opened) hf).1
      have hmap := List.map_congr_left fun entry hentry =>
        congrArg (entry.1 ++ "=" ++ ·) (htext entry hentry)
      exact congrArg (fun texts => "<environment \x7b" ++ ", ".intercalate texts ++ "\x7d>") hmap

/-- Values that only refer to scopes agreed on are written alike. -/
theorem render_eq (h : s.AgreesOn s' p)
    (hbinding : ∀ e name v, p e → (s.bindings e).find? name = some v →
      v.All (Value.RefersWithin .text p)) {v : Value} (hv : v.All (Value.RefersWithin .text p)) :
    s'.render v = s.render v := by
  unfold render
  rw [h.size_eq]
  exact (Value.render_congr hv fun e he => h.renderScope_eq hbinding _ [] he).1

end Store.AgreesOn

/-! ## Runs over stores that agree -/

/-- Two runs that differ in their stores only, which agree on the scopes given. There have been at
    least `first` scopes, and the global scope is among those given. -/
def Correspondence.agreement (first : Nat) (p : ScopeId → Prop) : Correspondence :=
  within .text p fun m m' =>
    ∃ s', m' = { m with store := s' } ∧ m.store.AgreesOn s' p ∧ p m.globals ∧ first ≤ m.extent

namespace Correspondence

variable {first : Nat} {p : ScopeId → Prop}

/-- Values of runs over stores that agree are written alike. -/
private theorem render_eq_of_agreement {m m' : Machine} {v : Value}
    (h : (agreement first p).machines m m') (hc : (agreement first p).Closed m.store)
    (hv : (agreement first p).value m.extent v) : m'.store.render v = m.store.render v := by
  obtain ⟨s', rfl, hagree, -, -⟩ := h
  exact hagree.render_eq (fun e name w he hw => hc.binding he hw) hv

/-- Every operation of the machine keeps stores in agreement, where new scopes count as agreed on.
    -/
private theorem lawful_agreement (hnew : ∀ e, first ≤ e → p e) : (agreement first p).Lawful where
  toLawfulValues := lawfulValues_within ..
  error _ := trivial
  extent_eq := by
    intro m m' hm
    obtain ⟨s', rfl, hagree, -, -⟩ := hm
    exact hagree.size_eq
  fresh_eq := by
    intro m m' hm
    obtain ⟨s', rfl, hagree, -, -⟩ := hm
    exact hagree.fresh_eq
  globals_eq := by
    intro m m' hm
    obtain ⟨s', rfl, -, -, -⟩ := hm
    rfl
  parent_eq := by
    intro m m' e hm _
    obtain ⟨s', rfl, hagree, -, -⟩ := hm
    exact hagree.parent_eq e
  bindings_eq := by
    intro m m' e hm he
    obtain ⟨s', rfl, hagree, -, -⟩ := hm
    exact hagree.bindings_eq e he
  render_eq := render_eq_of_agreement
  part_globals := by
    intro m m' hm _
    obtain ⟨s', rfl, -, hglobals, -⟩ := hm
    exact hglobals
  scope_extent := by
    intro m m' hm
    obtain ⟨s', rfl, -, -, hle⟩ := hm
    exact hnew _ hle
  newIdentity := by
    intro m m' hm
    obtain ⟨s', rfl, hagree, hglobals, hle⟩ := hm
    have hfresh : s'.fresh + 1 = m.store.fresh + 1 := by rw [hagree.fresh_eq]
    exact ⟨_, rfl, ⟨hagree.size_eq, hagree.parent_eq, hfresh, hagree.bindings_eq⟩, hglobals, hle⟩
  -- The new scope is agreed on by `hnew`, whatever its parent.
  newScope := by
    intro m m' q hm _
    obtain ⟨s', rfl, hagree, hglobals, hle⟩ := hm
    refine ⟨_, rfl, hagree.newScope _, hglobals, ?_⟩
    simp only [Machine.extent, Store.size_newScope] at hle ⊢
    omega
  bind := by
    intro m m' e name v hm _ _
    obtain ⟨s', rfl, hagree, hglobals, hle⟩ := hm
    refine ⟨_, rfl, hagree.bind e name v, hglobals, ?_⟩
    simp only [Machine.extent, Store.size_bind] at hle ⊢
    exact hle
  write := by
    intro m m' text hm
    obtain ⟨s', rfl, h⟩ := hm
    exact ⟨s', rfl, h⟩
  call := by
    intro m m' params hm
    obtain ⟨s', rfl, h⟩ := hm
    exact ⟨s', rfl, h⟩
  -- An expansion is logged with the texts of the arguments and of the code.
  trace := by
    intro m m' params args code hm hc hargs hcode
    have hargs' := render_eq_of_agreement hm hc hargs
    have hcode' := render_eq_of_agreement hm hc hcode
    obtain ⟨s', rfl, h⟩ := hm
    unfold Machine.traced
    rw [hargs', hcode']
    split
    · exact ⟨s', rfl, h⟩
    · exact ⟨s', rfl, h⟩
  scope_of_stopped := False.elim
  part_of_stopped := False.elim
  stopped_store := False.elim
  stopped_write := False.elim
  stopped_emit := False.elim

/-- The counter of nested evaluations plays no part in the agreement. -/
private theorem nests_agreement : (agreement first p).Nests where
  enter := by
    intro m m' hm
    obtain ⟨s', rfl, h⟩ := hm
    exact ⟨s', rfl, h⟩
  leave := by
    intro m m' hm
    obtain ⟨s', rfl, h⟩ := hm
    exact ⟨s', rfl, h⟩
  stopped _ _ := False.elim

/-- Machines that only differ in their stores have the same room and the same limit. -/
private theorem sharesLimit_agreement : (agreement first p).SharesLimit where
  room_eq := by
    intro m m' hm
    obtain ⟨s', rfl, -⟩ := hm
    rfl
  limit_eq := by
    intro m m' hm
    obtain ⟨s', rfl, -⟩ := hm
    rfl
  refuse := by
    intro m m' limit hm
    obtain ⟨s', rfl, h⟩ := hm
    exact ⟨s', rfl, h⟩
  error _ := trivial

end Correspondence

/-! ## Evaluations and calls -/

/-- Stores that agree on what is reachable also agree on scopes that do not exist yet. -/
theorem Store.AgreesOn.touchable {s s' : Store} {roots : List Node}
    (h : s.AgreesOn s' fun e => s.Reachable .text roots (.scope e)) :
    s.AgreesOn s' (s.Touchable .text roots) where
  size_eq := h.size_eq
  parent_eq := h.parent_eq
  fresh_eq := h.fresh_eq
  bindings_eq e he := by
    rcases he with hnew | hreach
    · rw [s.bindings_of_size_le e hnew, s'.bindings_of_size_le e (h.size_eq ▸ hnew)]
    · exact h.bindings_eq e hreach

/-- Two outcomes with the same result, output and log, whose stores agree on the scopes given. -/
structure SameOutcome (p : ScopeId → Prop) (r r' : Except Error Value × Machine) : Prop where
  result : r'.1 = r.1
  output : r'.2.output = r.2.output
  events : r'.2.events = r.2.events
  store : r.2.store.AgreesOn r'.2.store p

/-- Steps that track each other over agreeing stores have the same outcome. -/
theorem Correspondence.Tracks.sameOutcome {m : Machine} {s' : Store} {roots : List Node}
    {act : EvalM Value} {Q : Nat → Value → Prop}
    (h : (agreement m.extent (m.store.Touchable .text roots)).Tracks m.extent Q act act)
    (hagree : m.store.AgreesOn s' fun e => m.store.Reachable .text roots (.scope e))
    (hglobals : .scope m.globals ∈ roots) :
    SameOutcome (m.store.Touchable .text roots) (m.run act) ({ m with store := s' }.run act) := by
  have hstart : (agreement m.extent (m.store.Touchable .text roots)).machines m
      { m with store := s' } :=
    ⟨s', rfl, hagree.touchable, .of_mem hglobals, Nat.le_refl _⟩
  -- The runs never part, so they end together, with the same result.
  have hout := h.together m _ (Nat.le_refl _) hstart (closed_within ..)
  obtain ⟨hresult, t', heq, hstore, -, -⟩ := hout.eq_and_machines fun _ _ _ => id
  exact ⟨hresult, by rw [heq], by rw [heq], by rw [heq]; exact hstore⟩

/-- A quoted value means the same in every scope. -/
theorem evaluateWithin_quoted (room : Nat) (id : Identity) (inner : Value) (e e' : ScopeId) :
    evaluateWithin room (.quoted id inner) e = evaluateWithin room (.quoted id inner) e' := by
  cases room with
  | zero => rfl
  | succ room => rfl

/-- Parameters are bound alike by two evaluations that agree on the arguments. -/
private theorem bindParams_congr {valueOf valueOf' : Value → EvalM Value} {frame : ScopeId}
    {pairs : List (String × Value)} (h : ∀ pair ∈ pairs, valueOf pair.2 = valueOf' pair.2) :
    bindParams valueOf frame pairs = bindParams valueOf' frame pairs := by
  -- One argument after the other, each evaluated before the next is bound.
  induction pairs with
  | nil => rfl
  | cons pair pairs ih =>
    unfold bindParams
    rw [h pair List.mem_cons_self, ih fun p hp => h p (List.mem_cons_of_mem _ hp)]

/-- A function that is called with quoted arguments only does not see the scope of the caller. -/
theorem applyFunction_of_quoted {args : Value}
    (hargs : ∀ a ∈ args.items, ∃ id inner, a = .quoted id inner) (room : Nat)
    (params : List String) (body : Value) (captured e e' : ScopeId) :
    applyFunction (evaluateWithin room) params body captured args e =
      applyFunction (evaluateWithin room) params body captured args e' := by
  have hbind : ∀ frame, bindParams (evaluateWithin room · e) frame (params.zip args.items) =
      bindParams (evaluateWithin room · e') frame (params.zip args.items) := by
    intro frame
    refine bindParams_congr fun pair hpair => ?_
    obtain ⟨id, inner, hquoted⟩ := hargs pair.2 (List.of_mem_zip hpair).2
    rw [hquoted]
    exact evaluateWithin_quoted room id inner e e'
  simp only [applyFunction, enterFrame, hbind]

section Roots

variable {m : Machine} {s' : Store} {roots : List Node}

/-- Evaluation over stores that agree on what the roots lead to. -/
private theorem sameOutcome_evaluate {v : Value} {env : ScopeId}
    (hagree : m.store.AgreesOn s' fun e => m.store.Reachable .text roots (.scope e))
    (henv : .scope env ∈ roots) (hv : .value v ∈ roots) (hglobals : .scope m.globals ∈ roots) :
    SameOutcome (m.store.Touchable .text roots) (m.run (evaluate v env))
      ({ m with store := s' }.run (evaluate v env)) := by
  have L : (agreement m.extent (m.store.Touchable .text roots)).Lawful :=
    lawful_agreement fun e he => .inl he
  -- Scopes that do not exist yet are touchable, so the runs may create and use them.
  have htracks := tracks_evaluate_of_sharesLimit L nests_agreement sharesLimit_agreement
  have hscope : m.store.Touchable .text roots env := .of_mem henv
  exact (htracks (Store.Reachable.root hv).all_refersWithin hscope).sameOutcome hagree hglobals

/-- Calls with quoted arguments, from any two scopes. -/
private theorem sameOutcome_apply_quoted {id : Identity} {params : List String} {body args : Value}
    {captured : ScopeId} (env env' : ScopeId)
    (hagree : m.store.AgreesOn s' fun e => m.store.Reachable .text roots (.scope e))
    (hargs : ∀ a ∈ args.items, ∃ id inner, a = .quoted id inner)
    (hf : .value (.lambda .function id params body captured) ∈ roots)
    (ha : .value args ∈ roots) (hglobals : .scope m.globals ∈ roots) :
    SameOutcome (m.store.Touchable .text roots)
      (m.run (apply (.lambda .function id params body captured) args env))
      ({ m with store := s' }.run
        (apply (.lambda .function id params body captured) args env')) := by
  have L : (agreement m.extent (m.store.Touchable .text roots)).Lawful :=
    lawful_agreement fun e he => .inl he
  have hwithin := tracks_evaluateWithin_of_sharesLimit L nests_agreement sharesLimit_agreement
  have hclosure : (Value.lambda .function id params body captured).All
      (Value.RefersWithin .text (m.store.Touchable .text roots)) :=
    (Store.Reachable.root hf).all_refersWithin
  have hvalues : args.All (Value.RefersWithin .text (m.store.Touchable .text roots)) :=
    (Store.Reachable.root ha).all_refersWithin
  have htracks := tracks_applyWith (n := m.extent) L (hwithin m.room) hclosure hvalues hclosure.1
  -- Both calls are as good as calls from the captured scope, which is in sight.
  have hcall : ∀ e, applyWith (evaluateWithin m.room)
      (.lambda .function id params body captured) args e =
      applyWith (evaluateWithin m.room) (.lambda .function id params body captured) args
        captured :=
    fun e => applyFunction_of_quoted hargs m.room params body captured e captured
  rw [Machine.run_apply, Machine.run_apply, hcall env]
  show SameOutcome _ _ ({ m with store := s' }.run (applyWith (evaluateWithin m.room) _ _ env'))
  rw [hcall env']
  exact htracks.sameOutcome hagree hglobals

end Roots

/-- Evaluation over stores that agree on what can be seen from the expression, its scope and the
    global scope has the same outcome. A call of a function with quoted arguments has the same
    outcome from any two scopes, over stores that agree on what can be seen from the function, the
    arguments and the global scope: out of sight, the scope of the caller may bind anything. -/
theorem sameOutcome_of_agreesOn (m : Machine) (s' : Store) :
    (∀ v env, (m.store.AgreesOn s' fun e =>
        m.store.Reachable .text [.scope env, .value v, .scope m.globals] (.scope e)) →
      SameOutcome (m.store.Touchable .text [.scope env, .value v, .scope m.globals])
        (m.run (evaluate v env)) ({ m with store := s' }.run (evaluate v env))) ∧
    ∀ f id params body captured args env env', f = .lambda .function id params body captured →
      (∀ a ∈ args.items, ∃ id inner, a = .quoted id inner) →
      (m.store.AgreesOn s' fun e =>
        m.store.Reachable .text [.value f, .value args, .scope m.globals] (.scope e)) →
      SameOutcome (m.store.Touchable .text [.value f, .value args, .scope m.globals])
        (m.run (apply f args env)) ({ m with store := s' }.run (apply f args env')) := by
  constructor
  · intro v env hagree
    exact sameOutcome_evaluate hagree (by simp) (by simp) (by simp)
  · rintro f id params body captured args env env' rfl hargs hagree
    exact sameOutcome_apply_quoted env env' hagree hargs (by simp) (by simp) (by simp)

/-- A machine with a scope inside the global one that a function may capture, and another one, from
    which it may be called. All three bind `x`, the last one to the value given. -/
def shadowingMachine (v : Value) : Machine where
  store :=
    { scopes := #[⟨none, ⟨[("x", .nil)], by decide⟩⟩, ⟨some 0, ⟨[("x", .bool true)], by decide⟩⟩,
        ⟨some 0, ⟨[("x", v)], by simp⟩⟩]
      fresh := 3 }
  globals := 0
  config := {}
  depth := 0
  output := ""
  events := #[]

/-- Whatever the last scope binds is out of sight from the other two. -/
theorem agreesOn_shadowingMachine {roots : List Node} (v w : Value)
    (hroots : ∀ r ∈ roots, r.Within .text (· < 2)) :
    (shadowingMachine v).store.AgreesOn (shadowingMachine w).store fun e =>
      (shadowingMachine v).store.Reachable .text roots (.scope e) where
  size_eq := rfl
  parent_eq e := by
    match e with
    | 0 | 1 | 2 | _ + 3 => rfl
  fresh_eq := rfl
  bindings_eq e he := by
    have hlt : e < 2 := by
      -- The first two scopes lead to each other only.
      refine he.within (q := (· < 2)) hroots ?_ ?_
      · intro f p hf hp
        match f with
        | 0 => exact nomatch hp
        | 1 => exact Option.some.inj hp ▸ Nat.zero_lt_two
      · intro f name u hf hu
        have hmem := NameMap.find?_eq_some_iff_mem.1 hu
        match f with
        | 0 | 1 =>
          obtain ⟨rfl, rfl⟩ := Prod.mk.inj (List.mem_singleton.1 hmem)
          exact trivial
    match e with
    | 0 | 1 => rfl

/-- What `x` means in the inner scope, and in a function that captured it, does not depend on the
    `x` of the outermost caller. -/
theorem sameOutcome_shadowingMachine :
    (let roots : List Node := [.scope 1, .value (.symbol "x"), .scope 0];
      SameOutcome ((shadowingMachine .nil).store.Touchable .text roots)
        ((shadowingMachine .nil).run (evaluate (.symbol "x") 1))
        ((shadowingMachine (.bool false)).run (evaluate (.symbol "x") 1))) ∧
    (let f : Value := .lambda .function 0 ["y"] (.symbol "x") 1;
      let args : Value := .pair 1 (.quoted 2 (.symbol "x")) .nil;
      SameOutcome ((shadowingMachine .nil).store.Touchable .text [.value f, .value args, .scope 0])
        ((shadowingMachine .nil).run (apply f args 2))
        ((shadowingMachine (.bool false)).run (apply f args 0)) ∧
      ((shadowingMachine .nil).run (apply f args 2)).1 = .ok (.bool true)) := by
  have h := sameOutcome_of_agreesOn (shadowingMachine .nil) (shadowingMachine (.bool false)).store
  refine ⟨h.1 _ _ (agreesOn_shadowingMachine _ _ ?_),
    h.2 _ 0 ["y"] (.symbol "x") 1 _ _ _ rfl ?_ (agreesOn_shadowingMachine _ _ ?_), rfl⟩
  · simp [Node.Within, Value.All, Value.RefersWithin, shadowingMachine]
  · simp [Value.items]
  · simp [Node.Within, Value.All, Value.RefersWithin, shadowingMachine]

end ScopeLisp
