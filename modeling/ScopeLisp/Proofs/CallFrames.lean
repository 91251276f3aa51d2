import Mathlib.Data.List.Induction
import ScopeLisp.Proofs.CyclicRendering
import ScopeLisp.Proofs.InTurn
import ScopeLisp.Proofs.LexicalDependence
import ScopeLisp.Proofs.StoreGrowth

/-!
# Frames of calls

A call of a function makes its frame first, then evaluates the arguments, and binds each value in
the frame before it goes on to the next argument. Arguments can do anything in between: bind names,
capture scopes, call the same function again. They can still neither see nor change the frame, since
nothing leads to it. So the call is the same as if all arguments were evaluated in turn while the
frame is empty, and then bound in it.

To show this, a run where the frame binds nothing is compared with a run where it binds something
(`Correspondence.filling`). The two stay the same up to that.

## Key results

- `Machine.Hides.evaluate`: an evaluation does not depend on what a hidden frame binds, and leaves
  it hidden
- `Machine.Hides.run_bindParams`: parameters are bound to the values of arguments evaluated in turn
- `call_frame_fresh_and_exact`: what the frame is when the body starts, and how a call fails
-/

namespace ScopeLisp

open EvalM Correspondence

/-! ## Replacing what a scope binds -/

namespace Store

variable (s : Store) (e f : ScopeId) (B : NameMap Value) (name : String) (v : Value)

/-- The store in which a scope binds what is given, and nothing else. -/
def fill (s : Store) (e : ScopeId) (bindings : NameMap Value) : Store :=
  { s with scopes := s.scopes.modify e fun scope => { scope with bindings } }

/-- Filling changes what one scope binds. -/
private theorem bindings_fill :
    (s.fill e B).bindings f = if e = f ∧ e < s.scopes.size then B else s.bindings f := by
  simp only [bindings, fill, Array.getElem?_modify]
  -- Nothing is filled where the scope does not exist.
  by_cases hef : e = f
  · subst hef
    by_cases he : e < s.scopes.size <;> simp [he]
  · simp [hef]

/-- Filling a scope leaves the parents as they are. -/
@[simp] theorem parent?_fill : (s.fill e B).parent? f = s.parent? f := by
  simp only [parent?, fill, Array.getElem?_modify]
  split
  · cases s.scopes[f]? <;> rfl
  · rfl

/-- Filling a scope adds none. -/
@[simp] theorem size_fill : (s.fill e B).scopes.size = s.scopes.size :=
  Array.size_modify

/-- Stores with the same scopes and the same next identity are equal. -/
theorem ext_scopes {s t : Store} (hscopes : ∀ i : Nat, s.scopes[i]? = t.scopes[i]?)
    (hfresh : s.fresh = t.fresh) : s = t := by
  obtain ⟨scopes, fresh⟩ := s
  obtain ⟨scopes', fresh'⟩ := t
  obtain rfl : scopes = scopes' := Array.ext_getElem? hscopes
  obtain rfl : fresh = fresh' := hfresh
  rfl

variable {s e f B}

/-- A scope that is filled binds what is given. -/
private theorem bindings_fill_self (he : e < s.scopes.size) : (s.fill e B).bindings e = B := by
  simp [bindings_fill, he]

private theorem bindings_fill_of_ne (hne : f ≠ e) : (s.fill e B).bindings f = s.bindings f := by
  simp [bindings_fill, hne.symm]

/-- Filling a scope with its own bindings changes nothing. -/
private theorem fill_bindings (h : s.bindings e = B) : s.fill e B = s := by
  subst h
  apply ext_scopes
  · intro i
    simp only [fill, bindings, Array.getElem?_modify]
    by_cases hei : e = i
    · subst hei
      cases s.scopes[e]? <;> simp
    · simp [hei]
  · rfl

/-- A new scope is none of those that are there. -/
theorem newScope_fill (he : e < s.scopes.size) (p : Option ScopeId) :
    ((s.fill e B).newScope p).2 = (s.newScope p).2.fill e B := by
  apply ext_scopes
  · intro i
    simp only [newScope, fill, Array.getElem?_push, Array.getElem?_modify, Array.size_modify]
    -- The new scope comes last, behind the one that is filled.
    by_cases hi : i = s.scopes.size
    · simp [hi, Nat.ne_of_lt he]
    · simp [hi]
  · rfl

/-- Binding a name in another scope and filling may be exchanged. -/
private theorem bind_fill_of_ne (hne : f ≠ e) :
    (s.fill e B).bind f name v = (s.bind f name v).fill e B := by
  apply ext_scopes
  · intro i
    simp only [bind, fill, Array.getElem?_modify]
    -- Each scope is changed by one of the two at most.
    by_cases hfi : f = i
    · have hei : e ≠ i := fun heq => hne (hfi.trans heq.symm)
      simp [hfi, hei]
    · simp [hfi]
  · rfl

/-- Binding a name in a scope that is filled adds to what it is filled with. -/
private theorem bind_fill_self : (s.fill e B).bind e name v = s.fill e (B.insert name v) := by
  apply ext_scopes
  · intro i
    simp only [bind, fill, Array.getElem?_modify]
    by_cases hei : e = i
    · cases s.scopes[i]? <;> simp [hei]
    · simp [hei]
  · rfl

/-- Filled or not, stores agree on the other scopes. -/
private theorem agreesOn_fill : s.AgreesOn (s.fill e B) (· ≠ e) where
  size_eq := size_fill s e B
  parent_eq f := parent?_fill s e f B
  fresh_eq := rfl
  bindings_eq _ hf := bindings_fill_of_ne hf

end Store

/-- The machine in whose store a scope binds what is given, and nothing else. -/
def Machine.fill (m : Machine) (e : ScopeId) (bindings : NameMap Value) : Machine :=
  { m with store := m.store.fill e bindings }

@[simp] theorem Machine.room_fill (m : Machine) (e : ScopeId) (bindings : NameMap Value) :
    (m.fill e bindings).room = m.room := rfl

/-! ## Runs beside a frame -/

/-- There is an empty scope under `captured`, and it is not the global one. -/
structure Machine.Reserves (m : Machine) (frame captured : ScopeId) : Prop where
  lt_extent : frame < m.extent
  parent_eq : m.store.parent? frame = some captured
  bindings_eq : m.store.bindings frame = .empty
  globals_ne : m.globals ≠ frame

/-- The other scopes lead only to each other. -/
structure Machine.Hides (m : Machine) (frame captured : ScopeId) : Prop
    extends m.Reserves frame captured where
  parent_ne : ∀ e p, e ≠ frame → m.store.parent? e = some p → p ≠ frame
  binding : ∀ e name v, e ≠ frame → (m.store.bindings e).find? name = some v →
    v.All (Value.RefersWithin .text (· ≠ frame))

namespace Machine.Reserves

variable {m : Machine} {frame captured : ScopeId}

/-- A change of the machine that leaves the store and the global scope alone. -/
theorem of_store_eq (h : m.Reserves frame captured) {m' : Machine} (hstore : m'.store = m.store)
    (hglobals : m'.globals = m.globals) : m'.Reserves frame captured := by
  obtain ⟨hlt, hparent, hbindings, hne⟩ := h
  unfold Machine.extent at hlt
  rw [← hstore] at hlt hparent hbindings
  rw [← hglobals] at hne
  exact ⟨hlt, hparent, hbindings, hne⟩

/-- The scope stays reserved when another one is added. -/
private theorem newScope (h : m.Reserves frame captured) (p : Option ScopeId) :
    Reserves { m with store := (m.store.newScope p).2 } frame captured where
  lt_extent := by
    simp only [Machine.extent, Store.size_newScope]
    exact Nat.lt_succ_of_lt h.lt_extent
  parent_eq := by
    rw [Store.parent?_newScope, if_neg (Nat.ne_of_lt h.lt_extent)]
    exact h.parent_eq
  bindings_eq := by
    rw [Store.bindings_newScope]
    exact h.bindings_eq
  globals_ne := h.globals_ne

/-- The scope stays reserved when a name is bound in another one. -/
private theorem bind (h : m.Reserves frame captured) {e : ScopeId} (he : e ≠ frame) (name : String)
    (v : Value) : Reserves { m with store := m.store.bind e name v } frame captured where
  lt_extent := by
    simp only [Machine.extent, Store.size_bind]
    exact h.lt_extent
  parent_eq := by
    rw [Store.parent?_bind]
    exact h.parent_eq
  bindings_eq := by
    rw [Store.bindings_bind, if_neg fun hcond => he hcond.1]
    exact h.bindings_eq
  globals_ne := h.globals_ne

end Machine.Reserves

namespace Correspondence

variable {frame captured : ScopeId} {B : NameMap Value}

/-- A run where the frame is empty beside a run where it binds what is given. Neither touches the
    frame. -/
def filling (frame captured : ScopeId) (B : NameMap Value) : Correspondence :=
  within .text (· ≠ frame) fun m m' => m' = m.fill frame B ∧ m.Reserves frame captured

/-- A value that does not lead to the frame is written alike. -/
private theorem render_fill {m : Machine} {v : Value}
    (hc : (filling frame captured B).Closed m.store)
    (hv : (filling frame captured B).value m.extent v) :
    (m.fill frame B).store.render v = m.store.render v :=
  Store.agreesOn_fill.render_eq (fun _ _ _ he hw => hc.binding he hw) hv

/-- No operation of the machine away from the frame depends on what it binds, or touches it. -/
private theorem lawful_filling : (filling frame captured B).Lawful where
  toLawfulValues := lawfulValues_within ..
  error _ := trivial
  extent_eq := by
    intro m m' hm
    obtain ⟨rfl, -⟩ := hm
    exact Store.size_fill ..
  fresh_eq h := h.1 ▸ rfl
  globals_eq h := h.1 ▸ rfl
  parent_eq := by
    intro m m' e hm _
    obtain ⟨rfl, -⟩ := hm
    exact Store.parent?_fill ..
  bindings_eq := by
    intro m m' e hm he
    obtain ⟨rfl, -⟩ := hm
    exact Store.bindings_fill_of_ne he
  render_eq := by
    intro m m' v hm hc hv
    obtain ⟨rfl, -⟩ := hm
    exact render_fill hc hv
  part_globals h _ := h.2.globals_ne
  -- A scope that is made during the run gets another number than the frame.
  scope_extent h := (Nat.ne_of_lt h.2.lt_extent).symm
  newIdentity := by
    intro m m' hm
    obtain ⟨rfl, h⟩ := hm
    exact ⟨rfl, h.lt_extent, h.parent_eq, h.bindings_eq, h.globals_ne⟩
  newScope := by
    intro m m' p hm _
    obtain ⟨rfl, h⟩ := hm
    have hstore := Store.newScope_fill (B := B) h.lt_extent (some p)
    exact ⟨by simp only [Machine.fill, hstore], h.newScope _⟩
  bind := by
    intro m m' e name v hm he _
    obtain ⟨rfl, h⟩ := hm
    have hstore := Store.bind_fill_of_ne (s := m.store) (B := B) name v he
    exact ⟨by simp only [Machine.fill, hstore], h.bind he name v⟩
  write := by
    intro m m' text hm
    obtain ⟨rfl, h⟩ := hm
    exact ⟨rfl, h.of_store_eq rfl rfl⟩
  call := by
    intro m m' params hm
    obtain ⟨rfl, h⟩ := hm
    exact ⟨rfl, h.of_store_eq rfl rfl⟩
  trace := by
    intro m m' params args code hm hc hargs hcode
    obtain ⟨rfl, h⟩ := hm
    -- The arguments and the code are written alike, as neither leads to the frame.
    have hargs' := render_fill hc hargs
    have hcode' := render_fill hc hcode
    unfold Machine.traced
    rw [hargs', hcode']
    by_cases htrace : m.config.traceExpansions = true
    · simp only [Machine.fill, htrace, if_true]
      exact ⟨rfl, h.of_store_eq rfl rfl⟩
    · simp only [Machine.fill, htrace]
      exact ⟨rfl, h⟩
  scope_of_stopped := False.elim
  part_of_stopped := False.elim
  stopped_store := False.elim
  stopped_write := False.elim
  stopped_emit := False.elim

/-- The counter of nested evaluations plays no part. -/
private theorem nests_filling : (filling frame captured B).Nests where
  enter := by
    intro m m' hm
    obtain ⟨rfl, h⟩ := hm
    exact ⟨rfl, h.of_store_eq rfl rfl⟩
  leave := by
    intro m m' hm
    obtain ⟨rfl, h⟩ := hm
    exact ⟨rfl, h.of_store_eq rfl rfl⟩
  stopped _ _ := False.elim

/-- Machines that differ in the frame only have the same room and the same limit. -/
private theorem sharesLimit_filling : (filling frame captured B).SharesLimit where
  room_eq h := h.1 ▸ rfl
  limit_eq h := h.1 ▸ rfl
  refuse := by
    intro m m' limit hm
    obtain ⟨rfl, h⟩ := hm
    exact ⟨rfl, h.of_store_eq rfl rfl⟩
  error _ := trivial

end Correspondence

namespace Machine

variable {m m' : Machine} {frame captured scope : ScopeId}

/-- An evaluation that starts away from a hidden frame does not depend on what the frame binds, and
    leaves it hidden. Its value does not lead to the frame either. -/
theorem Hides.evaluate (h : m.Hides frame captured) {form : Value}
    (hform : form.All (Value.RefersWithin .text (· ≠ frame))) (hscope : scope ≠ frame)
    {outcome : Except Error Value} (hrun : m.run (evaluate form scope) = (outcome, m')) :
    m'.Hides frame captured ∧
      (∀ v, outcome = .ok v → v.All (Value.RefersWithin .text (· ≠ frame))) ∧
      ∀ B, (m.fill frame B).run (ScopeLisp.evaluate form scope) = (outcome, m'.fill frame B) := by
  -- Both runs end alike, whatever the frame binds in the second one.
  have hout : ∀ B, (filling frame captured B).Outcome m.extent (filling frame captured B).value
      (outcome, m') ((m.fill frame B).run (ScopeLisp.evaluate form scope)) := by
    intro B
    rw [← hrun]
    have htracks : (filling frame captured B).TracksEvaluation ScopeLisp.evaluate
        ScopeLisp.evaluate :=
      tracks_evaluate_of_sharesLimit lawful_filling nests_filling sharesLimit_filling
    have hclosed : (filling frame captured B).Closed m.store :=
      ⟨fun he hp => h.parent_ne _ _ he hp, fun he hv => h.binding _ _ _ he hv⟩
    exact (htracks hform hscope).together m (m.fill frame B) (Nat.le_refl _)
      ⟨rfl, h.toReserves⟩ hclosed
  have hsame : ∀ B, (m.fill frame B).run (ScopeLisp.evaluate form scope) =
      (outcome, m'.fill frame B) := by
    intro B
    obtain ⟨hresult, hmachine, -⟩ := (hout B).eq_and_machines fun _ _ _ => id
    exact Prod.ext hresult hmachine
  -- What the run keeps is read off any of these, such as the one with an empty frame.
  have hend := hout .empty
  generalize (m.fill frame .empty).run (ScopeLisp.evaluate form scope) = r at hend
  cases hend with
  | ok _ hm hc hv =>
    exact ⟨⟨hm.2, fun _ _ he hp => hc.parent he hp, fun _ _ _ he hw => hc.binding he hw⟩,
      fun v hok => Except.ok.inj hok ▸ hv, hsame⟩
  | error _ hm hc _ =>
    exact ⟨⟨hm.2, fun _ _ he hp => hc.parent he hp, fun _ _ _ he hw => hc.binding he hw⟩,
      nofun, hsame⟩
  | stopped ht => exact ht.stopped.elim

/-! ## Binding parameters -/

section Parameters

variable {B : NameMap Value} {form v : Value} {name : String} {m₁ : Machine}

/-- Defining a new name in the frame adds to what it is filled with. -/
private theorem run_define_fill (hlt : frame < m.extent) (hnew : B.find? name = none) :
    (m.fill frame B).run (update (·.define frame name v)) =
      (.ok (), m.fill frame (B.insert name v)) := by
  have hbinds : (m.store.fill frame B).binds frame name = false := by
    simp [Store.binds, Store.bindings_fill_self hlt, NameMap.contains, hnew]
  simp [run_update, fill, Store.define, hbinds, Store.bind_fill_self]

/-- Defining a name that the frame has is refused. -/
private theorem run_define_fill_of_bound (hlt : frame < m.extent) {w : Value}
    (hbound : B.find? name = some w) :
    (m.fill frame B).run (update (·.define frame name v)) =
      (.error (.duplicateDefinition name), m.fill frame B) := by
  have hbinds : (m.store.fill frame B).binds frame name = true := by
    simp [Store.binds, Store.bindings_fill_self hlt, NameMap.contains, hbound]
  simp [run_update, fill, Store.define, hbinds]

/-- The step of the loop: the value of the argument, then what defining the parameter does. -/
theorem Hides.run_bindParams_cons (h : m.Hides frame captured)
    (hform : form.All (Value.RefersWithin .text (· ≠ frame))) (hscope : scope ≠ frame)
    (hrun : m.run (ScopeLisp.evaluate form scope) = (.ok v, m₁)) (B : NameMap Value)
    (pairs : List (String × Value)) :
    (m.fill frame B).run
        (bindParams (evaluateWithin m.room · scope) frame ((name, form) :: pairs)) =
      (m₁.fill frame B).run (do
        update (·.define frame name v)
        bindParams (evaluateWithin m₁.room · scope) frame pairs) := by
  have hvalue := (h.evaluate hform hscope hrun).2.2 B
  rw [run_evaluate, room_fill] at hvalue
  rw [bindParams, run_bind, hvalue, room_of_run_evaluate hrun]

/-- The step of the loop where the argument fails. -/
private theorem Hides.run_bindParams_cons_of_error (h : m.Hides frame captured)
    (hform : form.All (Value.RefersWithin .text (· ≠ frame))) (hscope : scope ≠ frame) {e : Error}
    (hrun : m.run (ScopeLisp.evaluate form scope) = (.error e, m₁)) (B : NameMap Value)
    (pairs : List (String × Value)) :
    (m.fill frame B).run
        (bindParams (evaluateWithin m.room · scope) frame ((name, form) :: pairs)) =
      (.error e, m₁.fill frame B) := by
  have hvalue := (h.evaluate hform hscope hrun).2.2 B
  rw [run_evaluate, room_fill] at hvalue
  rw [bindParams, run_bind, hvalue]

variable {params : List String} {forms vs : List Value}

/-- Binding the first of some distinct parameters leaves the others unbound. -/
theorem find?_insert_eq_none (hnodup : (name :: params).Nodup)
    (hnew : ∀ p ∈ name :: params, B.find? p = none) (v : Value) :
    ∀ p ∈ params, (B.insert name v).find? p = none := by
  intro p hp
  have hne : p ≠ name := fun heq => (List.nodup_cons.1 hnodup).1 (heq ▸ hp)
  rw [NameMap.find?_insert_of_ne _ hne, hnew p (List.mem_cons_of_mem _ hp)]

/-- Distinct parameters are bound to the values of arguments that succeed in turn, and nothing else
    is bound. The frame stays hidden, from the values as well. -/
theorem Hides.run_bindParams (h : m.Hides frame captured)
    (hforms : ∀ form ∈ forms, form.All (Value.RefersWithin .text (· ≠ frame)))
    (hscope : scope ≠ frame) (hturn : InTurn scope m forms vs m')
    (hlength : params.length = forms.length) (hnodup : params.Nodup)
    (hnew : ∀ p ∈ params, B.find? p = none) :
    m'.Hides frame captured ∧ (∀ v ∈ vs, v.All (Value.RefersWithin .text (· ≠ frame))) ∧
      ∃ B', (∀ name v, B'.find? name = some v ↔
          B.find? name = some v ∨ (name, v) ∈ params.zip vs) ∧
        ∀ pairs, (m.fill frame B).run
            (bindParams (evaluateWithin m.room · scope) frame (params.zip forms ++ pairs)) =
          (m'.fill frame B').run (bindParams (evaluateWithin m'.room · scope) frame pairs) := by
  -- By induction on the arguments, over all that the frame may bind already.
  induction hturn generalizing params B with
  | done m => exact ⟨h, nofun, B, by simp, fun pairs => by simp⟩
  | @form m m₁ m₂ form v forms vs hrun _ ih =>
    obtain ⟨p, params, rfl⟩ := List.exists_cons_of_length_eq_add_one hlength
    obtain ⟨h₁, hv, -⟩ := h.evaluate (hforms form List.mem_cons_self) hscope hrun
    obtain ⟨h₂, hvs, B', hB', hloop⟩ := ih h₁
      (fun form hform => hforms form (List.mem_cons_of_mem _ hform)) (Nat.succ.inj hlength)
      hnodup.of_cons (find?_insert_eq_none hnodup hnew v)
    refine ⟨h₂, List.forall_mem_cons.2 ⟨hv v rfl, hvs⟩, B', fun name w => ?_, fun pairs => ?_⟩
    -- What is bound in the end: what was before, the first parameter, and the others.
    · have hfirst := hnew p List.mem_cons_self
      rw [hB', NameMap.find?_insert, List.zip_cons_cons, List.mem_cons, Prod.mk.injEq]
      by_cases hname : name = p
      · subst hname
        simp only [if_true, Option.some.injEq, hfirst, true_and]
        grind
      · simp [hname]
    · rw [List.zip_cons_cons, List.cons_append,
        h.run_bindParams_cons (hforms form List.mem_cons_self) hscope hrun, run_bind,
        run_define_fill h₁.lt_extent (hnew p List.mem_cons_self)]
      exact hloop pairs

/-- The first argument that fails ends the loop. -/
theorem Hides.run_bindParams_of_failsInTurn (h : m.Hides frame captured)
    (hforms : ∀ form ∈ forms, form.All (Value.RefersWithin .text (· ≠ frame)))
    (hscope : scope ≠ frame) {e : Error} (hturn : FailsInTurn scope m forms e m')
    (hlength : params.length = forms.length) (hnodup : params.Nodup)
    (hnew : ∀ p ∈ params, B.find? p = none) (pairs : List (String × Value)) :
    ∃ B', (m.fill frame B).run
        (bindParams (evaluateWithin m.room · scope) frame (params.zip forms ++ pairs)) =
      (.error e, m'.fill frame B') := by
  -- By induction on how the failing argument is reached; the ones before it are bound.
  induction hturn generalizing params B with
  | here hrun =>
    obtain ⟨p, params, rfl⟩ := List.exists_cons_of_length_eq_add_one hlength
    exact ⟨B, h.run_bindParams_cons_of_error (hforms _ List.mem_cons_self) hscope hrun B _⟩
  | @later m m₁ m₂ form v forms e hrun _ ih =>
    obtain ⟨p, params, rfl⟩ := List.exists_cons_of_length_eq_add_one hlength
    obtain ⟨h₁, -, -⟩ := h.evaluate (hforms form List.mem_cons_self) hscope hrun
    obtain ⟨B', hloop⟩ := ih h₁ (fun form hform => hforms form (List.mem_cons_of_mem _ hform))
      (Nat.succ.inj hlength) hnodup.of_cons (find?_insert_eq_none hnodup hnew v)
    refine ⟨B', ?_⟩
    rw [List.zip_cons_cons, List.cons_append,
      h.run_bindParams_cons (hforms form List.mem_cons_self) hscope hrun, run_bind,
      run_define_fill h₁.lt_extent (hnew p List.mem_cons_self)]
    exact hloop

/-- A parameter that repeats an earlier one ends the loop, if no argument up to its own fails
    before. Later arguments are not evaluated. -/
theorem Hides.run_bindParams_of_repeated (h : m.Hides frame captured)
    (hforms : ∀ form ∈ forms, form.All (Value.RefersWithin .text (· ≠ frame)))
    (hform : form.All (Value.RefersWithin .text (· ≠ frame))) (hscope : scope ≠ frame)
    (hlength : params.length = forms.length) (hnodup : params.Nodup) (hname : name ∈ params)
    (pairs : List (String × Value)) :
    ∃ e m' B, (m.fill frame .empty).run (bindParams (evaluateWithin m.room · scope) frame
          (params.zip forms ++ (name, form) :: pairs)) = (.error e, m'.fill frame B) ∧
      (FailsInTurn scope m (forms ++ [form]) e m' ∨
        (∃ vs, InTurn scope m (forms ++ [form]) vs m') ∧ e = .duplicateDefinition name) := by
  have hnew : ∀ p ∈ params, NameMap.find? (α := Value) .empty p = none := fun _ _ => rfl
  cases inTurn_or_failsInTurn scope m (forms ++ [form]) with
  | inr hturn =>
    obtain ⟨e, m', hturn⟩ := hturn
    obtain hfirst | ⟨vs, m₁, hfirst, hlast⟩ := hturn.of_append
    -- One of the arguments before fails, so the repeated parameter is not reached.
    · obtain ⟨B, hloop⟩ :=
        h.run_bindParams_of_failsInTurn hforms hscope hfirst hlength hnodup hnew _
      exact ⟨e, m', B, hloop, .inl hturn⟩
    · -- The argument of the repeated parameter is the one that fails.
      obtain ⟨h₁, -, B, -, hloop⟩ := h.run_bindParams hforms hscope hfirst hlength hnodup hnew
      cases hlast with
      | here hrun =>
        refine ⟨e, m', B, ?_, .inl hturn⟩
        rw [hloop]
        exact h₁.run_bindParams_cons_of_error hform hscope hrun B pairs
      | later _ hlast => exact nomatch hlast
  | inl hturn =>
    obtain ⟨vs, m', hturn⟩ := hturn
    obtain ⟨ws, _, m₁, hfirst, hlast⟩ := hturn.of_append
    obtain ⟨h₁, -, B, hB, hloop⟩ := h.run_bindParams hforms hscope hfirst hlength hnodup hnew
    cases hlast with
    | form hrun hlast =>
      cases hlast
      -- The frame has the name already, from the parameter that is repeated.
      have hbound : ∃ w, B.find? name = some w := by
        have hlt : params.length = ws.length := hlength.trans hfirst.length_eq.symm
        obtain ⟨i, hi, rfl⟩ := List.getElem_of_mem hname
        have hmem : (params[i], ws[i]) ∈ params.zip ws :=
          List.mem_iff_getElem.2 ⟨i, by simp; omega, by simp⟩
        exact ⟨_, (hB _ _).2 (.inr hmem)⟩
      obtain ⟨w, hw⟩ := hbound
      refine ⟨_, m', B, ?_, .inr ⟨⟨vs, hturn⟩, rfl⟩⟩
      rw [hloop, h₁.run_bindParams_cons hform hscope hrun, run_bind,
        run_define_fill_of_bound (h₁.evaluate hform hscope hrun).1.lt_extent hw]

end Parameters

/-! ## Calls of functions -/

/-- All scopes that anything in the machine refers to are in its store. -/
structure Whole (m : Machine) : Prop where
  complete : m.store.Complete
  parent_lt : ∀ e p, m.store.parent? e = some p → p < m.extent
  globals_lt : m.globals < m.extent

/-- The machine on which the first argument of a call is evaluated: the call is in the log, and
    there is an empty frame. -/
def entered (m : Machine) (params : List String) (captured : ScopeId) : Machine :=
  { m with
    store := (m.store.newScope (some captured)).2
    events := m.events.push (.call (Value.paramList params) m.depth) }

variable {params : List String}

/-- Nothing leads to a frame that has just been made. -/
theorem Whole.hides_entered (h : m.Whole) (params : List String) (captured : ScopeId) :
    (m.entered params captured).Hides m.extent captured where
  lt_extent := by
    show m.store.scopes.size < (m.store.newScope (some captured)).2.scopes.size
    simp
  parent_eq := by
    show (m.store.newScope (some captured)).2.parent? m.store.scopes.size = some captured
    simp [Store.parent?_newScope]
  bindings_eq := by
    show (m.store.newScope (some captured)).2.bindings m.store.scopes.size = .empty
    rw [Store.bindings_newScope, Store.bindings_of_size_le _ _ (Nat.le_refl _)]
  globals_ne := Nat.ne_of_lt h.globals_lt
  -- All other scopes are those of the machine before, whose parents existed already.
  parent_ne := by
    intro e p he hp
    have hp : (m.store.newScope (some captured)).2.parent? e = some p := hp
    rw [Store.parent?_newScope, if_neg he] at hp
    exact Nat.ne_of_lt (h.parent_lt e p hp)
  -- The same goes for what they bind.
  binding := by
    intro e name v he hv
    have hv : ((m.store.newScope (some captured)).2.bindings e).find? name = some v := hv
    rw [Store.bindings_newScope] at hv
    exact (h.complete e name v hv).imp fun _ hw => hw.imp fun _ => Nat.ne_of_lt

/-- A call with as many arguments as there are parameters binds them in a new frame, and evaluates
    the body there. -/
theorem run_apply_function (m : Machine) (id : Identity) {body args : Value}
    (captured scope : ScopeId) (hlength : args.length = params.length) :
    m.run (apply (.lambda .function id params body captured) args scope) =
      (m.entered params captured).run (do
        bindParams (evaluateWithin m.room · scope) m.extent (params.zip args.items)
        evaluateWithin m.room body m.extent) := by
  have hcheck : (Arity.exactly params.length).check (Value.paramList params) args.length =
      .ok () :=
    Arity.check_eq_ok_iff.2 hlength
  show m.run (applyFunction (evaluateWithin m.room) params body captured args scope) = _
  unfold applyFunction enterFrame
  rw [hcheck]
  simp only [bind_assoc, pure_bind]
  rfl

end Machine

/-- A frame that binds the pairs given and nothing else, and that nothing leads to: it is not
    around any scope, and no value that is bound anywhere refers to it, directly or through its
    parts, other scopes and what these bind. -/
structure Store.FreshFrame (s : Store) (frame captured : ScopeId) (pairs : List (String × Value)) :
    Prop where
  lt_size : frame < s.scopes.size
  bindings_iff : ∀ name v, (s.bindings frame).find? name = some v ↔ (name, v) ∈ pairs
  parent_eq : s.parent? frame = some captured
  parent_ne : ∀ e, s.parent? e ≠ some frame
  not_reachable : ∀ e name v, (s.bindings e).find? name = some v →
    ¬ s.Reachable .text [.value v] (.scope frame)

namespace Machine

variable {m : Machine} {frame captured : ScopeId} {B : NameMap Value}

/-- A value that does not refer to a hidden frame itself does not lead to it either, whatever the
    frame binds. -/
theorem Hides.not_reachable_fill (h : m.Hides frame captured) {v : Value}
    (hv : v.All (Value.RefersWithin .text (· ≠ frame))) :
    ¬ (m.fill frame B).store.Reachable .text [.value v] (.scope frame) := by
  intro hreach
  -- The scopes other than the frame only lead to each other.
  have hwithin := hreach.within (q := (· ≠ frame)) ?_ ?_ ?_
  · exact hwithin rfl
  · intro r hr
    obtain rfl := List.mem_singleton.1 hr
    exact hv
  · intro e p he hp
    have hp : (m.store.fill frame B).parent? e = some p := hp
    rw [Store.parent?_fill] at hp
    exact h.parent_ne e p he hp
  · intro e name w he hw
    have hw : ((m.store.fill frame B).bindings e).find? name = some w := hw
    rw [Store.bindings_fill_of_ne he] at hw
    exact h.binding e name w he hw

/-- A hidden frame that is filled is fresh, if the values it is filled with do not lead to it. -/
private theorem Hides.freshFrame (h : m.Hides frame captured) (hcaptured : captured ≠ frame)
    {pairs : List (String × Value)} (hB : ∀ name v, B.find? name = some v ↔ (name, v) ∈ pairs)
    (hpairs : ∀ pair ∈ pairs, pair.2.All (Value.RefersWithin .text (· ≠ frame))) :
    (m.fill frame B).store.FreshFrame frame captured pairs where
  lt_size := by
    show frame < (m.store.fill frame B).scopes.size
    rw [Store.size_fill]
    exact h.lt_extent
  bindings_iff name v := by
    show ((m.store.fill frame B).bindings frame).find? name = some v ↔ _
    rw [Store.bindings_fill_self h.lt_extent]
    exact hB name v
  parent_eq := by
    show (m.store.fill frame B).parent? frame = some captured
    rw [Store.parent?_fill]
    exact h.parent_eq
  parent_ne e := by
    show (m.store.fill frame B).parent? e ≠ some frame
    rw [Store.parent?_fill]
    -- The frame's own parent is the captured scope, which is another one.
    by_cases he : e = frame
    · rw [he, h.parent_eq]
      exact fun heq => hcaptured (Option.some.inj heq)
    · exact fun hp => h.parent_ne e frame he hp rfl
  not_reachable e name v hv := by
    have hv : ((m.store.fill frame B).bindings e).find? name = some v := hv
    -- A value that is bound in the frame came from an argument; others were there before.
    apply h.not_reachable_fill
    by_cases he : e = frame
    · rw [he, Store.bindings_fill_self h.lt_extent] at hv
      exact hpairs _ ((hB name v).1 hv)
    · rw [Store.bindings_fill_of_ne he] at hv
      exact h.binding e name v he hv

/-- What is in a sound machine is in its store. -/
theorem Sound.whole (h : m.Sound) : m.Whole where
  complete := h.refers
  parent_lt e p hp := by
    have hlt := h.rooted.parent_lt hp
    by_cases he : e < m.extent
    · exact Nat.lt_trans hlt he
    · rw [Store.parent?_of_size_le _ e (Nat.le_of_not_lt he)] at hp
      exact nomatch hp
  globals_lt := h.rooted.root_lt

end Machine

/-- Of names that are not distinct, there is a first one that repeats an earlier one. -/
theorem exists_first_repeated {names : List String} (h : ¬ names.Nodup) :
    ∃ before name after, names = before ++ name :: after ∧ before.Nodup ∧ name ∈ before := by
  -- From the end: either the names before the last are distinct already, or the repetition is
  -- there.
  induction names using List.reverseRecOn with
  | nil => exact absurd .nil h
  | append_singleton names name ih =>
    by_cases hnames : names.Nodup
    · refine ⟨names, name, [], rfl, hnames, ?_⟩
      by_contra hname
      exact h (List.nodup_append.2 ⟨hnames, by simp, by grind⟩)
    · obtain ⟨before, repeated, after, rfl, hbefore⟩ := ih hnames
      exact ⟨before, repeated, after ++ [name], by simp, hbefore⟩

/-- A call of a function with as many arguments as parameters, on a machine where scopes that are
    referred to exist. The frame is the one scope that is neither there before the call nor made
    later.

    If the parameters are distinct and the arguments succeed in turn, in the scope of the caller
    and beside an empty frame, then the body starts in a frame that binds the parameters to the
    values and nothing else, inside the captured scope, and nothing leads to the frame. The first
    argument that fails is what the call fails with.

    If the parameters are not distinct, then the call fails with the first error of an argument up
    to that of the first repeated parameter, or else with that parameter, and leaves the machine
    as those arguments did. -/
theorem call_frame_fresh_and_exact (m : Machine) (hm : m.Whole) (id : Identity)
    (params : List String) (body args : Value) (captured scope : ScopeId)
    (hcallee : m.store.Contains (.lambda .function id params body captured))
    (hargs : m.store.Contains args) (hscope : scope < m.extent)
    (hlength : args.length = params.length) :
    let frame := m.extent
    let entered := m.entered params captured
    let call := m.run (apply (.lambda .function id params body captured) args scope)
    (∀ e, e < m.extent ∨ entered.extent ≤ e ↔ e ≠ frame) ∧
      (params.Nodup →
        (∀ vs m₁, Machine.InTurn scope entered args.items vs m₁ →
          ∃ B, (m₁.fill frame B).store.FreshFrame frame captured (params.zip vs) ∧
            (∀ v ∈ vs, ¬ (m₁.fill frame B).store.Reachable .text [.value v] (.scope frame)) ∧
            call = (m₁.fill frame B).run (evaluate body frame)) ∧
        ∀ e m₁, Machine.FailsInTurn scope entered args.items e m₁ →
          ∃ B, call = (.error e, m₁.fill frame B)) ∧
      (¬ params.Nodup → ∃ before name after,
        params = before ++ name :: after ∧ before.Nodup ∧ name ∈ before ∧
        let forms := args.items.take (before.length + 1)
        ∃ e m₁ B, call = (.error e, m₁.fill frame B) ∧
          (Machine.FailsInTurn scope entered forms e m₁ ∨
            (∃ vs, Machine.InTurn scope entered forms vs m₁) ∧ e = .duplicateDefinition name)) := by
  intro frame entered call
  have hcall : call = entered.run (do
      bindParams (evaluateWithin m.room · scope) frame (params.zip args.items)
      evaluateWithin m.room body frame) := m.run_apply_function id captured scope hlength
  have hroom : m.room = entered.room := rfl
  have hhides : entered.Hides frame captured := hm.hides_entered params captured
  have hempty : entered.fill frame .empty = entered := by
    have hstore := Store.fill_bindings hhides.bindings_eq
    simp only [Machine.fill, hstore]
  have hforms : ∀ form ∈ args.items, form.All (Value.RefersWithin .text (· ≠ frame)) :=
    fun form hform => (Value.All.of_mem_items hargs hform).imp
      fun _ hw => hw.imp fun _ => Nat.ne_of_lt
  have hscope : scope ≠ frame := Nat.ne_of_lt hscope
  have hnew : ∀ p ∈ params, NameMap.find? (α := Value) .empty p = none := fun _ _ => rfl
  refine ⟨fun e => ?_, fun hnodup => ⟨fun vs m₁ hturn => ?_, fun e m₁ hturn => ?_⟩,
    fun hrepeats => ?_⟩
  · show e < m.store.scopes.size ∨ (m.store.newScope (some captured)).2.scopes.size ≤ e ↔
      e ≠ m.store.scopes.size
    rw [Store.size_newScope]
    grind
  · obtain ⟨h₁, hvs, B, hB, hloop⟩ :=
      hhides.run_bindParams hforms hscope hturn hlength.symm hnodup hnew
    have hB : ∀ name v, B.find? name = some v ↔ (name, v) ∈ params.zip vs := by
      intro name v
      rw [hB]
      simp
    have hloop := hloop []
    rw [List.append_nil, hempty] at hloop
    refine ⟨B, h₁.freshFrame (Nat.ne_of_lt hcallee.1) hB fun pair hpair =>
      hvs _ (List.of_mem_zip hpair).2, fun v hv => h₁.not_reachable_fill (hvs v hv), ?_⟩
    -- The arguments have left as much room for the body as the call had.
    have hleft : (m₁.fill frame B).room = m.room := hturn.room_eq
    rw [hcall, Machine.run_bind, hroom, hloop, Machine.run_evaluate, hleft, hroom]
    rfl
  · obtain ⟨B, hloop⟩ := hhides.run_bindParams_of_failsInTurn hforms hscope hturn hlength.symm
      hnodup hnew []
    rw [List.append_nil, hempty] at hloop
    refine ⟨B, ?_⟩
    rw [hcall, Machine.run_bind, hroom, hloop]
  · obtain ⟨before, name, after, rfl, hbefore, hname⟩ := exists_first_repeated hrepeats
    refine ⟨before, name, after, rfl, hbefore, hname, ?_⟩
    -- The arguments are split at the one of the repeated parameter.
    have hlt : before.length < args.items.length := by
      rw [show args.items.length = _ from hlength]
      simp
    have hcount : before.length = (args.items.take before.length).length := by
      simp only [List.length_take]
      omega
    have hitems : args.items.take before.length ++ args.items[before.length] ::
        args.items.drop (before.length + 1) = args.items := by simp
    have hzip : (before ++ name :: after).zip args.items =
        before.zip (args.items.take before.length) ++ (name, args.items[before.length]) ::
          after.zip (args.items.drop (before.length + 1)) := by
      conv_lhs => rw [← hitems]
      rw [List.zip_append hcount, List.zip_cons_cons]
    obtain ⟨e, m₁, B, hloop, hturn⟩ := hhides.run_bindParams_of_repeated
      (fun form hform => hforms form (List.mem_of_mem_take hform))
      (hforms _ (List.getElem_mem hlt)) hscope hcount hbefore hname
      (after.zip (args.items.drop (before.length + 1)))
    rw [← hzip, hempty] at hloop
    rw [List.take_append_getElem] at hturn
    refine ⟨e, m₁, B, ?_, hturn⟩
    rw [hcall, Machine.run_bind, hroom, hloop]

/-- The first argument is a call, which makes a scope of its own behind the frame. The second one
    is a symbol. Parameters of one name are refused. -/
theorem call_frame_beside_call :
    let m := Machine.start .empty {}
    let call : Value := .pair 2 (.lambda .function 3 [] (.bool true) 0) .nil
    let args : Value := .pair 1 call (.pair 4 (.quoted 5 (.symbol "x")) .nil)
    (∃ m₁ B, (Machine.fill m₁ 1 B).extent = 3 ∧
      (Machine.fill m₁ 1 B).store.FreshFrame 1 0 [("a", .bool true), ("b", .symbol "x")] ∧
      m.run (apply (.lambda .function 0 ["a", "b"] (.symbol "b") 0) args 0) =
        (Machine.fill m₁ 1 B).run (evaluate (.symbol "b") 1)) ∧
    (m.run (apply (.lambda .function 0 ["a", "a"] (.symbol "a") 0) args 0)).1 =
      .error (.duplicateDefinition "a") := by
  intro m call args
  have hm : m.Whole := (Machine.sound_start .empty {}).whole
  have hargs : m.store.Contains args := by
    simp [Store.Contains, args, call, Value.All, Value.RefersWithin]
    decide
  obtain ⟨-, hdistinct, -⟩ := call_frame_fresh_and_exact m hm 0 ["a", "b"] (.symbol "b") args 0 0
    ⟨Nat.one_pos, trivial⟩ hargs Nat.one_pos rfl
  obtain ⟨B, hframe, -, hcall⟩ := (hdistinct (by decide)).1 [.bool true, .symbol "x"] _
    (.form rfl (.form rfl (.done _)))
  refine ⟨⟨_, B, ?_, hframe, hcall⟩, rfl⟩
  exact Store.size_fill ..

end ScopeLisp
