import Mathlib.Data.List.Perm.Subperm
import Mathlib.Order.WellFounded
import ScopeLisp.Machine

/-!
# Laws of scopes

A name means in a scope what the nearest scope around it binds it to. `Store.Owns` says which one
that is by going from parent to parent; in the store the same is found along a chain of bounded
length, which loses nothing as long as going outward comes to an end (`Store.Grounded`).

The three operations on bindings differ in when they are refused and in the scope that they change.
What they do to it is the same: one name is bound there, and every scope sees the change unless a
nearer scope binds the name.

## Key results

- `Store.Grounded.owner?_eq_some_iff`: the chain of a scope finds the nearest scope that binds a
  name
- `Store.Grounded.lookup_of_owns`, `Store.Grounded.lookup_of_not_owns`: what a name means
- `Store.Grounded.rebinds_bind`: what binding a name in a scope changes, for every observer
- `scopes_obey_laws`: when the operations are refused, and what they change
-/

namespace ScopeLisp

/-! ## Searching a list -/

/-- What is found along a list is found at the first element where there is something. -/
theorem findSome?_eq_bind_find? {α β : Type} (g : α → Option β) (l : List α) :
    l.findSome? g = (l.find? fun a => (g a).isSome).bind g := by
  induction l with
  | nil => rfl
  | cons a l ih =>
    cases ha : g a with
    | none => simp [ha, ih]
    | some b => simp [ha]

/-- Along a list, changing what is found at one element only matters if that is the first element
    where something is found. -/
theorem findSome?_eq_of_find?_ne {α β : Type} [DecidableEq α] {g g' : α → Option β} {a : α}
    (hsame : ∀ b, b ≠ a → g' b = g b) (hsome : (g' a).isSome = true) (l : List α)
    (h : l.find? (fun b => (g' b).isSome) ≠ some a) : l.findSome? g' = l.findSome? g := by
  -- Up to the first hit the list is searched alike; the hit itself is not the changed element.
  induction l with
  | nil => rfl
  | cons b l ih =>
    have hne : b ≠ a := by
      rintro rfl
      exact h (List.find?_cons_of_pos hsome)
    rw [List.findSome?_cons, List.findSome?_cons, ← hsame b hne]
    cases hb : g' b with
    | some c => rfl
    | none =>
      rw [List.find?_cons_of_neg (by simp [hb])] at h
      exact ih h

namespace Store

variable {s t : Store} {e f o p : ScopeId} {name x : String} {v : Value}

/-! ## The nearest scope that binds a name -/

/-- Going from a scope to its parent, and on from there, comes to an end. -/
def Grounded (s : Store) : Prop :=
  WellFounded fun p e => s.parent? e = some p

/-- The first scope that binds the name on the way outward from a scope. -/
inductive Owns (s : Store) (name : String) : (observer owner : ScopeId) → Prop where
  | here {e : ScopeId} : s.binds e name = true → Owns s name e e
  | outward {e p o : ScopeId} : s.binds e name = false → s.parent? e = some p →
      Owns s name p o → Owns s name e o

/-- Going outward comes to an end where every parent is older than the scopes in it. -/
theorem grounded_of_parent_lt (h : ∀ e p, s.parent? e = some p → p < e) : s.Grounded :=
  Subrelation.wf (fun hp => h _ _ hp) Nat.lt_wfRel.wf

/-- A scope with a parent exists. -/
private theorem lt_size_of_parent? (h : s.parent? e = some p) : e < s.scopes.size := by
  refine Nat.lt_of_not_le fun hle => ?_
  rw [parent?_of_size_le s e hle] at h
  exact nomatch h

/-- A scope that binds a name exists. -/
private theorem lt_size_of_binds (h : s.binds e name = true) : e < s.scopes.size := by
  refine Nat.lt_of_not_le fun hle => ?_
  rw [binds, bindings_of_size_le s e hle] at h
  exact nomatch h

/-- There are no more distinct scopes than the store has. -/
theorem length_le_size {scopes : List ScopeId} (hnodup : scopes.Nodup)
    (hexist : ∀ a ∈ scopes, a < s.scopes.size) : scopes.length ≤ s.scopes.size := by
  have hsub : scopes ⊆ List.range s.scopes.size := fun a ha => List.mem_range.2 (hexist a ha)
  have hle := (List.subperm_of_subset hnodup hsub).length_le
  rwa [List.length_range] at hle

/-- Distinct scopes that are as many as the store has are all of them. -/
theorem mem_of_size_le_length {scopes : List ScopeId} (hnodup : scopes.Nodup)
    (hexist : ∀ a ∈ scopes, a < s.scopes.size) (hlen : s.scopes.size ≤ scopes.length)
    (he : e < s.scopes.size) : e ∈ scopes := by
  refine Decidable.byContradiction fun hnew => ?_
  have hle := length_le_size (List.nodup_cons.2 ⟨hnew, hnodup⟩)
    (List.forall_mem_cons.2 ⟨he, hexist⟩)
  rw [List.length_cons] at hle
  omega

/-- No scope is among those that lead to it. -/
theorem Grounded.not_transGen (h : s.Grounded) :
    ¬ Relation.TransGen (fun a b => s.parent? a = some b) e e := by
  intro hloop
  have hwf : WellFounded (Relation.TransGen fun p e => s.parent? e = some p) := h.transGen
  exact hwf.irrefl.irrefl e (Relation.transGen_swap.1 hloop)

/-- Distinct scopes of the store from which going outward leads to `e`. -/
structure Passed (s : Store) (passed : List ScopeId) (e : ScopeId) : Prop where
  nodup : passed.Nodup
  exist : ∀ a ∈ passed, a < s.scopes.size
  lead : ∀ a ∈ passed, Relation.TransGen (fun a b => s.parent? a = some b) a e

/-- Going on to the parent, one more scope has been passed. -/
theorem Grounded.passed_parent {passed : List ScopeId} (h : s.Grounded)
    (hpassed : s.Passed passed e) (hp : s.parent? e = some p) : s.Passed (e :: passed) p where
  nodup := List.nodup_cons.2 ⟨fun hmem => h.not_transGen (hpassed.lead e hmem), hpassed.nodup⟩
  exist := List.forall_mem_cons.2 ⟨lt_size_of_parent? hp, hpassed.exist⟩
  lead := List.forall_mem_cons.2 ⟨.single hp, fun a ha => (hpassed.lead a ha).tail hp⟩

/-- Along a chain with `fuel` scopes the nearest scope that binds a name is found, if the scopes
    already passed leave no more than `fuel` others. -/
theorem Grounded.find?_chainUpTo {passed : List ScopeId} (h : s.Grounded)
    (hpassed : s.Passed passed e) {fuel : Nat} (hfuel : s.scopes.size ≤ fuel + passed.length) :
    (s.chainUpTo fuel e).find? (s.binds · name) = some o ↔ s.Owns name e o := by
  -- By induction on the fuel: each scope that is passed takes one unit and is not met again.
  induction fuel generalizing e passed with
  | zero =>
    -- All scopes have been passed, so there is none here.
    have hnone : s.scopes.size ≤ e := by
      refine Nat.le_of_not_lt fun hlt => h.not_transGen (hpassed.lead e ?_)
      exact mem_of_size_le_length hpassed.nodup hpassed.exist (by omega) hlt
    refine ⟨fun hfound => (by cases hfound), fun howns => ?_⟩
    cases howns with
    | here hb => exact absurd (lt_size_of_binds hb) (Nat.not_lt.2 hnone)
    | outward _ hp _ => exact absurd (lt_size_of_parent? hp) (Nat.not_lt.2 hnone)
  | succ fuel ih =>
    rw [chainUpTo, List.find?_cons]
    cases hb : s.binds e name with
    | true =>
      constructor
      · intro hfound
        obtain rfl := Option.some.inj hfound
        exact .here hb
      · intro howns
        cases howns with
        | here _ => rfl
        | outward hfalse _ _ => exact absurd (hb.symm.trans hfalse) Bool.noConfusion
    | false =>
      cases hp : s.parent? e with
      | none =>
        refine ⟨fun hfound => (by cases hfound), fun howns => ?_⟩
        cases howns with
        | here htrue => exact absurd (hb.symm.trans htrue) Bool.noConfusion
        | outward _ hp' _ => cases hp.symm.trans hp'
      | some p =>
        have hrest := ih (h.passed_parent hpassed hp) (by rw [List.length_cons]; omega)
        refine hrest.trans ⟨.outward hb hp, fun howns => ?_⟩
        cases howns with
        | here htrue => exact absurd (hb.symm.trans htrue) Bool.noConfusion
        | outward _ hp' howns =>
          obtain rfl := Option.some.inj (hp.symm.trans hp')
          exact howns

/-- The nearest scope of the chain that binds a name is the first one on the way outward. -/
theorem Grounded.owner?_eq_some_iff (h : s.Grounded) :
    s.owner? e name = some o ↔ s.Owns name e o := by
  have hstart : s.Passed [] e := ⟨.nil, nofun, nofun⟩
  exact h.find?_chainUpTo hstart (Nat.le_refl _)

/-- The chain finds no scope exactly if no scope on the way outward binds the name. -/
private theorem Grounded.owner?_eq_none_iff (h : s.Grounded) :
    s.owner? e name = none ↔ ∀ o, ¬ s.Owns name e o := by
  rw [Option.eq_none_iff_forall_ne_some]
  exact forall_congr' fun o => not_congr h.owner?_eq_some_iff

/-! ## What a name means -/

/-- The nearest scope that binds a name binds it. -/
private theorem Owns.binds (h : s.Owns name e o) : s.binds o name = true := by
  induction h with
  | here hb => exact hb
  | outward _ _ _ ih => exact ih

/-- What a name means is what its owner binds it to. -/
private theorem lookup_eq (s : Store) (e : ScopeId) (name : String) :
    s.lookup e name =
      match (s.owner? e name).bind fun o => (s.bindings o).find? name with
      | some v => .ok v
      | none => .error (.undefined name) := by
  rw [lookup, findSome?_eq_bind_find?]
  rfl

/-- A name means what the nearest scope binds it to. -/
theorem Grounded.lookup_of_owns (h : s.Grounded) (howns : s.Owns name e o) :
    ∃ v, (s.bindings o).find? name = some v ∧ s.lookup e name = .ok v := by
  obtain ⟨v, hv⟩ := Option.isSome_iff_exists.1 howns.binds
  refine ⟨v, hv, ?_⟩
  rw [lookup_eq, h.owner?_eq_some_iff.2 howns, Option.bind_some, hv]

/-- A name that no scope on the way outward binds is undefined. -/
theorem Grounded.lookup_of_not_owns (h : s.Grounded) (hnone : ∀ o, ¬ s.Owns name e o) :
    s.lookup e name = .error (.undefined name) := by
  rw [lookup_eq, h.owner?_eq_none_iff.2 hnone, Option.bind_none]

/-! ## Binding a name in a scope -/

/-- The second store has one binding that the first one need not have: the name in the scope `o` is
    bound to the value. Scopes whose nearest binding of the name is this one see the value, and all
    else is seen as before. -/
structure Rebinds (s : Store) (o : ScopeId) (name : String) (v : Value) (t : Store) : Prop where
  size_eq : t.scopes.size = s.scopes.size
  parent_eq : ∀ e, t.parent? e = s.parent? e
  fresh_eq : t.fresh = s.fresh
  binding : ∀ e x, (t.bindings e).find? x =
    if e = o ∧ x = name then some v else (s.bindings e).find? x
  lookup_new : ∀ f, t.Owns name f o → t.lookup f name = .ok v
  lookup_old : ∀ f x, ¬ (x = name ∧ t.Owns name f o) → t.lookup f x = s.lookup f x

/-- Bindings do not change which scope is inside which. -/
private theorem Grounded.bind (h : s.Grounded) (o : ScopeId) (name : String) (v : Value) :
    (s.bind o name v).Grounded := by
  unfold Grounded
  simp only [parent?_bind]
  exact h

/-- What is found in a scope after a name has been bound in one that exists. -/
private theorem find?_bindings_bind (s : Store) (ho : o < s.scopes.size) (name : String) (v : Value)
    (e : ScopeId) (x : String) : ((s.bind o name v).bindings e).find? x =
      if e = o ∧ x = name then some v else (s.bindings e).find? x := by
  rw [bindings_bind]
  by_cases he : o = e
  · subst he
    simp [ho]
  · have he' : e ≠ o := fun heq => he heq.symm
    simp [he, he']

/-- Binding a name in a scope changes what the name means exactly for the scopes whose nearest
    binding of it is the changed one. -/
theorem Grounded.rebinds_bind (h : s.Grounded) (ho : o < s.scopes.size) (name : String)
    (v : Value) : s.Rebinds o name v (s.bind o name v) := by
  have hfind := find?_bindings_bind s ho name v
  have h' := h.bind o name v
  refine ⟨size_bind .., fun e => parent?_bind .., rfl, hfind, ?_, ?_⟩
  -- An observer whose nearest binding is the changed one.
  · intro f howns
    obtain ⟨w, hw, hlookup⟩ := h'.lookup_of_owns howns
    rw [hfind, if_pos ⟨rfl, rfl⟩] at hw
    rw [hlookup, Option.some.inj hw]
  -- Any other observer, or another name.
  · intro f x hnot
    unfold lookup
    rw [chain_bind]
    by_cases hx : x = name
    · subst hx
      have hfar : (s.bind o x v).owner? f x ≠ some o := fun hfound =>
        hnot ⟨rfl, h'.owner?_eq_some_iff.1 hfound⟩
      rw [owner?, chain_bind] at hfar
      -- The nearest binding is another one, which is the same in both stores.
      rw [findSome?_eq_of_find?_ne (a := o) (fun b hb => by rw [hfind, if_neg (fun hc => hb hc.1)])
        (by rw [hfind, if_pos ⟨rfl, rfl⟩]; rfl) _ hfar]
    · have hsame : (fun b => ((s.bind o name v).bindings b).find? x) =
          fun b => (s.bindings b).find? x := by
        funext b
        rw [hfind, if_neg fun hc => hx hc.2]
      rw [hsame]

end Store

/-! ## The operations -/

/-- An operation is refused under a condition, and then leaves the machine as it was; otherwise it
    binds the name to the value in a target scope and changes nothing else. -/
def Machine.BindsUnless (m : Machine) (refused : Prop) (error : Error) (target : ScopeId → Prop)
    (name : String) (v : Value) (act : EvalM Unit) : Prop :=
  (refused → m.run act = (.error error, m)) ∧
    (¬ refused → ∃ o t, target o ∧ m.run act = (.ok (), { m with store := t }) ∧
      m.store.Rebinds o name v t)

/-- In a machine whose scopes are grounded, a name means in every scope what the nearest scope binds
    it to, and nothing if there is none. Defining is refused exactly where the scope itself binds
    the name already, assigning where it does not, and assigning outward where no scope around it
    does. What is not refused binds the name in the scope itself, or in the nearest one that binds
    it, and every observer sees what `Store.Rebinds` says. -/
theorem scopes_obey_laws (m : Machine) (hgrounded : m.store.Grounded) (e : ScopeId)
    (he : e < m.store.scopes.size) (name : String) (v : Value) :
    (∀ f x, (∀ o, m.store.Owns x f o →
        ∃ w, (m.store.bindings o).find? x = some w ∧ m.store.lookup f x = .ok w) ∧
      ((∀ o, ¬ m.store.Owns x f o) → m.store.lookup f x = .error (.undefined x))) ∧
    m.BindsUnless (m.store.binds e name = true) (.duplicateDefinition name) (· = e) name v
      (EvalM.update (·.define e name v)) ∧
    m.BindsUnless (m.store.binds e name = false) (.undefinedHere name) (· = e) name v
      (EvalM.update (·.assign e name v)) ∧
    m.BindsUnless (∀ o, ¬ m.store.Owns name e o) (.undefined name) (m.store.Owns name e) name v
      (EvalM.update (·.assignNonLocal e name v)) := by
  have hlocal := hgrounded.rebinds_bind he name v
  refine ⟨fun f x => ⟨fun o => hgrounded.lookup_of_owns, hgrounded.lookup_of_not_owns⟩, ?_, ?_, ?_⟩
  -- Defining is refused where the scope itself binds the name.
  · refine ⟨fun hbound => ?_, fun hfree => ⟨e, _, rfl, ?_, hlocal⟩⟩
    · rw [Machine.run_update, Store.define, if_pos hbound]
    · rw [Machine.run_update, Store.define, if_neg hfree]
  -- Assigning is refused where it does not.
  · refine ⟨fun hfree => ?_, fun hbound => ⟨e, _, rfl, ?_, hlocal⟩⟩
    · rw [Machine.run_update, Store.assign, if_neg (by rw [hfree]; exact Bool.false_ne_true)]
    · rw [Machine.run_update, Store.assign, if_pos (Bool.eq_true_of_not_eq_false hbound)]
  -- Assigning outward is refused where no scope on the way does.
  · refine ⟨fun hnone => ?_, fun hsome => ?_⟩
    · rw [Machine.run_update, Store.assignNonLocal, hgrounded.owner?_eq_none_iff.2 hnone]
    · obtain ⟨o, howns⟩ := not_forall_not.1 hsome
      have ho := Store.lt_size_of_binds howns.binds
      refine ⟨o, _, howns, ?_, hgrounded.rebinds_bind ho name v⟩
      rw [Machine.run_update, Store.assignNonLocal, hgrounded.owner?_eq_some_iff.2 howns]

/-- A machine whose global scope binds `x`, with one scope in it that binds `x`, too, and two scopes
    that do not: one in the inner scope and one beside it. -/
def nestedMachine : Machine where
  store :=
    { scopes := #[⟨none, NameMap.empty.insert "x" .nil⟩,
        ⟨some 0, NameMap.empty.insert "x" (.bool false)⟩, ⟨some 1, .empty⟩, ⟨some 0, .empty⟩]
      fresh := 0 }
  globals := 0
  config := {}
  depth := 0
  output := ""
  events := #[]

/-- Assigning outward from the innermost scope changes the inner `x`, which the scope beside it does
    not see. -/
theorem rebinds_nestedMachine :
    nestedMachine.store.Grounded ∧
      ∃ t, nestedMachine.run (EvalM.update (·.assignNonLocal 2 "x" (.bool true))) =
          (.ok (), { nestedMachine with store := t }) ∧
        nestedMachine.store.Rebinds 1 "x" (.bool true) t ∧
        t.lookup 2 "x" = .ok (.bool true) ∧ t.lookup 3 "x" = .ok .nil := by
  have hgrounded : nestedMachine.store.Grounded := by
    refine Store.grounded_of_parent_lt fun e p hp => ?_
    match e with
    | 0 | _ + 4 => exact nomatch hp
    | 1 | 2 | 3 => exact Option.some.inj hp ▸ by decide
  have hlaws := (scopes_obey_laws nestedMachine hgrounded 2 (by decide) "x" (.bool true)).2.2.2
  have howns : nestedMachine.store.Owns "x" 2 1 := hgrounded.owner?_eq_some_iff.1 (by decide)
  obtain ⟨o, t, ho, hrun, hrebinds⟩ := hlaws.2 fun hnone => hnone 1 howns
  obtain rfl : 1 = o := Option.some.inj
    ((hgrounded.owner?_eq_some_iff.2 howns).symm.trans (hgrounded.owner?_eq_some_iff.2 ho))
  obtain rfl : nestedMachine.store.bind 1 "x" (.bool true) = t :=
    congrArg (·.2.store) hrun
  exact ⟨hgrounded, _, hrun, hrebinds, rfl, rfl⟩

end ScopeLisp
