import Mathlib.Data.List.Nodup
import ScopeLisp.Builtin.Registry
import ScopeLisp.Proofs.ByteOrder

/-!
# Installing builtins

A registry is filled by one registration after the other, from nothing or on top of the builtins of
the language, and a later builtin takes the place of an earlier one of the same name. What it holds
is said by that history alone. Installing it binds the constants in a scope and then each builtin
under its name. No two builtins have the same name, so it does not matter in which order they are
gone through: the store that is left, and the names as they are listed, are always the same.

## Key results

- `Registry.Registered.holds`: a registry holds the last registration of each name
- `Store.bindAll_perm`: different names may be bound in any order
- `Registry.Registered.installed`: what the scope binds afterwards
- `installation_independent_of_order`: installation and listing, for every order
-/

namespace ScopeLisp

/-! ## Binding several names -/

namespace NameMap

variable {α : Type} {m : NameMap α}

/-- Two different names may be inserted in either order. -/
private theorem insert_comm {name name' : String} (h : name ≠ name') (a b : α) :
    (m.insert name a).insert name' b = (m.insert name' b).insert name a := by
  -- Maps are equal if every name is found alike in both.
  refine ext_find? fun other => ?_
  simp only [find?_insert]
  grind

/-- The names of a map are those that it contains. -/
private theorem mem_names_iff {name : String} : name ∈ m.names ↔ m.contains name = true := by
  rw [contains, Option.isSome_iff_exists]
  simp only [find?_eq_some_iff_mem, names, List.mem_map, Prod.exists, exists_and_right,
    exists_eq_right]

/-- No name comes twice. -/
private theorem nodup_names (m : NameMap α) : m.names.Nodup := by
  refine List.pairwise_map.2 (m.ordered.imp fun {a b} hlt heq => ?_)
  rw [heq] at hlt
  exact String.lt_irrefl b.1 hlt

end NameMap

namespace Store

variable {s : Store} {e f : ScopeId} {entries entries' : List (String × Value)}

/-- Two different names may be bound in a scope in either order. -/
private theorem bind_comm {name name' : String} (h : name ≠ name') (v w : Value) :
    (s.bind e name v).bind e name' w = (s.bind e name' w).bind e name v := by
  simp only [bind, mk.injEq, and_true]
  refine Array.ext_getElem? fun i => ?_
  simp only [Array.getElem?_modify]
  by_cases hi : e = i
  · cases s.scopes[i]? <;> simp [hi, NameMap.insert_comm h]
  · simp [hi]

/-- Different names may be bound in any order. -/
theorem bindAll_perm (h : entries.Perm entries') (hnames : (entries.map (·.1)).Nodup) :
    s.bindAll e entries = s.bindAll e entries' := by
  -- Bindings with one name are one and the same, all others may be exchanged.
  refine h.foldl_eq' (fun x hx y hy t => ?_) s
  by_cases hname : x.1 = y.1
  · rw [List.inj_on_of_nodup_map hnames hx hy hname]
  · exact bind_comm hname x.2 y.2

/-- Two stores are the same but for the bindings of a scope. -/
structure SameBeside (s t : Store) (e : ScopeId) : Prop where
  size_eq : t.scopes.size = s.scopes.size
  fresh_eq : t.fresh = s.fresh
  parent_eq : ∀ f, t.parent? f = s.parent? f
  bindings_eq : ∀ f, f ≠ e → t.bindings f = s.bindings f

private theorem SameBeside.refl (s : Store) (e : ScopeId) : SameBeside s s e :=
  ⟨rfl, rfl, fun _ => rfl, fun _ _ => rfl⟩

/-- Bindings in a scope change nothing beside it. -/
private theorem SameBeside.bindAll {t : Store} (h : SameBeside s t e)
    (entries : List (String × Value)) :
    SameBeside s (t.bindAll e entries) e := by
  induction entries generalizing t with
  | nil => exact h
  | cons entry entries ih =>
    refine ih ⟨?_, h.fresh_eq, fun f => ?_, fun f hf => ?_⟩
    · rw [size_bind, h.size_eq]
    · rw [parent?_bind, h.parent_eq]
    · rw [bindings_bind, if_neg fun heq => hf heq.1.symm, h.bindings_eq f hf]

/-- Each of several names, all different, is bound to its value. -/
theorem find?_bindAll (he : e < s.scopes.size) (entries : List (String × Value))
    (hnames : (entries.map (·.1)).Nodup) (name : String) :
    ((s.bindAll e entries).bindings e).find? name =
      (entries.lookup name).or ((s.bindings e).find? name) := by
  -- The first name is bound first, so a later binding of it would go over it.
  induction entries generalizing s with
  | nil => rfl
  | cons entry entries ih =>
    obtain ⟨other, v⟩ := entry
    obtain ⟨hfresh, hnames⟩ := List.nodup_cons.1 hnames
    have hrest := ih (s := s.bind e other v) (by rwa [size_bind]) hnames
    rw [bindings_bind, if_pos ⟨rfl, he⟩, NameMap.find?_insert] at hrest
    rw [NameMap.lookup_cons_eq_ite]
    refine hrest.trans ?_
    by_cases hname : name = other
    · -- The name comes only once, so nothing goes over it.
      have hnone : entries.lookup name = none :=
        List.lookup_eq_none_iff.2 fun p hp => by
          rw [hname, bne_iff_ne]
          exact fun heq => hfresh (List.mem_map.2 ⟨p, hp, heq.symm⟩)
      rw [hnone, if_pos hname, if_pos hname]
      rfl
    · rw [if_neg hname, if_neg hname]

end Store

/-! ## Registries and their histories -/

namespace Registry

/-- Builtins registered one after the other, with the place in the history as identity. -/
def natives (history : List Builtin) : List Native :=
  history.zipIdx.map fun (b, i) => ⟨b, i⟩

/-- The last registration of a builtin of a name. -/
def latest (history : List Builtin) (name : String) : Option Native :=
  (natives history).reverse.find? (·.name = name)

/-- The registry is reached by registering the builtins in this order, where those of the language
    may have come first. -/
inductive Registered : (history : List Builtin) → Registry → Prop where
  | empty : Registered [] .empty
  | full : Registered catalogue .full
  | register {history : List Builtin} {r : Registry} (b : Builtin) : Registered history r →
      Registered (history ++ [b]) (r.register b)

/-- The last registration comes first into question. -/
theorem latest_concat (history : List Builtin) (b : Builtin) (name : String) :
    latest (history ++ [b]) name =
      if name = b.name then some ⟨b, history.length⟩ else latest history name := by
  by_cases h : name = b.name
  · simp [latest, natives, List.zipIdx_append, h]
  · simp [latest, natives, List.zipIdx_append, h, Ne.symm h]

/-- No registration is identical to another, also of the same builtin. -/
theorem natives_pairwise (history : List Builtin) : (natives history).Pairwise fun b c =>
    (Value.native b).identical (.native c) = false := by
  -- The identities are the places in the history.
  have hids : ((natives history).map (·.id)).Pairwise (· < ·) := by
    have hmap : (natives history).map (·.id) = List.range' 0 history.length := by
      rw [natives, List.map_map]
      exact List.zipIdx_map_snd 0 history
    rw [hmap]
    exact List.pairwise_lt_range'
  refine (List.pairwise_map.1 hids).imp fun {b c} hlt => ?_
  simp [Value.identical, Nat.ne_of_lt hlt]

/-- What a registry holds after a history: the last registration of each name, and as many
    identities are used up as there were registrations. -/
structure Holds (history : List Builtin) (r : Registry) : Prop where
  fresh_eq : r.fresh = history.length
  find?_eq : ∀ name, r.builtins.find? name = latest history name

/-- A registration takes the place of earlier ones of its name and leaves the others. -/
theorem Holds.register {history : List Builtin} {r : Registry} (h : Holds history r)
    (b : Builtin) : Holds (history ++ [b]) (r.register b) := by
  constructor
  · show r.fresh + 1 = _
    rw [h.fresh_eq, List.length_append, List.length_singleton]
  · intro name
    show (r.builtins.insert b.name ⟨b, r.fresh⟩).find? name = _
    rw [NameMap.find?_insert, latest_concat, h.find?_eq, h.fresh_eq]

/-- Several registrations in turn. -/
theorem Holds.foldl {history : List Builtin} {r : Registry} (h : Holds history r)
    (more : List Builtin) : Holds (history ++ more) (more.foldl Registry.register r) := by
  induction more generalizing history r with
  | nil => rwa [List.append_nil]
  | cons b more ih =>
    rw [List.append_cons]
    exact ih (h.register b)

theorem holds_empty : Holds [] .empty :=
  ⟨rfl, fun _ => rfl⟩

/-- A registry holds what its history says. -/
theorem Registered.holds {history : List Builtin} {r : Registry} (h : Registered history r) :
    Holds history r := by
  induction h with
  | empty => exact holds_empty
  | full => exact holds_empty.foldl catalogue
  | register b _ ih => exact ih.register b

/-! ## Installation in any order -/

/-- Binds the constants in a scope, and then builtins in the order given. Also the number of
    bindings made. -/
def installInOrder (order : List (String × Native)) (s : Store) (e : ScopeId) : Nat × Store :=
  (order.length + constants.length,
    (s.bindAll e constants).bindAll e (order.map fun (name, b) => (name, .native b)))

/-- A registry is installed in the order of its names. -/
private theorem install_eq_installInOrder (r : Registry) (s : Store) (e : ScopeId) :
    r.install s e = installInOrder r.builtins.entries s e := rfl

/-- Looking up a value of the builtins is looking up the builtin. -/
private theorem lookup_map_native (entries : List (String × Native)) (name : String) :
    (entries.map fun (name, b) => (name, Value.native b)).lookup name =
      (entries.lookup name).map .native := by
  induction entries with
  | nil => rfl
  | cons entry entries ih =>
    rw [List.map_cons, NameMap.lookup_cons_eq_ite, NameMap.lookup_cons_eq_ite, ih]
    split <;> rfl

/-- Builtins of different names may be installed in any order. -/
private theorem installInOrder_perm {order order' : List (String × Native)} (h : order.Perm order')
    (hnames : (order.map (·.1)).Nodup) (s : Store) (e : ScopeId) :
    installInOrder order s e = installInOrder order' s e := by
  refine Prod.ext (congrArg (· + constants.length) h.length_eq) ?_
  refine Store.bindAll_perm (h.map _) ?_
  rwa [List.map_map]

/-- What a scope binds after the builtins of a history have been installed in it. -/
structure Installed (history : List Builtin) (e : ScopeId) (s t : Store) : Prop where
  builtin : ∀ name b, latest history name = some b →
    (t.bindings e).find? name = some (.native b) ∧
      (Value.native b).tag = if b.kind = .function then .builtin else .specialForm
  constant : ∀ name v, latest history name = none →
    (name, v) ∈ [("nil", Value.nil), ("true", .bool true), ("false", .bool false)] →
    (t.bindings e).find? name = some v
  other : ∀ name, latest history name = none → name ∉ ["nil", "true", "false"] →
    (t.bindings e).find? name = (s.bindings e).find? name
  beside : Store.SameBeside s t e

/-- What a scope binds after a registry has been installed in it. -/
theorem Registered.installed {history : List Builtin} {r : Registry} (h : Registered history r)
    {s : Store} {e : ScopeId} (he : e < s.scopes.size) :
    Installed history e s (r.install s e).2 := by
  -- The builtins go over the constants, and the constants over what was there.
  have hfind : ∀ name, ((r.install s e).2.bindings e).find? name =
      ((latest history name).map .native).or
        ((constants.lookup name).or ((s.bindings e).find? name)) := by
    intro name
    have hnames : (r.bindings.map (·.1)).Nodup := by
      rw [bindings, List.map_map]
      exact r.builtins.nodup_names
    have hconstants := Store.find?_bindAll he constants (by decide) name
    have hsize := ((Store.SameBeside.refl s e).bindAll constants).size_eq
    have hbuiltins := Store.find?_bindAll (hsize ▸ he) r.bindings hnames name
    rw [hconstants, bindings, lookup_map_native] at hbuiltins
    rw [← h.holds.find?_eq]
    exact hbuiltins
  refine ⟨fun name b hb => ?_, fun name v hnone hv => ?_, fun name hnone hname => ?_, ?_⟩
  -- A builtin, and what type it has.
  · refine ⟨by rw [hfind, hb]; rfl, ?_⟩
    cases hkind : b.kind <;> simp [Value.tag, hkind]
  -- A constant under whose name no builtin was registered.
  · rw [hfind, hnone]
    simp only [List.mem_cons, Prod.mk.injEq, List.not_mem_nil, or_false] at hv
    rcases hv with ⟨rfl, rfl⟩ | ⟨rfl, rfl⟩ | ⟨rfl, rfl⟩ <;> rfl
  -- Any other name.
  · rw [hfind, hnone]
    simp only [List.mem_cons, List.not_mem_nil, or_false, not_or] at hname
    simp [constants, NameMap.lookup_cons_eq_ite, hname]
  · exact ((Store.SameBeside.refl s e).bindAll constants).bindAll r.bindings

/-! ## Listing -/

/-- The names, sorted in whatever way by their bytes, are the names as they are listed. -/
theorem eq_names_of_sorted {r : Registry} {order : List (String × Native)}
    (horder : order.Perm r.builtins.entries) {listing : List String}
    (hperm : listing.Perm (order.map (·.1)))
    (hsorted : listing.Pairwise fun name name' => ¬ Text.BytesBefore name' name) :
    listing = r.names := by
  -- Two lists of the same names, both in order, are equal.
  refine List.Perm.eq_of_pairwise (fun a b _ _ hab hba => ?_) hsorted ?_
    (hperm.trans (horder.map _))
  · rw [Text.bytesBefore_iff] at hab hba
    exact String.le_antisymm (String.not_lt.1 hab) (String.not_lt.1 hba)
  · refine List.pairwise_map.2 (r.builtins.ordered.imp fun {a b} hlt => ?_)
    rw [Text.bytesBefore_iff]
    exact String.lt_asymm hlt

/-- The registry gives out the builtins that it has. -/
private theorem get_eq_ok_iff {r : Registry} {name : String} {b : Native} :
    r.get name = .ok b ↔ r.builtins.find? name = some b := by
  unfold get
  cases r.builtins.find? name with
  | none => simp
  | some b' => simp

end Registry

/-- A registry is reached by any registrations, from nothing or from the builtins of the language,
    and is installed in a scope that exists, its builtins in any order. Then the outcome is that of
    the registry itself: the scope binds each name that was registered to the last registration
    under it, as a function or a special form according to its kind, then `nil`, `true` and `false`
    where no builtin has that name, and everything else as before; nothing beside the scope
    changes, and three more bindings are counted than there are builtins. Registrations are told
    apart also if they are of the same builtin. The names, sorted by their bytes from any order, are
    the listed ones: strictly ascending, as many as there are builtins, and exactly those that the
    registry has and finds. -/
theorem installation_independent_of_order {history : List Builtin} {r : Registry}
    (h : Registry.Registered history r) {s : Store} {e : ScopeId} (he : e < s.scopes.size)
    {order : List (String × Native)} (horder : order.Perm r.builtins.entries) :
    Registry.installInOrder order s e = r.install s e ∧
      Registry.Installed history e s (r.install s e).2 ∧ (r.install s e).1 = r.count + 3 ∧
      ((Registry.natives history).Pairwise fun b c =>
        (Value.native b).identical (.native c) = false) ∧
      (∀ listing : List String, listing.Perm (order.map (·.1)) →
        (listing.Pairwise fun name name' => ¬ Text.BytesBefore name' name) → listing = r.names) ∧
      r.names.Pairwise Text.BytesBefore ∧ r.names.length = r.count ∧
      ∀ name, (name ∈ r.names ↔ r.has name = true) ∧
        (r.has name = true ↔ ∃ b, r.get name = .ok b) ∧
        ∀ b, r.get name = .ok b ↔ Registry.latest history name = some b := by
  have hnames : (order.map (·.1)).Nodup := ((horder.map _).nodup_iff).2 r.builtins.nodup_names
  have hinstall : Registry.installInOrder order s e = r.install s e := by
    rw [Registry.install_eq_installInOrder]
    exact Registry.installInOrder_perm horder hnames s e
  refine ⟨hinstall, h.installed he, rfl, Registry.natives_pairwise history,
    fun listing => Registry.eq_names_of_sorted horder, ?_, List.length_map _, fun name => ?_⟩
  · exact List.pairwise_map.2 (r.builtins.ordered.imp Text.bytesBefore_iff.2)
  · refine ⟨NameMap.mem_names_iff, ?_, fun b => ?_⟩
    · simp only [Registry.get_eq_ok_iff]
      exact Option.isSome_iff_exists
    · rw [Registry.get_eq_ok_iff, h.holds.find?_eq]

/-- A function under the name of a constant. -/
def nilFunction : Builtin := ⟨"nil", "Takes the place of a constant", .function, .any, .echo⟩

/-- A special form under the same name. -/
def nilForm : Builtin := ⟨"nil", "Takes its place in turn", .specialForm, .exactly 1, .echo⟩

/-- A scope inside another that binds a constant and a name of its own. -/
def boundStore : Store :=
  ((((Store.empty.newScope none).2.newScope (some 0)).2.bind 1 "true" .nil).bind 1 "x" .nil)

/-- The builtins of the language and two more, installed from the last to the first: the constant
    gives way to the later of the two. -/
theorem installation_backwards_over_nil :
    let order := ((Registry.full.register nilFunction).register nilForm).builtins.entries.reverse
    let t := (Registry.installInOrder order boundStore 1).2
    1 < boundStore.scopes.size ∧ (t.bindings 1).find? "nil" = some (.native ⟨nilForm, 26⟩) ∧
      (t.bindings 1).find? "true" = some (.bool true) ∧ (t.bindings 1).find? "x" = some .nil := by
  have hreached : Registry.Registered (catalogue ++ [nilFunction] ++ [nilForm])
      ((Registry.full.register nilFunction).register nilForm) :=
    .register nilForm (.register nilFunction .full)
  have hexists : 1 < boundStore.scopes.size := by decide
  obtain ⟨heq, hinstalled, -⟩ :=
    installation_independent_of_order hreached hexists (List.reverse_perm _)
  refine ⟨hexists, ?_⟩
  rw [heq]
  refine ⟨(hinstalled.builtin "nil" ⟨nilForm, 26⟩ (by decide)).1,
    hinstalled.constant "true" _ (by decide) (by decide), ?_⟩
  rw [hinstalled.other "x" (by decide) (by decide)]
  rfl

end ScopeLisp
