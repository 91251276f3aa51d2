import ScopeLisp.Proofs.Invariants
import ScopeLisp.Proofs.Reachability

/-!
# Stores only grow

A session starts with the global scope alone and runs one program after the other, whether they
succeed or not. Every scope is created inside one that exists already, so the parents of a scope
lead to the global scope without ever coming back. From one state of a session to a later one
scopes are added and bound, but none is removed or moved elsewhere, and no name is unbound.

The invariant behind it is that parents have smaller numbers than the scopes in them, and that all
scopes which values refer to exist (`Store.Rooted`, `Invariant.growth`).

## Key results

- `Store.Rooted.chainsTo`: every chain ends in the outermost scope
- `Store.Grows.chain_eq`, `Store.Grows.resolves`: what is seen along a chain does not regress
- `session_rooted_and_grows`: both hold in every session
-/

namespace ScopeLisp

namespace Store

variable {s t u : Store} {root : ScopeId}

/-! ## Chains that end in one scope -/

/-- Scopes that lead from parent to parent to one without a parent. -/
inductive Path (s : Store) (root : ScopeId) : List ScopeId → Prop where
  | root : s.parent? root = none → Path s root [root]
  | parent {e p : ScopeId} {rest : List ScopeId} : s.parent? e = some p →
      Path s root (p :: rest) → Path s root (e :: p :: rest)

/-- The chain of a scope starts there and leads from parent to parent to the root, without coming
    back to a scope. -/
structure ChainsTo (s : Store) (e root : ScopeId) : Prop where
  starts : (s.chain e).head? = some e
  path : s.Path root (s.chain e)
  nodup : (s.chain e).Nodup
  root_eq : s.root e = root

/-- Every scope but one has a parent, which is older than the scope itself. -/
structure Rooted (s : Store) (root : ScopeId) : Prop where
  root_lt : root < s.scopes.size
  parent_root : s.parent? root = none
  eq_root : ∀ {e : ScopeId}, e < s.scopes.size → s.parent? e = none → e = root
  parent_lt : ∀ {e p : ScopeId}, s.parent? e = some p → p < e

/-- The chain of a scope without a parent is the scope alone. -/
private theorem chainUpTo_of_root {fuel : Nat} {e : ScopeId} (h : s.parent? e = none) :
    s.chainUpTo (fuel + 1) e = [e] := by
  simp only [chainUpTo, h, Option.elim_none]

/-- The chain of a scope goes on with that of its parent. -/
private theorem chainUpTo_of_parent {fuel : Nat} {e p : ScopeId} (h : s.parent? e = some p) :
    s.chainUpTo (fuel + 1) e = e :: s.chainUpTo fuel p := by
  simp only [chainUpTo, h, Option.elim_some]

/-- Parents are older, so the fuel that lasts for a scope lasts for its parent. -/
theorem Rooted.chainUpTo_path (h : s.Rooted root) {fuel : Nat} {e : ScopeId}
    (he : e < s.scopes.size) (hfuel : e < fuel) :
    ∃ rest, s.chainUpTo fuel e = e :: rest ∧ s.Path root (e :: rest) ∧ (∀ o ∈ rest, o < e) ∧
      (e :: rest).Nodup := by
  -- The scopes that follow are all older, so none of them comes twice.
  induction fuel generalizing e with
  | zero => exact absurd hfuel (Nat.not_lt_zero e)
  | succ fuel ih =>
    cases hp : s.parent? e with
    | none =>
      obtain rfl := h.eq_root he hp
      exact ⟨[], chainUpTo_of_root hp, .root hp, by simp, by simp⟩
    | some p =>
      have hlt := h.parent_lt hp
      obtain ⟨rest, hchain, hpath, hbelow, hnodup⟩ := ih (e := p) (Nat.lt_trans hlt he)
        (Nat.lt_of_lt_of_le hlt (Nat.le_of_lt_succ hfuel))
      have hbelow' : ∀ o ∈ p :: rest, o < e := by
        intro o ho
        rcases List.mem_cons.1 ho with rfl | ho
        · exact hlt
        · exact Nat.lt_trans (hbelow o ho) hlt
      refine ⟨p :: rest, ?_, .parent hp hpath, hbelow', List.nodup_cons.2 ⟨?_, hnodup⟩⟩
      · rw [chainUpTo_of_parent hp, hchain]
      · exact fun hmem => Nat.lt_irrefl e (hbelow' e hmem)

/-- A path ends in the root. -/
private theorem Path.getLast?_eq {path : List ScopeId} (h : s.Path root path) :
    path.getLast? = some root := by
  induction h with
  | root => rfl
  | parent _ _ ih => rw [List.getLast?_cons_cons, ih]

/-- Every chain ends in the outermost scope. -/
theorem Rooted.chainsTo (h : s.Rooted root) {e : ScopeId} (he : e < s.scopes.size) :
    s.ChainsTo e root := by
  obtain ⟨rest, hchain, hpath, -, hnodup⟩ := h.chainUpTo_path he he
  have hchain : s.chain e = e :: rest := hchain
  refine ⟨by rw [hchain]; rfl, by rw [hchain]; exact hpath, by rw [hchain]; exact hnodup, ?_⟩
  rw [Store.root, hchain, List.getLastD_eq_getLast?, hpath.getLast?_eq, Option.getD_some]

/-- A new scope inside one that exists keeps the store rooted. -/
private theorem Rooted.newScope (h : s.Rooted root) {p : ScopeId} (hp : p < s.scopes.size) :
    (s.newScope (some p)).2.Rooted root where
  root_lt := by
    rw [size_newScope]
    exact Nat.lt_succ_of_lt h.root_lt
  parent_root := by
    rw [parent?_newScope, if_neg (Nat.ne_of_lt h.root_lt), h.parent_root]
  eq_root := by
    intro e he hnone
    rw [size_newScope] at he
    rw [parent?_newScope] at hnone
    split at hnone
    -- The new scope has a parent, and is younger than it as it comes last.
    · exact nomatch hnone
    · next hne => exact h.eq_root (Nat.lt_of_le_of_ne (Nat.le_of_lt_succ he) hne) hnone
  parent_lt := by
    intro e q hq
    rw [parent?_newScope] at hq
    split at hq
    · next heq =>
      obtain rfl := Option.some.inj hq
      exact heq ▸ hp
    · exact h.parent_lt hq

/-- Bindings keep the store rooted. -/
private theorem Rooted.bind (h : s.Rooted root) (e : ScopeId) (name : String) (v : Value) :
    (s.bind e name v).Rooted root where
  root_lt := by
    rw [size_bind]
    exact h.root_lt
  parent_root := by
    rw [parent?_bind]
    exact h.parent_root
  eq_root := by
    intro f hf hnone
    rw [size_bind] at hf
    rw [parent?_bind] at hnone
    exact h.eq_root hf hnone
  parent_lt := by
    intro f p hp
    rw [parent?_bind] at hp
    exact h.parent_lt hp

/-! ## Growth -/

/-- Scopes are added and names are bound, but none of the scopes that were there is removed or has
    another parent, and none of their names is unbound. -/
structure Grows (s t : Store) : Prop where
  size_le : s.scopes.size ≤ t.scopes.size
  parent_eq : ∀ e, e < s.scopes.size → t.parent? e = s.parent? e
  binds : ∀ e name, s.binds e name = true → t.binds e name = true

private theorem Grows.refl (s : Store) : s.Grows s :=
  ⟨Nat.le_refl _, fun _ _ => rfl, fun _ _ => id⟩

/-- Growth after growth is growth. -/
private theorem Grows.trans (h : s.Grows t) (h' : t.Grows u) : s.Grows u where
  size_le := Nat.le_trans h.size_le h'.size_le
  parent_eq e he := by
    rw [h'.parent_eq e (Nat.lt_of_lt_of_le he h.size_le), h.parent_eq e he]
  binds e name hb := h'.binds e name (h.binds e name hb)

/-- A store grows by a new scope. -/
private theorem grows_newScope (s : Store) (p : Option ScopeId) : s.Grows (s.newScope p).2 where
  size_le := by
    rw [size_newScope]
    omega
  parent_eq e he := by
    rw [parent?_newScope, if_neg (Nat.ne_of_lt he)]
  binds e name hb := by
    rw [Store.binds, bindings_newScope]
    exact hb

/-- A store grows by a binding. -/
private theorem grows_bind (s : Store) (e : ScopeId) (name : String) (v : Value) :
    s.Grows (s.bind e name v) where
  size_le := Nat.le_of_eq (size_bind ..).symm
  parent_eq f _ := parent?_bind ..
  binds f name' hb := by
    rw [Store.binds, bindings_bind]
    split
    -- In the scope that changes, the name bound is there, and the others still are.
    · simp only [NameMap.contains, NameMap.find?_insert]
      split
      · rfl
      · exact hb
    · exact hb

/-- What the chain of a scope is does not depend on scopes that are added. -/
theorem Grows.chain_eq (h : s.Grows t) (hs : s.Rooted root) {e : ScopeId}
    (he : e < s.scopes.size) : t.chain e = s.chain e := by
  have hstep : ∀ fuel fuel' o, o < s.scopes.size → o < fuel → o < fuel' →
      t.chainUpTo fuel' o = s.chainUpTo fuel o := by
    -- The stores have different sizes, so the chains are followed with different fuel.
    intro fuel
    induction fuel with
    | zero => exact fun _ o _ hlt => absurd hlt (Nat.not_lt_zero o)
    | succ fuel ih =>
      intro fuel' o ho hlt hlt'
      obtain ⟨fuel', rfl⟩ := Nat.exists_eq_add_one_of_ne_zero (Nat.ne_zero_of_lt hlt')
      have hparent := h.parent_eq o ho
      cases hp : s.parent? o with
      | none =>
        rw [chainUpTo_of_root hp, chainUpTo_of_root (hparent.trans hp)]
      | some p =>
        have hlt_p := hs.parent_lt hp
        rw [chainUpTo_of_parent hp, chainUpTo_of_parent (hparent.trans hp),
          ih fuel' p (Nat.lt_trans hlt_p ho) (Nat.lt_of_lt_of_le hlt_p (Nat.le_of_lt_succ hlt))
            (Nat.lt_of_lt_of_le hlt_p (Nat.le_of_lt_succ hlt'))]
  exact hstep _ _ e he he (Nat.lt_of_lt_of_le he h.size_le)

/-- A scope stays as deep as it is. -/
private theorem Grows.depth_eq (h : s.Grows t) (hs : s.Rooted root) {e : ScopeId}
    (he : e < s.scopes.size) : t.depth e = s.depth e := by
  rw [depth, h.chain_eq hs he, depth]

/-- The outermost scope around a scope stays the same. -/
private theorem Grows.root_eq (h : s.Grows t) (hs : s.Rooted root) {e : ScopeId}
    (he : e < s.scopes.size) : t.root e = s.root e := by
  rw [Store.root, h.chain_eq hs he, Store.root]

/-- A name means something in a scope exactly when a scope of its chain binds it. -/
theorem resolves_iff {e : ScopeId} {name : String} :
    s.resolves e name = true ↔ ∃ o ∈ s.chain e, s.binds o name = true := by
  unfold resolves lookup
  cases hfind : (s.chain e).findSome? fun o => (s.bindings o).find? name with
  | none =>
    rw [List.findSome?_eq_none_iff] at hfind
    simpa [Except.toOption, binds, NameMap.contains] using hfind
  -- What is found is bound in some scope of the chain.
  | some v =>
    obtain ⟨o, ho, hv⟩ := List.exists_of_findSome?_eq_some hfind
    simp only [Except.toOption, Option.isSome_some, true_iff]
    exact ⟨o, ho, by rw [binds, NameMap.contains, hv, Option.isSome_some]⟩

/-- A name that means something in a scope still does. -/
theorem Grows.resolves (h : s.Grows t) (hs : s.Rooted root) {e : ScopeId} {name : String}
    (he : e < s.scopes.size) (hr : s.resolves e name = true) : t.resolves e name = true := by
  obtain ⟨o, ho, hb⟩ := resolves_iff.1 hr
  rw [resolves_iff, h.chain_eq hs he]
  exact ⟨o, ho, h.binds o name hb⟩

end Store

/-! ## Runs over stores that grow -/

/-- The store has grown from the one given, and all its chains end in the global scope. -/
def Invariant.growth (s : Store) (globals : ScopeId) : Invariant where
  holds m := m.globals = globals ∧ m.store.Rooted globals ∧ s.Grows m.store
  error _ := True
  scope n e := e < n
  part n := Value.RefersWithin .text (· < n)

/-- Scopes that satisfy a condition satisfy a weaker one. -/
theorem Value.RefersWithin.imp {sight : Sight} {p q : ScopeId → Prop} {v : Value}
    (h : v.RefersWithin sight p) (hpq : ∀ e, p e → q e) : v.RefersWithin sight q := by
  cases v with
  | lambda kind id params body e => exact hpq e h
  | environment e => exact fun hsight => hpq e (h hsight)
  | _ => trivial

/-- Every operation of the machine lets the store grow and keeps it rooted. -/
private theorem Invariant.lawful_growth {s : Store} {globals : ScopeId} :
    (growth s globals).Lawful where
  scope_mono hnk he := Nat.lt_of_lt_of_le he hnk
  scope_of_succ _ he := he
  part_mono hnk h := h.imp fun _ he => Nat.lt_of_lt_of_le he hnk
  part_nil := trivial
  part_bool := trivial
  part_string := trivial
  part_zero := trivial
  part_one := trivial
  part_add _ _ := trivial
  part_pair _ := trivial
  part_echo _ _ := trivial
  part_lambda := Iff.rfl
  part_environment h _ := h
  ordinary _ := trivial
  limit _ := trivial
  part_globals := by
    rintro m ⟨rfl, hrooted, -⟩ _
    exact hrooted.root_lt
  scope_extent _ := Nat.lt_succ_self _
  newIdentity := by
    rintro m ⟨hglobals, hrooted, hgrows⟩
    -- Only the next identity changes, which neither scopes nor bindings depend on.
    exact ⟨hglobals, ⟨hrooted.root_lt, hrooted.parent_root, hrooted.eq_root,
      hrooted.parent_lt⟩, ⟨hgrows.size_le, hgrows.parent_eq, hgrows.binds⟩⟩
  newScope := by
    rintro m p ⟨hglobals, hrooted, hgrows⟩ hp
    exact ⟨hglobals, hrooted.newScope hp, hgrows.trans (Store.grows_newScope ..)⟩
  bind := by
    rintro m e v name ⟨hglobals, hrooted, hgrows⟩ _ _
    exact ⟨hglobals, hrooted.bind e name v, hgrows.trans (Store.grows_bind ..)⟩
  write _ h := h
  call _ h := h
  expansion _ _ _ h := h
  refuse _ h := h
  enter h := h
  leave h := h

/-! ## Sessions -/

/-- All chains of a machine's store end in its global scope, and all scopes that bound values refer
    to exist. -/
structure Machine.Sound (m : Machine) : Prop where
  rooted : m.store.Rooted m.globals
  refers : ∀ e name v, (m.store.bindings e).find? name = some v →
    v.All (Value.RefersWithin .text (· < m.extent))

/-- In a sound machine, scopes that exist only lead to scopes that exist. -/
private theorem Machine.Sound.closed {m : Machine} (h : m.Sound) (s : Store) (globals : ScopeId) :
    (Invariant.growth s globals).alone.Closed m.store where
  parent := by
    intro e p he hp
    exact Nat.lt_trans (h.rooted.parent_lt hp) he
  binding := by
    intro e name v _ hv
    exact h.refers e name v hv

/-- A program leaves a sound machine sound, only adds to its store, and returns a value that refers
    to scopes which exist. -/
theorem Machine.Sound.execute {m : Machine} (h : m.Sound) (source : String) :
    (m.run (execute source)).2.Sound ∧ (m.run (execute source)).2.globals = m.globals ∧
      m.store.Grows (m.run (execute source)).2.store ∧
      ∀ v, (m.run (execute source)).1 = .ok v →
        v.All (Value.RefersWithin .text (· < (m.run (execute source)).2.extent)) := by
  have hkept := Invariant.lawful_growth.execute ⟨trivial, trivial, trivial, trivial⟩
    (fun m' hm => by rw [hm.1]; exact hm.2.1.root_lt) (fun _ => trivial)
    ⟨rfl, h.rooted, Store.Grows.refl _⟩ (h.closed m.store m.globals) source
  obtain ⟨hglobals, hrooted, hgrows⟩ := hkept.holds
  refine ⟨⟨hglobals ▸ hrooted, fun e name v hv => ?_⟩, hglobals, hgrows, hkept.result⟩
  -- Only scopes that exist bind anything.
  have he : e < (m.run (ScopeLisp.execute source)).2.extent := by
    refine Nat.lt_of_not_le fun hle => ?_
    rw [Store.bindings_of_size_le _ e hle] at hv
    exact nomatch hv
  exact hkept.closed.binding he hv

/-- The machine after programs have run one after the other on it, whether they succeeded or
    not. -/
def Machine.after (m : Machine) (sources : List String) : Machine :=
  sources.foldl (fun m source => (m.run (execute source)).2) m

/-- A session runs programs on a machine with the builtins of a registry. -/
def session (registry : Registry) (config : Config) (sources : List String) : Machine :=
  (Machine.start registry config).after sources

/-- Programs one after the other leave a sound machine sound, and only add to its store. -/
private theorem Machine.Sound.after {m : Machine} (h : m.Sound) (sources : List String) :
    (m.after sources).Sound ∧ (m.after sources).globals = m.globals ∧
      m.store.Grows (m.after sources).store := by
  -- By induction on the programs, each of which starts from a sound machine.
  induction sources generalizing m with
  | nil => exact ⟨h, rfl, Store.Grows.refl _⟩
  | cons source sources ih =>
    obtain ⟨hsound, hglobals, hgrows, -⟩ := h.execute source
    obtain ⟨hsound', hglobals', hgrows'⟩ := ih hsound
    exact ⟨hsound', hglobals'.trans hglobals, hgrows.trans hgrows'⟩

/-- A store in which the only outermost scope is the first one, and no bound value refers to a
    scope. -/
structure Store.Bare (s : Store) : Prop where
  rooted : s.Rooted 0
  refers : ∀ e name v, (s.bindings e).find? name = some v →
    v.All (Value.RefersWithin .text fun _ => False)

/-- A bare store stays bare by a binding of a value that refers to no scope. -/
private theorem Store.Bare.bind {s : Store} (h : s.Bare) (e : ScopeId) (name : String) {v : Value}
    (hv : v.All (Value.RefersWithin .text fun _ => False)) : (s.bind e name v).Bare := by
  refine ⟨h.rooted.bind e name v, fun f name' w hw => ?_⟩
  rw [Store.bindings_bind] at hw
  split at hw
  · rw [NameMap.find?_insert] at hw
    split at hw
    · exact Option.some.inj hw ▸ hv
    · exact h.refers f name' w hw
  · exact h.refers f name' w hw

/-- A bare store stays bare by bindings of values that refer to no scope. -/
private theorem Store.Bare.bindAll {s : Store} (h : s.Bare) (e : ScopeId)
    {entries : List (String × Value)}
    (hentries : ∀ entry ∈ entries, entry.2.All (Value.RefersWithin .text fun _ => False)) :
    (s.bindAll e entries).Bare := by
  induction entries generalizing s with
  | nil => exact h
  | cons entry entries ih =>
    have hbind := h.bind e entry.1 (hentries entry List.mem_cons_self)
    exact ih hbind fun entry' hmem => hentries entry' (List.mem_cons_of_mem _ hmem)

/-- The store with a single scope that binds nothing is bare. -/
private theorem Store.bare_newScope : (Store.empty.newScope none).2.Bare := by
  -- No scope has a parent, be it the new one or one that does not exist.
  have hparent : ∀ e, (Store.empty.newScope none).2.parent? e = none := by
    intro e
    rw [Store.parent?_newScope]
    split
    · rfl
    · exact Store.parent?_of_size_le _ e (Nat.zero_le e)
  refine ⟨⟨Nat.zero_lt_one, hparent 0, ?_, ?_⟩, ?_⟩
  · intro e he _
    exact Nat.lt_one_iff.1 he
  · intro e p hp
    rw [hparent e] at hp
    exact nomatch hp
  · intro e name v hv
    rw [Store.bindings_newScope, Store.bindings_of_size_le Store.empty e (Nat.zero_le e)] at hv
    exact nomatch hv

/-- A machine starts with one scope, which binds constants and builtins only. -/
theorem Machine.sound_start (registry : Registry) (config : Config) :
    (Machine.start registry config).Sound := by
  have hconstants : ∀ entry ∈ Registry.constants,
      entry.2.All (Value.RefersWithin .text fun _ => False) := by
    intro entry hentry
    simp only [Registry.constants, List.mem_cons, List.not_mem_nil, or_false] at hentry
    rcases hentry with rfl | rfl | rfl <;> trivial
  have hbuiltins : ∀ entry ∈ registry.bindings,
      entry.2.All (Value.RefersWithin .text fun _ => False) := by
    intro entry hentry
    obtain ⟨b, -, rfl⟩ := List.mem_map.1 hentry
    trivial
  -- First the constants and then the builtins are bound in the one scope.
  have hbare := (Store.bare_newScope.bindAll 0 hconstants).bindAll 0 hbuiltins
  exact ⟨hbare.rooted, fun e name v hv =>
    (hbare.refers e name v hv).imp fun _ hw => hw.imp fun _ => False.elim⟩

/-! ## What holds in every session -/

/-- A scope exists, and its outermost scope is the global one. -/
def Machine.Encloses (m : Machine) (e : ScopeId) : Prop :=
  e < m.extent ∧ m.store.root e = m.globals

/-- Scopes that exist in a sound machine are inside its global scope. -/
theorem Machine.Sound.all_encloses {m : Machine} (h : m.Sound) {v : Value}
    (hv : v.All (Value.RefersWithin .text (· < m.extent))) :
    v.All (Value.RefersWithin .text m.Encloses) :=
  hv.imp fun _ hw => hw.imp fun _ he => ⟨he, (h.rooted.chainsTo he).root_eq⟩

/-- In every state of a session the chain of every scope leads from parent to parent to the global
    scope, without coming back; so does that of every scope which a bound value or the value of a
    program refers to. From there to every later state, scopes and parents stay what they are, and
    names that are bound in a scope, or mean something in it, still do. -/
theorem session_rooted_and_grows (registry : Registry) (config : Config)
    (sources more : List String) :
    let m := session registry config sources
    let m' := session registry config (sources ++ more)
    (∀ e, e < m.extent → m.store.ChainsTo e m.globals) ∧
      (∀ e name v, (m.store.bindings e).find? name = some v →
        v.All (Value.RefersWithin .text m.Encloses)) ∧
      (∀ source v, (m.run (execute source)).1 = .ok v →
        v.All (Value.RefersWithin .text (m.run (execute source)).2.Encloses)) ∧
      m'.globals = m.globals ∧ m.store.Grows m'.store ∧
      ∀ e, e < m.extent → m'.store.depth e = m.store.depth e ∧
        m'.store.root e = m.store.root e ∧
        ∀ name, m.store.resolves e name = true → m'.store.resolves e name = true := by
  intro m m'
  obtain ⟨hsound, -, -⟩ := (Machine.sound_start registry config).after sources
  have hsound : m.Sound := hsound
  -- The later state is reached by running the other programs from the earlier one.
  have hlater : m' = m.after more := List.foldl_append
  obtain ⟨-, hglobals, hgrows⟩ := hsound.after more
  rw [← hlater] at hglobals hgrows
  refine ⟨fun e he => hsound.rooted.chainsTo he, ?_, ?_, hglobals, hgrows, ?_⟩
  · intro e name v hv
    exact hsound.all_encloses (hsound.refers e name v hv)
  · intro source v hv
    obtain ⟨hsound', -, -, hresult⟩ := hsound.execute source
    exact hsound'.all_encloses (hresult v hv)
  · intro e he
    exact ⟨hgrows.depth_eq hsound.rooted he, hgrows.root_eq hsound.rooted he,
      fun name => hgrows.resolves hsound.rooted he⟩

end ScopeLisp
