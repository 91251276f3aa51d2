import ScopeLisp.Proofs.Errors
import ScopeLisp.Proofs.Parts

/-!
# Two runs side by side

Statements about evaluation compare two runs of the same steps: from two stores, under two
settings, or a run with itself when the statement is about a single one. A `Correspondence` says
which machines correspond between two steps, which scopes the runs may touch and what is demanded
of every part of a value. The last two may depend on the number of scopes that exist, since a run
adds scopes.

`Correspondence.Tracks` relates two steps: from corresponding machines both succeed with the same
result, or both fail alike, or the first run stops for good while the second goes on. What holds of
the single steps (`Correspondence.Lawful`) carries over to everything built from them.

## Key results

- `Tracks.bind`: steps in sequence
- `Tracks.newString`, `Tracks.newPair`, `Tracks.newLambda`, `Tracks.newList`, `Tracks.newScope`: new
  values and scopes
- `Tracks.lookup`, `Tracks.define`, `Tracks.assign`, `Tracks.assignNonLocal`: reading and changing
  scopes
- `Outcome.eq_and_machines`: what tracking means where no run stops before the other
- `lawful_upTo`, `Tracks.eq_upTo`: runs that differ in what no step depends on
-/

namespace ScopeLisp

/-- The number of scopes that exist. -/
abbrev Machine.extent (m : Machine) : Nat := m.store.scopes.size

/-- The machine after an expansion has been logged, if expansions are. -/
def Machine.traced (m : Machine) (params : List String) (args code : Value) : Machine :=
  if m.config.traceExpansions then
    let event : Event :=
      .expansion (Value.paramList params) (m.store.render args) (m.store.render code)
    { m with events := m.events.push event }
  else m

/-- What two runs have to do with each other. -/
structure Correspondence where
  /-- Machines that correspond between two steps. -/
  machines : Machine → Machine → Prop
  /-- The first run stopped with an error and left a machine; the second one is where it is. -/
  stopped : Error → Machine → Machine → Prop
  /-- Errors with which both runs may fail. -/
  error : Error → Prop
  /-- Scopes that the runs may touch when so many scopes exist. -/
  scope : (extent : Nat) → ScopeId → Prop
  /-- What is demanded of each part of a value when so many scopes exist. -/
  part : (extent : Nat) → Value → Prop

namespace Correspondence

variable (C : Correspondence) {α β : Type} {n k : Nat}

/-- Values that the runs may hold. -/
def value (n : Nat) (v : Value) : Prop :=
  v.All (C.part n)

/-- Whatever the runs may touch only leads to what they may touch and hold. -/
structure Closed (s : Store) : Prop where
  parent : ∀ {e p : ScopeId}, C.scope s.scopes.size e → s.parent? e = some p →
    C.scope s.scopes.size p
  binding : ∀ {e : ScopeId} {name : String} {v : Value}, C.scope s.scopes.size e →
    (s.bindings e).find? name = some v → C.value s.scopes.size v

/-- The second run has gone on after the first one stopped. -/
structure Trails (n : Nat) (Q : Nat → α → Prop) (e : Error) (m : Machine)
    (r : Except Error α × Machine) : Prop where
  extent_le : n ≤ r.2.extent
  stopped : C.stopped e m r.2
  result : ∀ a, r.1 = .ok a → Q r.2.extent a

/-- Outcomes that correspond. -/
inductive Outcome (n : Nat) (Q : Nat → α → Prop) :
    Except Error α × Machine → Except Error α × Machine → Prop where
  | ok {a : α} {m m' : Machine} : n ≤ m.extent → C.machines m m' → C.Closed m.store →
      Q m.extent a → Outcome n Q (.ok a, m) (.ok a, m')
  | error {e : Error} {m m' : Machine} : n ≤ m.extent → C.machines m m' → C.Closed m.store →
      C.error e → Outcome n Q (.error e, m) (.error e, m')
  | stopped {e : Error} {m : Machine} {r : Except Error α × Machine} :
      C.Trails n Q e m r → Outcome n Q (.error e, m) r

/-- From machines that correspond and have at least `n` scopes, two steps lead to outcomes that
    correspond, with results that satisfy `Q`. -/
structure Tracks (n : Nat) (Q : Nat → α → Prop) (act act' : EvalM α) : Prop where
  together : ∀ m m', n ≤ m.extent → C.machines m m' → C.Closed m.store →
    C.Outcome m.extent Q (m.run act) (m'.run act')
  alone : ∀ e m m', n ≤ m'.extent → C.stopped e m m' → C.Trails m'.extent Q e m (m'.run act')

variable {C}

/-- A run that went on from more scopes went on from fewer. -/
private theorem Trails.mono {Q : Nat → α → Prop} {e : Error} {m : Machine}
    {r : Except Error α × Machine}
    (h : C.Trails k Q e m r) (hnk : n ≤ k) : C.Trails n Q e m r :=
  ⟨Nat.le_trans hnk h.extent_le, h.stopped, h.result⟩

/-- Outcomes that correspond with more scopes correspond with fewer. -/
private theorem Outcome.mono {Q : Nat → α → Prop} {r r' : Except Error α × Machine}
    (h : C.Outcome k Q r r') (hnk : n ≤ k) : C.Outcome n Q r r' := by
  cases h with
  | ok hk hm hc hq => exact .ok (Nat.le_trans hnk hk) hm hc hq
  | error hk hm hc he => exact .error (Nat.le_trans hnk hk) hm hc he
  | stopped h => exact .stopped (h.mono hnk)

/-- Where no run stops before the other, the outcomes are equal and the machines correspond. -/
theorem Outcome.eq_and_machines {Q : Nat → α → Prop} {r r' : Except Error α × Machine}
    (h : C.Outcome n Q r r') (hnever : ∀ e m m', ¬ C.stopped e m m') :
    r'.1 = r.1 ∧ C.machines r.2 r'.2 := by
  cases h with
  | ok _ hm _ _ => exact ⟨rfl, hm⟩
  | error _ hm _ _ => exact ⟨rfl, hm⟩
  | stopped ht => exact absurd ht.stopped (hnever _ _ _)

/-- What is said of the results of two steps may be weakened. -/
theorem Tracks.imp {Q R : Nat → α → Prop} {act act' : EvalM α} (h : C.Tracks n Q act act')
    (hQR : ∀ k a, n ≤ k → Q k a → R k a) : C.Tracks n R act act' := by
  constructor
  · intro m m' hn hm hc
    have hout := h.together m m' hn hm hc
    generalize m.run act = r, m'.run act' = r' at hout
    cases hout with
    | ok hk hm hc hq => exact .ok hk hm hc (hQR _ _ (Nat.le_trans hn hk) hq)
    | error hk hm hc he => exact .error hk hm hc he
    | stopped h => exact .stopped ⟨h.extent_le, h.stopped, fun a ha =>
        hQR _ _ (Nat.le_trans hn h.extent_le) (h.result a ha)⟩
  -- The first run has stopped, so only the results of the second one matter.
  · intro e m m' hn hs
    have h := h.alone e m m' hn hs
    exact ⟨h.extent_le, h.stopped, fun a ha =>
      hQR _ _ (Nat.le_trans hn h.extent_le) (h.result a ha)⟩

/-- The second of two steps starts where the first one ends, in both runs. -/
theorem Tracks.bind {Q : Nat → α → Prop} {R : Nat → β → Prop} {act act' : EvalM α}
    {f f' : α → EvalM β} (h : C.Tracks n Q act act')
    (hf : ∀ k, n ≤ k → ∀ a, Q k a → C.Tracks k R (f a) (f' a)) :
    C.Tracks n R (act >>= f) (act' >>= f') := by
  -- After the first run has stopped, only the second one goes on.
  have goOn : ∀ {k : Nat} {e : Error} {m m' : Machine}, n ≤ k → C.Trails k Q e m (m'.run act') →
      C.Trails k R e m (m'.run (act' >>= f')) := by
    intro k e m m' hnk htrail
    rw [Machine.run_bind]
    generalize m'.run act' = r at htrail
    obtain ⟨outcome, m₁⟩ := r
    cases outcome with
    | error e' => exact ⟨htrail.extent_le, htrail.stopped, nofun⟩
    | ok a =>
      have hle : n ≤ m₁.extent := Nat.le_trans hnk htrail.extent_le
      exact ((hf _ hle a (htrail.result a rfl)).alone e m m₁ (Nat.le_refl _)
        htrail.stopped).mono htrail.extent_le
  constructor
  · intro m m' hn hm hc
    have hout := h.together m m' hn hm hc
    rw [Machine.run_bind]
    generalize hr : m.run act = r at hout
    generalize hr' : m'.run act' = r' at hout
    cases hout with
    -- Both go on, from machines that correspond.
    | ok hk hm₁ hc₁ hq =>
      rw [Machine.run_bind, hr']
      exact ((hf _ (Nat.le_trans hn hk) _ hq).together _ _ (Nat.le_refl _) hm₁ hc₁).mono hk
    | error hk hm₁ hc₁ he =>
      rw [Machine.run_bind, hr']
      exact .error hk hm₁ hc₁ he
    | stopped htrail =>
      -- The first run skips the rest.
      subst hr'
      exact .stopped (goOn hn htrail)
  · intro e m m' hn hs
    exact goOn hn (h.alone e m m' hn hs)

variable (C) in
/-- What scopes and new values have to satisfy. -/
structure LawfulValues : Prop where
  scope_mono : ∀ {n k : Nat} {e : ScopeId}, n ≤ k → C.scope n e → C.scope k e
  scope_of_succ : ∀ {n : Nat} {e : ScopeId}, C.scope (n + 1) e → e < n → C.scope n e
  part_mono : ∀ {n k : Nat} {v : Value}, n ≤ k → C.part n v → C.part k v
  part_nil : ∀ {n : Nat}, C.part n .nil
  part_bool : ∀ {n : Nat} {b : Bool}, C.part n (.bool b)
  part_string : ∀ {n : Nat} {id : Identity} {text : String}, C.part n (.string id text)
  part_zero : ∀ {n : Nat}, C.part n (.number .zero)
  part_one : ∀ {n : Nat}, C.part n (.number .one)
  part_add : ∀ {n : Nat} {x y : Double}, C.part n (.number x) → C.part n (.number y) →
    C.part n (.number (x.add y))
  part_pair : ∀ {n : Nat} {id : Identity} {head tail : Value}, tail.isList = true →
    C.part n (.pair id head tail)
  part_echo : ∀ {n : Nat} {b : Native}, C.part n (.native b) → b.operation = .echo →
    C.part n (.symbol b.name)
  part_lambda : ∀ {n : Nat} {kind : LambdaKind} {id : Identity} {params : List String}
    {body : Value} {e : ScopeId}, C.part n (.lambda kind id params body e) ↔ C.scope n e
  part_environment : ∀ {n : Nat} {e : ScopeId}, C.scope n e → C.part n (.environment e)

variable (C) in
/-- What the single steps have to satisfy. -/
structure Lawful : Prop extends C.LawfulValues where
  error : ∀ {e : Error}, e.Ordinary → C.error e
  -- What corresponding machines have in common.
  extent_eq : ∀ {m m' : Machine}, C.machines m m' → m'.extent = m.extent
  fresh_eq : ∀ {m m' : Machine}, C.machines m m' → m'.store.fresh = m.store.fresh
  globals_eq : ∀ {m m' : Machine}, C.machines m m' → m'.globals = m.globals
  parent_eq : ∀ {m m' : Machine} {e : ScopeId}, C.machines m m' → C.scope m.extent e →
    m'.store.parent? e = m.store.parent? e
  bindings_eq : ∀ {m m' : Machine} {e : ScopeId}, C.machines m m' → C.scope m.extent e →
    m'.store.bindings e = m.store.bindings e
  render_eq : ∀ {m m' : Machine} {v : Value}, C.machines m m' → C.Closed m.store →
    C.value m.extent v → m'.store.render v = m.store.render v
  part_globals : ∀ {m m' : Machine}, C.machines m m' → C.part m.extent (.environment m.globals)
  -- What keeps machines corresponding.
  scope_extent : ∀ {m m' : Machine}, C.machines m m' → C.scope (m.extent + 1) m.extent
  newIdentity : ∀ {m m' : Machine}, C.machines m m' →
    C.machines { m with store := m.store.newIdentity.2 }
      { m' with store := m'.store.newIdentity.2 }
  newScope : ∀ {m m' : Machine} {p : ScopeId}, C.machines m m' → C.scope m.extent p →
    C.machines { m with store := (m.store.newScope (some p)).2 }
      { m' with store := (m'.store.newScope (some p)).2 }
  bind : ∀ {m m' : Machine} {e : ScopeId} {name : String} {v : Value}, C.machines m m' →
    C.scope m.extent e → C.value m.extent v →
    C.machines { m with store := m.store.bind e name v } { m' with store := m'.store.bind e name v }
  write : ∀ {m m' : Machine} {text : String}, C.machines m m' →
    C.machines { m with output := m.output ++ text } { m' with output := m'.output ++ text }
  call : ∀ {m m' : Machine} {params : String}, C.machines m m' →
    C.machines { m with events := m.events.push (.call params m.depth) }
      { m' with events := m'.events.push (.call params m'.depth) }
  trace : ∀ {m m' : Machine} {params : List String} {args code : Value}, C.machines m m' →
    C.Closed m.store → C.value m.extent args → C.value m.extent code →
    C.machines (m.traced params args code) (m'.traced params args code)
  -- Once the first run has stopped, nothing more is demanded, and the second goes on.
  scope_of_stopped : ∀ {e : Error} {m m' : Machine} {n : Nat} {f : ScopeId}, C.stopped e m m' →
    C.scope n f
  part_of_stopped : ∀ {e : Error} {m m' : Machine} {n : Nat} {v : Value}, C.stopped e m m' →
    C.part n v
  stopped_store : ∀ {e : Error} {m m' : Machine} {s : Store}, C.stopped e m m' →
    C.stopped e m { m' with store := s }
  stopped_write : ∀ {e : Error} {m m' : Machine} {text : String}, C.stopped e m m' →
    C.stopped e m { m' with output := m'.output ++ text }
  stopped_emit : ∀ {e : Error} {m m' : Machine} {event : Event}, C.stopped e m m' →
    C.stopped e m { m' with events := m'.events.push event }

/-! ## Closed stores -/

section Closed

variable {s : Store} {e : ScopeId} {name : String} {v : Value}

/-- All scopes of a chain may be touched if its first one may. -/
private theorem Closed.scope_of_mem_chainUpTo (hc : C.Closed s) {fuel : Nat} {o : ScopeId}
    (he : C.scope s.scopes.size e) (ho : o ∈ s.chainUpTo fuel e) : C.scope s.scopes.size o := by
  -- Going up the chain, one parent after the other.
  induction fuel generalizing e with
  | zero => exact nomatch ho
  | succ fuel ih =>
    rcases List.mem_cons.1 ho with rfl | ho
    · exact he
    · cases hp : s.parent? e with
      | none =>
        rw [hp] at ho
        exact nomatch ho
      | some p =>
        rw [hp] at ho
        exact ih (hc.parent he hp) ho

/-- The scopes around a scope that may be touched may be touched. -/
private theorem Closed.scope_of_mem_chain (hc : C.Closed s) {o : ScopeId}
    (he : C.scope s.scopes.size e) (ho : o ∈ s.chain e) : C.scope s.scopes.size o :=
  hc.scope_of_mem_chainUpTo he ho

/-- What a name means in a scope that may be touched may be held. -/
private theorem Closed.value_of_lookup (hc : C.Closed s) (he : C.scope s.scopes.size e)
    (h : s.lookup e name = .ok v) : C.value s.scopes.size v := by
  unfold Store.lookup at h
  split at h
  · next w hfind =>
    obtain rfl := Except.ok.inj h
    obtain ⟨o, ho, hbound⟩ := List.exists_of_findSome?_eq_some hfind
    exact hc.binding (hc.scope_of_mem_chain he ho) hbound
  · exact nomatch h

/-- The scope that binds a name may be touched, seen from one that may. -/
private theorem Closed.scope_of_owner? (hc : C.Closed s) {o : ScopeId}
    (he : C.scope s.scopes.size e)
    (h : s.owner? e name = some o) : C.scope s.scopes.size o :=
  hc.scope_of_mem_chain he (List.mem_of_find?_eq_some h)

/-- Binding a name to a value that may be held keeps the store closed. -/
theorem Closed.bind (hc : C.Closed s) (hv : C.value s.scopes.size v) :
    C.Closed (s.bind e name v) := by
  constructor
  · intro f p hf hp
    rw [Store.size_bind] at hf ⊢
    rw [Store.parent?_bind] at hp
    exact hc.parent hf hp
  · intro f name' w hf hw
    rw [Store.size_bind] at hf ⊢
    rw [Store.bindings_bind] at hw
    -- The scope looked at is the changed one or another; then the name is the bound one or another.
    split at hw
    · rw [NameMap.find?_insert] at hw
      split at hw
      · exact Option.some.inj hw ▸ hv
      · exact hc.binding hf hw
    · exact hc.binding hf hw

end Closed

/-- What may be held stays so when scopes are added. -/
theorem Lawful.value_mono (L : C.Lawful) {v : Value} (h : C.value n v) (hnk : n ≤ k) :
    C.value k v :=
  h.imp fun _ => L.part_mono hnk

/-- Corresponding machines display what may be held alike. -/
theorem Lawful.display_eq (L : C.Lawful) {m m' : Machine} {v : Value} (hm : C.machines m m')
    (hc : C.Closed m.store) (hv : C.value m.extent v) : m'.store.display v = m.store.display v := by
  cases v with
  | string => rfl
  | _ => exact L.render_eq hm hc hv

/-- A new scope inside one that may be touched keeps the store closed. -/
private theorem Lawful.closed_newScope (L : C.Lawful) {s : Store} {p : ScopeId} (hc : C.Closed s)
    (hp : C.scope s.scopes.size p) : C.Closed (s.newScope (some p)).2 := by
  have hle : s.scopes.size ≤ s.scopes.size + 1 := Nat.le_succ _
  constructor
  · intro e q he hq
    rw [Store.size_newScope] at he ⊢
    rw [Store.parent?_newScope] at hq
    split at hq
    · obtain rfl := Option.some.inj hq
      exact L.scope_mono hle hp
    · by_cases hlt : e < s.scopes.size
      · exact L.scope_mono hle (hc.parent (L.scope_of_succ he hlt) hq)
      -- A scope that did not exist before and is not the new one has no parent.
      · rw [s.parent?_of_size_le e (Nat.le_of_not_lt hlt)] at hq
        exact nomatch hq
  · intro e name v he hv
    rw [Store.size_newScope] at he ⊢
    rw [Store.bindings_newScope] at hv
    by_cases hlt : e < s.scopes.size
    · exact L.value_mono (hc.binding (L.scope_of_succ he hlt) hv) hle
    · rw [s.bindings_of_size_le e (Nat.le_of_not_lt hlt)] at hv
      exact nomatch hv

/-- Once the first run has stopped, every store is closed. -/
private theorem Lawful.closed_of_stopped (L : C.Lawful) {e : Error} {m m' : Machine}
    (h : C.stopped e m m') (s : Store) : C.Closed s :=
  ⟨fun _ _ => L.scope_of_stopped h, fun _ _ => Value.all_of_forall (fun _ => L.part_of_stopped h) _⟩

/-! ## Single steps -/

/-- A result that may be held, however many scopes there are. -/
theorem Tracks.pure {a : α} {Q : Nat → α → Prop} (h : ∀ k, n ≤ k → Q k a) :
    C.Tracks n Q (Pure.pure a : EvalM α) (Pure.pure a) :=
  ⟨fun m _ hn hm hc => .ok (Nat.le_refl _) hm hc (h m.extent hn),
    fun _ _ m' hn hs => ⟨Nat.le_refl _, hs, fun _ ha => Except.ok.inj ha ▸ h m'.extent hn⟩⟩

/-- An error with which both runs may fail. -/
theorem Tracks.throw {e : Error} {Q : Nat → α → Prop} (he : C.error e) :
    C.Tracks n Q (MonadExcept.throw e : EvalM α) (MonadExcept.throw e) :=
  ⟨fun _ _ _ hm hc => .error (Nat.le_refl _) hm hc he,
    fun _ _ _ _ hs => ⟨Nat.le_refl _, hs, nofun⟩⟩

/-- A result that does not depend on the machine. -/
theorem Tracks.demand (L : C.Lawful) {result : Except Error α} {Q : Nat → α → Prop}
    (hok : ∀ a, result = .ok a → ∀ k, n ≤ k → Q k a)
    (herror : ErrorIn Error.Ordinary result) :
    C.Tracks n Q (EvalM.demand result) (EvalM.demand result) := by
  cases result with
  | ok a => exact .pure (hok a rfl)
  | error e => exact .throw (L.error (herror e rfl))

/-- Something read off the store that both runs agree on. -/
theorem Tracks.readStore (L : C.Lawful) {f : Store → α} {Q : Nat → α → Prop}
    (hf : ∀ m m', n ≤ m.extent → C.machines m m' → C.Closed m.store → f m'.store = f m.store)
    (hq : ∀ s : Store, n ≤ s.scopes.size → C.Closed s → Q s.scopes.size (f s)) :
    C.Tracks n Q (EvalM.readStore f) (EvalM.readStore f) := by
  constructor
  · intro m m' hn hm hc
    rw [Machine.run_readStore, Machine.run_readStore, hf m m' hn hm hc]
    exact .ok (Nat.le_refl _) hm hc (hq m.store hn hc)
  · intro e m m' hn hs
    rw [Machine.run_readStore]
    exact ⟨Nat.le_refl _, hs, fun a ha =>
      Except.ok.inj ha ▸ hq m'.store hn (L.closed_of_stopped hs _)⟩

/-- A step that changes the machine, but not its store. -/
theorem Tracks.change {act : EvalM Unit} {g : Machine → Machine}
    (hrun : ∀ m, m.run act = (.ok (), g m)) (hstore : ∀ m, (g m).store = m.store)
    (hg : ∀ m m', n ≤ m.extent → C.machines m m' → C.Closed m.store → C.machines (g m) (g m'))
    (hs : ∀ e m m', C.stopped e m m' → C.stopped e m (g m')) :
    C.Tracks n (fun _ _ => True) act act := by
  have hextent : ∀ m, m.extent ≤ (g m).extent := by
    intro m
    have hsize : (g m).store.scopes.size = m.store.scopes.size := by rw [hstore]
    exact Nat.le_of_eq hsize.symm
  constructor
  -- Both runs are still together, and both change.
  · intro m m' hn hm hc
    rw [hrun, hrun]
    exact .ok (hextent m) (hg m m' hn hm hc) (hstore m ▸ hc) trivial
  -- The second run goes on alone.
  · intro e m m' hn hstop
    rw [hrun]
    exact ⟨hextent m', hs e m m' hstop, fun _ _ => trivial⟩

/-- Printing. -/
theorem Tracks.write (L : C.Lawful) (text : String) :
    C.Tracks n (fun _ _ => True) (EvalM.write text) (EvalM.write text) :=
  .change (fun m => m.run_write text) (fun _ => rfl) (fun _ _ _ hm _ => L.write hm)
    (fun _ _ _ hs => L.stopped_write hs)

/-- Logging a call. -/
theorem Tracks.call (L : C.Lawful) (params : String) :
    C.Tracks n (fun _ _ => True) (do EvalM.emit (.call params (← get).depth))
      (do EvalM.emit (.call params (← get).depth)) :=
  .change (fun _ => rfl) (fun _ => rfl) (fun _ _ _ hm _ => L.call hm)
    (fun _ _ _ hs => L.stopped_emit hs)

/-! ## New values and scopes -/

/-- A new identity, which is the same one in both runs. -/
theorem Tracks.newIdentity (L : C.Lawful) :
    C.Tracks n (fun _ _ => True) (EvalM.allocate Store.newIdentity)
      (EvalM.allocate Store.newIdentity) := by
  constructor
  · intro m m' hn hm hc
    rw [Machine.run_allocate, Machine.run_allocate]
    -- Both stores hand out the same identity.
    have hid : m'.store.newIdentity.1 = m.store.newIdentity.1 := L.fresh_eq hm
    rw [hid]
    exact .ok (Nat.le_refl _) (L.newIdentity hm) ⟨hc.parent, hc.binding⟩ trivial
  · intro e m m' hn hs
    rw [Machine.run_allocate]
    exact ⟨Nat.le_refl _, L.stopped_store hs, fun _ _ => trivial⟩

/-- A new value that takes an identity. -/
theorem Tracks.ofIdentity (L : C.Lawful) (make : Identity → Value)
    (h : ∀ id k, n ≤ k → C.value k (make id)) :
    C.Tracks n C.value (do return make (← EvalM.allocate Store.newIdentity))
      (do return make (← EvalM.allocate Store.newIdentity)) :=
  (newIdentity L).bind fun _ hnk id _ => .pure fun k hk => h id k (Nat.le_trans hnk hk)

/-- A new string. -/
theorem Tracks.newString (L : C.Lawful) (text : String) :
    C.Tracks n C.value (EvalM.allocate (·.newString text)) (EvalM.allocate (·.newString text)) :=
  Tracks.ofIdentity L (fun id => .string id text) fun _ _ _ => L.part_string

/-- A new list cell in front of a list. -/
theorem Tracks.newPair (L : C.Lawful) {head tail : Value} (hh : C.value n head)
    (ht : C.value n tail) (hlist : tail.isList = true) :
    C.Tracks n C.value (EvalM.allocate (·.newPair head tail))
      (EvalM.allocate (·.newPair head tail)) :=
  Tracks.ofIdentity L (fun id => .pair id head tail) fun _ _ hnk =>
    ⟨L.part_pair hlist, L.value_mono hh hnk, L.value_mono ht hnk⟩

/-- A new lambda that captures a scope that may be touched. -/
theorem Tracks.newLambda (L : C.Lawful) {kind : LambdaKind} {params : List String} {body : Value}
    {e : ScopeId} (hb : C.value n body) (he : C.scope n e) :
    C.Tracks n C.value (EvalM.allocate (·.newLambda kind params body e))
      (EvalM.allocate (·.newLambda kind params body e)) :=
  Tracks.ofIdentity L (fun id => .lambda kind id params body e) fun _ _ hnk =>
    ⟨L.part_lambda.2 (L.scope_mono hnk he), L.value_mono hb hnk⟩

/-- A new list. -/
theorem Tracks.newList (L : C.Lawful) {vs : List Value} (hvs : ∀ v ∈ vs, C.value n v) :
    C.Tracks n (fun k v => C.value k v ∧ v.isList = true) (EvalM.allocate (·.newList vs))
      (EvalM.allocate (·.newList vs)) := by
  induction vs with
  | nil => exact .pure fun _ _ => ⟨L.part_nil, rfl⟩
  | cons v vs ih =>
    -- Lists are built from the end: the tail first, then the cell in front of it.
    have htail := ih fun w hw => hvs w (List.mem_cons_of_mem _ hw)
    have hcell : ∀ k, n ≤ k → ∀ tail, C.value k tail ∧ tail.isList = true →
        C.Tracks k (fun k v => C.value k v ∧ v.isList = true)
          (do return .pair (← EvalM.allocate Store.newIdentity) v tail)
          (do return .pair (← EvalM.allocate Store.newIdentity) v tail) := by
      intro k hnk tail htail
      refine (newIdentity L).bind fun j hkj id _ => .pure fun i hji => ⟨⟨?_, ?_, ?_⟩, rfl⟩
      · exact L.part_pair htail.2
      · exact L.value_mono (hvs v List.mem_cons_self) (Nat.le_trans hnk (Nat.le_trans hkj hji))
      · exact L.value_mono htail.1 (Nat.le_trans hkj hji)
    exact htail.bind hcell

/-- A new scope inside one that may be touched. -/
theorem Tracks.newScope (L : C.Lawful) {p : ScopeId} (hp : C.scope n p) :
    C.Tracks n C.scope (EvalM.allocate (·.newScope (some p)))
      (EvalM.allocate (·.newScope (some p))) := by
  constructor
  · intro m m' hn hm hc
    rw [Machine.run_allocate, Machine.run_allocate]
    -- The new scope has the same number in both stores.
    have hid : (m'.store.newScope (some p)).1 = (m.store.newScope (some p)).1 := L.extent_eq hm
    have hextent : (m.store.newScope (some p)).2.scopes.size = m.extent + 1 :=
      Store.size_newScope ..
    have hp' := L.scope_mono hn hp
    rw [hid]
    refine .ok ?_ (L.newScope hm hp') (L.closed_newScope hc hp') ?_
    · show m.extent ≤ (m.store.newScope (some p)).2.scopes.size
      omega
    · show C.scope (m.store.newScope (some p)).2.scopes.size m.extent
      rw [hextent]
      exact L.scope_extent hm
  · intro e m m' hn hs
    rw [Machine.run_allocate]
    refine ⟨?_, L.stopped_store hs, fun _ _ => L.scope_of_stopped hs⟩
    show m'.extent ≤ (m'.store.newScope (some p)).2.scopes.size
    rw [Store.size_newScope]
    exact Nat.le_succ _

/-! ## Reading and changing scopes -/

section Scopes

variable {m m' : Machine} {e : ScopeId} {name : String} {v : Value}

/-- Corresponding machines have the same chains, where they may be touched. -/
private theorem Lawful.chainUpTo_eq (L : C.Lawful) (hm : C.machines m m') (hc : C.Closed m.store)
    (fuel : Nat) (he : C.scope m.extent e) :
    m'.store.chainUpTo fuel e = m.store.chainUpTo fuel e := by
  induction fuel generalizing e with
  | zero => rfl
  | succ fuel ih =>
    simp only [Store.chainUpTo, L.parent_eq hm he]
    cases hp : m.store.parent? e with
    | none => rfl
    | some p => simp only [Option.elim_some, ih (hc.parent he hp)]

/-- So they have for chains to their end. -/
private theorem Lawful.chain_eq (L : C.Lawful) (hm : C.machines m m') (hc : C.Closed m.store)
    (he : C.scope m.extent e) : m'.store.chain e = m.store.chain e := by
  have hsize : m'.store.scopes.size = m.store.scopes.size := L.extent_eq hm
  unfold Store.chain
  rw [hsize, L.chainUpTo_eq hm hc _ he]

/-- Searches that give the same for every element of a list find the same. -/
private theorem findSome?_congr {f g : α → Option β} {l : List α} (h : ∀ a ∈ l, f a = g a) :
    l.findSome? f = l.findSome? g := by
  induction l with
  | nil => rfl
  | cons a l ih =>
    rw [List.findSome?_cons, List.findSome?_cons, h a List.mem_cons_self,
      ih fun b hb => h b (List.mem_cons_of_mem _ hb)]

/-- A name means the same in corresponding machines. -/
private theorem Lawful.lookup_eq (L : C.Lawful) (hm : C.machines m m') (hc : C.Closed m.store)
    (he : C.scope m.extent e) : m'.store.lookup e name = m.store.lookup e name := by
  have hfind : (m.store.chain e).findSome? (fun o => (m'.store.bindings o).find? name) =
      (m.store.chain e).findSome? (fun o => (m.store.bindings o).find? name) := by
    refine findSome?_congr fun o ho => ?_
    rw [L.bindings_eq hm (hc.scope_of_mem_chain he ho)]
  unfold Store.lookup
  rw [L.chain_eq hm hc he, hfind]

/-- A scope that may be touched binds the same names in both. -/
private theorem Lawful.binds_eq (L : C.Lawful) (hm : C.machines m m') (he : C.scope m.extent e) :
    m'.store.binds e name = m.store.binds e name := by
  unfold Store.binds
  rw [L.bindings_eq hm he]

/-- The same scope binds a name in both. -/
private theorem Lawful.owner?_eq (L : C.Lawful) (hm : C.machines m m') (hc : C.Closed m.store)
    (he : C.scope m.extent e) : m'.store.owner? e name = m.store.owner? e name := by
  unfold Store.owner?
  rw [L.chain_eq hm hc he, ← List.head?_filter, ← List.head?_filter]
  -- Both go along the same chain, and each scope of it binds the same names.
  congr 1
  exact List.filter_congr fun o ho => L.binds_eq hm (hc.scope_of_mem_chain he ho)

/-- What a name means, or the error that it means nothing. -/
theorem Tracks.lookup (L : C.Lawful) (he : C.scope n e) :
    C.Tracks n C.value (do EvalM.demand (← EvalM.readStore (·.lookup e name)))
      (do EvalM.demand (← EvalM.readStore (·.lookup e name))) := by
  have hread : C.Tracks n (fun k r => (∀ v, r = .ok v → C.value k v) ∧
      ErrorIn Error.Ordinary r) (EvalM.readStore (·.lookup e name))
      (EvalM.readStore (·.lookup e name)) := by
    refine .readStore L ?_ ?_
    · intro m m' hn hm hc
      exact L.lookup_eq hm hc (L.scope_mono hn he)
    · intro s hn hc
      exact ⟨fun v => hc.value_of_lookup (L.scope_mono hn he), (s.errorIn_lookup e name).ordinary⟩
  -- Reading finds the same, and what was found stays what may be held.
  refine hread.bind fun k hnk r hr => ?_
  exact .demand L (fun v hv j hkj => L.value_mono (hr.1 v hv) hkj) hr.2

/-- A change of a store that binds a name in a scope that both runs agree on, or is refused. -/
theorem Tracks.update (L : C.Lawful) {change : Store → Except Error Store} (name : String)
    (err : Error) (target : Store → Option ScopeId) (herr : err.Ordinary) (hv : C.value n v)
    (hchange : ∀ s, change s =
      match target s with
      | some o => .ok (s.bind o name v)
      | none => .error err)
    (htarget : ∀ m m', n ≤ m.extent → C.machines m m' → C.Closed m.store →
      target m'.store = target m.store ∧ ∀ o, target m.store = some o → C.scope m.extent o) :
    C.Tracks n (fun _ _ => True) (EvalM.update change) (EvalM.update change) := by
  have hextent : ∀ (m : Machine) o, m.extent ≤ (m.store.bind o name v).scopes.size := by
    intro m o
    exact Nat.le_of_eq (Store.size_bind ..).symm
  constructor
  · intro m m' hn hm hc
    obtain ⟨heq, hscope⟩ := htarget m m' hn hm hc
    rw [Machine.run_update, Machine.run_update, hchange, hchange, heq]
    -- Either both changes are refused, or both bind the name in the same scope.
    cases ho : target m.store with
    | none => exact .error (Nat.le_refl _) hm hc (L.error herr)
    | some o =>
      have hv' := L.value_mono hv hn
      exact .ok (hextent m o) (L.bind hm (hscope o ho) hv') (hc.bind hv') trivial
  · intro e m m' hn hs
    rw [Machine.run_update, hchange]
    cases target m'.store with
    | none => exact ⟨Nat.le_refl _, hs, nofun⟩
    | some o => exact ⟨hextent m' o, L.stopped_store hs, fun _ _ => trivial⟩

/-- Defining a name that the scope does not bind yet. -/
theorem Tracks.define (L : C.Lawful) (he : C.scope n e) (hv : C.value n v) :
    C.Tracks n (fun _ _ => True) (EvalM.update (·.define e name v))
      (EvalM.update (·.define e name v)) := by
  refine .update L name (.duplicateDefinition name)
    (fun s => if s.binds e name then none else some e) trivial hv ?_ ?_
  · intro s
    unfold Store.define
    split <;> rfl
  -- Both find the name bound or not, and bind it in the same scope.
  · intro m m' hn hm hc
    refine ⟨by rw [L.binds_eq hm (L.scope_mono hn he)], fun o ho => ?_⟩
    split at ho
    · exact nomatch ho
    · exact Option.some.inj ho ▸ L.scope_mono hn he

/-- Changing a binding of the scope itself. -/
theorem Tracks.assign (L : C.Lawful) (he : C.scope n e) (hv : C.value n v) :
    C.Tracks n (fun _ _ => True) (EvalM.update (·.assign e name v))
      (EvalM.update (·.assign e name v)) := by
  refine .update L name (.undefinedHere name)
    (fun s => if s.binds e name then some e else none) trivial hv ?_ ?_
  · intro s
    unfold Store.assign
    split <;> rfl
  -- Both find the name bound or not, and change it in the same scope.
  · intro m m' hn hm hc
    refine ⟨by rw [L.binds_eq hm (L.scope_mono hn he)], fun o ho => ?_⟩
    split at ho
    · exact Option.some.inj ho ▸ L.scope_mono hn he
    · exact nomatch ho

/-- Changing the nearest binding of a name. -/
theorem Tracks.assignNonLocal (L : C.Lawful) (he : C.scope n e) (hv : C.value n v) :
    C.Tracks n (fun _ _ => True) (EvalM.update (·.assignNonLocal e name v))
      (EvalM.update (·.assignNonLocal e name v)) := by
  refine .update L name (.undefined name) (fun s => s.owner? e name) trivial hv (fun _ => rfl) ?_
  intro m m' hn hm hc
  have he' := L.scope_mono hn he
  exact ⟨L.owner?_eq hm hc he', fun o ho => hc.scope_of_owner? he' ho⟩

end Scopes

/-! ## Runs over the same store -/

/-- Two runs that never part, with nothing demanded of scopes and values. -/
def upTo (machines : Machine → Machine → Prop) : Correspondence where
  machines := machines
  stopped _ _ _ := False
  error _ := True
  scope _ _ := True
  part _ _ := True

section UpTo

variable {machines : Machine → Machine → Prop}

/-- Every value may be held. -/
theorem value_upTo (n : Nat) (v : Value) : (upTo machines).value n v :=
  Value.all_of_forall (fun _ => trivial) v

/-- Every store is closed. -/
private theorem closed_upTo (s : Store) : (upTo machines).Closed s :=
  ⟨fun _ _ => trivial, fun _ _ => value_upTo _ _⟩

/-- Machines with the same store and the same global scope need only correspond after each kind of
    change. -/
theorem lawful_upTo
    (hstore : ∀ {m m' : Machine}, machines m m' → m'.store = m.store)
    (hglobals : ∀ {m m' : Machine}, machines m m' → m'.globals = m.globals)
    (hset : ∀ {m m' : Machine} (s : Store), machines m m' →
      machines { m with store := s } { m' with store := s })
    (hwrite : ∀ {m m' : Machine} (text : String), machines m m' →
      machines { m with output := m.output ++ text } { m' with output := m'.output ++ text })
    (hcall : ∀ {m m' : Machine} (params : String), machines m m' →
      machines { m with events := m.events.push (.call params m.depth) }
        { m' with events := m'.events.push (.call params m'.depth) })
    (htrace : ∀ {m m' : Machine} (params : List String) (args code : Value), machines m m' →
      machines (m.traced params args code) (m'.traced params args code)) :
    (upTo machines).Lawful where
  scope_mono _ _ := trivial
  scope_of_succ _ _ := trivial
  part_mono _ _ := trivial
  part_nil := trivial
  part_bool := trivial
  part_string := trivial
  part_zero := trivial
  part_one := trivial
  part_add _ _ := trivial
  part_pair _ := trivial
  part_echo _ _ := trivial
  part_lambda := Iff.rfl
  part_environment _ := trivial
  error _ := trivial
  -- With the same store, everything that is read from it is the same.
  extent_eq h := by rw [Machine.extent, hstore h]
  fresh_eq h := by rw [hstore h]
  globals_eq := hglobals
  parent_eq h _ := by rw [hstore h]
  bindings_eq h _ := by rw [hstore h]
  render_eq h _ _ := by rw [hstore h]
  part_globals _ := trivial
  scope_extent _ := trivial
  -- Changes of the store are made to the one store that both have.
  newIdentity := by
    intro m m' h
    rw [hstore h]
    exact hset _ h
  newScope := by
    intro m m' p h _
    rw [hstore h]
    exact hset _ h
  bind := by
    intro m m' e name v h _ _
    rw [hstore h]
    exact hset _ h
  write := hwrite _
  call := hcall _
  trace h _ _ _ := htrace _ _ _ h
  scope_of_stopped := False.elim
  part_of_stopped := False.elim
  stopped_store := False.elim
  stopped_write := False.elim
  stopped_emit := False.elim

/-- Steps that track each other have the same result, and leave machines that correspond. -/
theorem Tracks.eq_upTo {Q : Nat → α → Prop} {act act' : EvalM α}
    (h : (upTo machines).Tracks n Q act act') {m m' : Machine} (hn : n ≤ m.extent)
    (hm : machines m m') :
    (m'.run act').1 = (m.run act).1 ∧ machines (m.run act).2 (m'.run act').2 :=
  (h.together m m' hn hm (closed_upTo _)).eq_and_machines fun _ _ _ => id

end UpTo

end Correspondence

end ScopeLisp
