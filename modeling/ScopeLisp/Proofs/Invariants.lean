import ScopeLisp.Proofs.Evaluation

/-!
# Invariants of a single run

A statement about one run is a statement about that run beside itself. An `Invariant` says what
holds of the machine between two steps, which scopes may be touched, what every part of a value
satisfies, and which errors can come up. If the single steps keep it, so do evaluations, calls and
programs.

## Key results

- `Invariant.Lawful.tracks_evaluate`: evaluations keep the invariant
- `Invariant.Lawful.execute`: programs keep the invariant
- `Invariant.lawfulSteps_plain`: what has to be kept if nothing is demanded of scopes and values
- `Invariant.lawful_ofParts`: what has to be kept if all that is demanded is a condition on values
-/

namespace ScopeLisp

open Correspondence

/-- What is kept along a run. -/
structure Invariant where
  /-- What holds between two steps. -/
  holds : Machine → Prop
  /-- Errors that can come up. -/
  error : Error → Prop
  /-- Scopes that may be touched when so many scopes exist. -/
  scope : (extent : Nat) → ScopeId → Prop
  /-- What each part of a value satisfies when so many scopes exist. -/
  part : (extent : Nat) → Value → Prop

namespace Invariant

/-- A run beside itself. -/
def alone (I : Invariant) : Correspondence where
  machines m m' := m' = m ∧ I.holds m
  stopped _ _ _ := False
  error := I.error
  scope := I.scope
  part := I.part

/-- What the single steps at one level of nesting have to keep. -/
structure LawfulSteps (I : Invariant) : Prop extends I.alone.LawfulValues where
  ordinary : ∀ {e : Error}, e.Ordinary → I.error e
  part_globals : ∀ {m : Machine}, I.holds m → I.part m.extent (.environment m.globals)
  scope_extent : ∀ {m : Machine}, I.holds m → I.scope (m.extent + 1) m.extent
  newIdentity : ∀ {m : Machine}, I.holds m → I.holds { m with store := m.store.newIdentity.2 }
  newScope : ∀ {m : Machine} {p : ScopeId}, I.holds m → I.scope m.extent p →
    I.holds { m with store := (m.store.newScope (some p)).2 }
  bind : ∀ {m : Machine} {e : ScopeId} {v : Value} (name : String), I.holds m →
    I.scope m.extent e → I.alone.value m.extent v →
    I.holds { m with store := m.store.bind e name v }
  write : ∀ {m : Machine} (text : String), I.holds m →
    I.holds { m with output := m.output ++ text }
  call : ∀ {m : Machine} (params : String), I.holds m →
    I.holds { m with events := m.events.push (.call params m.depth) }
  expansion : ∀ {m : Machine} (params input output : String), I.holds m →
    I.holds { m with events := m.events.push (.expansion params input output) }

/-- What the single steps have to keep, those between two levels of nesting included. -/
structure Lawful (I : Invariant) : Prop extends I.LawfulSteps where
  limit : ∀ n, I.error (.recursionLimit n)
  refuse : ∀ {m : Machine} (limit : Nat), I.holds m →
    I.holds { m with events := m.events.push (.depthLimit limit) }
  enter : ∀ {m : Machine}, I.holds m → I.holds { m with depth := m.depth + 1 }
  leave : ∀ {m : Machine}, I.holds m → I.holds { m with depth := m.depth - 1 }

/-- An invariant that demands nothing of scopes and values. -/
def plain (holds : Machine → Prop) (error : Error → Prop) : Invariant where
  holds := holds
  error := error
  scope _ _ := True
  part _ _ := True

/-- If nothing is demanded of scopes and values, the invariant has only to survive any change of the
    store, what is printed, and what is logged. -/
theorem lawfulSteps_plain {holds : Machine → Prop} {error : Error → Prop}
    (hordinary : ∀ {e : Error}, e.Ordinary → error e)
    (hstore : ∀ {m : Machine} (s : Store), holds m → holds { m with store := s })
    (hwrite : ∀ {m : Machine} (text : String), holds m →
      holds { m with output := m.output ++ text })
    (hcall : ∀ {m : Machine} (params : String), holds m →
      holds { m with events := m.events.push (.call params m.depth) })
    (hexpansion : ∀ {m : Machine} (params input output : String), holds m →
      holds { m with events := m.events.push (.expansion params input output) }) :
    (plain holds error).LawfulSteps where
  scope_mono _ _ := trivial
  scope_of_succ _ _ := trivial
  part_mono _ _ := trivial
  part_nil := trivial
  part_bool := trivial
  part_string := trivial
  part_zero := trivial
  part_one := trivial
  part_add _ _ := trivial
  part_pair _ := trivial
  part_echo _ _ := trivial
  part_lambda := Iff.rfl
  part_environment _ := trivial
  ordinary := hordinary
  part_globals _ := trivial
  scope_extent _ := trivial
  -- Identities, scopes and bindings are changes of the store.
  newIdentity := hstore _
  newScope h _ := hstore _ h
  bind _ h _ _ := hstore _ h
  write := hwrite
  call := hcall
  expansion := hexpansion

section Plain

variable {holds : Machine → Prop} {error : Error → Prop}

/-- Every value satisfies a plain invariant. -/
theorem value_plain (n : Nat) (v : Value) : (plain holds error).alone.value n v :=
  Value.all_of_forall (fun _ => trivial) v

/-- Every store is closed for a plain invariant. -/
theorem closed_plain (s : Store) : (plain holds error).alone.Closed s :=
  ⟨fun _ _ => trivial, fun _ _ => value_plain _ _⟩

/-- A plain invariant admits all data. -/
theorem admitsData_plain : (plain holds error).alone.AdmitsData :=
  ⟨trivial, trivial, trivial, trivial⟩

end Plain

/-- An invariant that demands nothing but a condition on the parts of values. -/
def ofParts (p : Value → Prop) : Invariant where
  holds _ := True
  error _ := True
  scope _ _ := True
  part _ := p

/-- If only the parts of values matter, what new values have to satisfy is all there is to keep. -/
theorem lawful_ofParts {p : Value → Prop} (h : (ofParts p).alone.LawfulValues) :
    (ofParts p).Lawful where
  toLawfulValues := h
  ordinary _ := trivial
  limit _ := trivial
  part_globals _ := h.part_environment (n := 0) trivial
  scope_extent _ := trivial
  newIdentity _ := trivial
  newScope _ _ := trivial
  bind _ _ _ _ := trivial
  write _ _ := trivial
  call _ _ := trivial
  expansion _ _ _ _ := trivial
  refuse _ _ := trivial
  enter _ := trivial
  leave _ := trivial

variable {I : Invariant} {α : Type} {n : Nat}

/-- An invariant that the single steps keep makes a run track itself. -/
theorem LawfulSteps.alone (L : I.LawfulSteps) : I.alone.Lawful where
  toLawfulValues := L.toLawfulValues
  error := L.ordinary
  extent_eq h := h.1 ▸ rfl
  fresh_eq h := h.1 ▸ rfl
  globals_eq h := h.1 ▸ rfl
  parent_eq h _ := h.1 ▸ rfl
  bindings_eq h _ := h.1 ▸ rfl
  render_eq h _ _ := h.1 ▸ rfl
  part_globals h := L.part_globals h.2
  scope_extent h := L.scope_extent h.2
  -- The second machine is the first one, so each change is the same on both sides.
  newIdentity := by
    rintro m m' ⟨rfl, hm⟩
    exact ⟨rfl, L.newIdentity hm⟩
  newScope := by
    rintro m m' p ⟨rfl, hm⟩ hp
    exact ⟨rfl, L.newScope hm hp⟩
  bind := by
    rintro m m' e name v ⟨rfl, hm⟩ he hv
    exact ⟨rfl, L.bind name hm he hv⟩
  write := by
    rintro m m' text ⟨rfl, hm⟩
    exact ⟨rfl, L.write text hm⟩
  call := by
    rintro m m' params ⟨rfl, hm⟩
    exact ⟨rfl, L.call params hm⟩
  trace := by
    rintro m m' params args code ⟨rfl, hm⟩ _ _ _
    unfold Machine.traced
    split
    · exact ⟨rfl, L.expansion _ _ _ hm⟩
    · exact ⟨rfl, hm⟩
  -- A single run does not stop before itself.
  scope_of_stopped := False.elim
  part_of_stopped := False.elim
  stopped_store := False.elim
  stopped_write := False.elim
  stopped_emit := False.elim

/-- Entering and leaving a level keeps the two sides together. -/
theorem Lawful.nests (L : I.Lawful) : I.alone.Nests where
  enter := by
    rintro m m' ⟨rfl, hm⟩
    exact ⟨rfl, L.enter hm⟩
  leave := by
    rintro m m' ⟨rfl, hm⟩
    exact ⟨rfl, L.leave hm⟩
  stopped _ _ := False.elim

/-- Both sides meet the limit at the same point. -/
theorem Lawful.sharesLimit (L : I.Lawful) : I.alone.SharesLimit where
  room_eq h := h.1 ▸ rfl
  limit_eq h := h.1 ▸ rfl
  refuse := by
    rintro m m' limit ⟨rfl, hm⟩
    exact ⟨rfl, L.refuse limit hm⟩
  error := L.limit

/-! ## Runs -/

/-- A run from a machine with `n` scopes has kept the invariant, and its outcome is as demanded. -/
structure Kept (I : Invariant) (n : Nat) (Q : Nat → α → Prop) (r : Except Error α × Machine) :
    Prop where
  extent_le : n ≤ r.2.extent
  holds : I.holds r.2
  closed : I.alone.Closed r.2.store
  result : ∀ a, r.1 = .ok a → Q r.2.extent a
  error : ∀ e, r.1 = .error e → I.error e

/-- A step that tracks itself keeps the invariant. -/
theorem kept_of_tracks {Q : Nat → α → Prop} {act : EvalM α} {m : Machine}
    (h : I.alone.Tracks m.extent Q act act) (hm : I.holds m) (hc : I.alone.Closed m.store) :
    I.Kept m.extent Q (m.run act) := by
  have hout := h.together m m (Nat.le_refl _) ⟨rfl, hm⟩ hc
  generalize m.run act = r at hout
  generalize hr : r = r' at hout
  -- The outcome corresponds to itself, so what is said of both sides holds of the one.
  cases hout with
  | ok hk hm' hc' hq =>
    subst hr
    exact ⟨hk, hm'.2, hc', fun a ha => Except.ok.inj ha ▸ hq, nofun⟩
  | error hk hm' hc' he =>
    subst hr
    exact ⟨hk, hm'.2, hc', nofun, fun e he' => Except.error.inj he' ▸ he⟩
  | stopped ht => exact ht.stopped.elim

/-- Evaluations keep the invariant. -/
theorem Lawful.tracks_evaluate (L : I.Lawful) :
    I.alone.TracksEvaluation ScopeLisp.evaluate ScopeLisp.evaluate :=
  tracks_evaluate_of_sharesLimit L.alone L.nests L.sharesLimit

/-- An expression of a program keeps the invariant if nothing is demanded of data and the global
    scope may be touched. -/
theorem Lawful.tracks_evaluateDatum (L : I.Lawful) (A : I.alone.AdmitsData)
    (hglobals : ∀ m, I.holds m → I.scope m.extent m.globals) (datum : Datum) :
    I.alone.Tracks n I.alone.value (evaluateDatum datum) (evaluateDatum datum) :=
  ScopeLisp.tracks_evaluateDatum L.alone L.tracks_evaluate (.load L.alone A datum)
    fun m _ hm => hglobals m hm.2

/-- Programs keep the invariant, provided that they may be malformed. -/
theorem Lawful.execute (L : I.Lawful) (A : I.alone.AdmitsData)
    (hglobals : ∀ m, I.holds m → I.scope m.extent m.globals)
    (hfault : ∀ fault, I.error (.malformed fault)) {m : Machine} (hm : I.holds m)
    (hc : I.alone.Closed m.store) (source : String) :
    I.Kept m.extent I.alone.value (m.run (ScopeLisp.execute source)) :=
  kept_of_tracks (tracks_executeUpTo L.alone hfault
    (fun _ => L.tracks_evaluateDatum A hglobals) _ _ L.part_nil) hm hc

end Invariant

end ScopeLisp
