import ScopeLisp.Proofs.ProgramReading

/-!
# Watched runs

An invariant says what a run keeps between its steps. To say something about all values that come up
on the way, a run is watched: something is done with every value that is read, with every value that
an evaluation or a call returns, and with every argument list that a builtin receives. A watch may
do anything to the machine, or fail. If it does nothing wherever an invariant holds, then the
watched run is the run itself, so what the watch could have noticed never came up.

## Key results

- `Watch.execute_silent`: a watch that does nothing watches the evaluator itself
- `Watch.tracks_evaluateWithin`: evaluation beside watched evaluation
- `Invariant.Lawful.run_watch_execute`: programs run alike under a watch that is quiet where an
  invariant holds
-/

namespace ScopeLisp

open EvalM Correspondence

/-! ## The watched evaluator -/

/-- What is done with the values that come up in a run. -/
structure Watch where
  /-- Done with every value that is read, and with every value that an evaluation or a call
      returns. -/
  value : Value → EvalM Unit
  /-- Done with every argument list that a builtin receives. -/
  args : Value → EvalM Unit

namespace Watch

variable (w : Watch)

/-- A step whose value is watched. -/
def observe (act : EvalM Value) : EvalM Value := do
  let v ← act
  w.value v
  return v

/-- Runs a builtin on an argument list that is watched. -/
def runBuiltin (b : Builtin) (evaluate : Evaluate) (args : Value) (scope : ScopeId) :
    EvalM Value := do
  w.args args
  b.run evaluate args scope

/-- Applies a value to an argument list that is not evaluated yet. -/
def applyWith (evaluate : Evaluate) (callee args : Value) (scope : ScopeId) : EvalM Value :=
  match callee with
  | .native b =>
    match b.kind with
    | .function => do
      let values ← evaluateArgs evaluate args scope
      demand (b.arity.check b.name values.length)
      w.runBuiltin b evaluate values scope
    | .specialForm => do
      demand (b.arity.check b.name args.length)
      w.runBuiltin b evaluate args scope
  | callee => ScopeLisp.applyWith evaluate callee args scope

/-- Evaluates a value, with the evaluation of its parts given. -/
def evaluateStep (evaluate : Evaluate) : Evaluate
  | .pair _ head tail, scope => do
    let callee ← evaluate head scope
    w.observe (w.applyWith evaluate callee tail scope)
  | v, scope => ScopeLisp.evaluateStep evaluate v scope

/-- Evaluates a value as code in a scope, where `room` more evaluations may be nested. -/
def evaluateWithin : (room : Nat) → Evaluate
  | 0 => fun _ _ => refuseDepth
  | room + 1 => fun v scope => nested (w.observe (w.evaluateStep (evaluateWithin room) v scope))

/-- Evaluates a value as code in a scope. -/
def evaluate (v : Value) (scope : ScopeId) : EvalM Value := do
  w.evaluateWithin (← roomLeft) v scope

/-- A datum evaluated in the global scope. -/
def evaluateDatum (datum : Datum) : EvalM Value := do
  let v ← w.observe (allocate (·.load datum))
  w.evaluate v (← get).globals

/-- Evaluates at most `fuel` expressions that a parser still holds, one in each round. -/
def executeUpTo : (fuel : Nat) → Parser → (last : Value) → EvalM Value
  | 0, _, last => return last
  | fuel + 1, p, last =>
    match p.round with
    | .error fault => throw (.malformed fault)
    | .ok none => return last
    | .ok (some (datum, p')) => do
      let last ← w.evaluateDatum datum
      executeUpTo fuel p' last

/-- Runs a program. -/
def execute (source : String) : EvalM Value :=
  w.executeUpTo (source.length + 1) (.ofSource source) .nil

/-! ## A watch that does nothing -/

/-- The watch that does nothing. -/
def silent : Watch where
  value _ := return
  args _ := return

/-- A step whose value is watched by a watch that does nothing is the step. -/
@[simp] theorem observe_silent (act : EvalM Value) : silent.observe act = act := by
  simp [observe, silent]

/-- Applying under a watch that does nothing is applying. -/
private theorem applyWith_silent (evaluate : Evaluate) (callee args : Value) (scope : ScopeId) :
    silent.applyWith evaluate callee args scope =
      ScopeLisp.applyWith evaluate callee args scope := by
  cases callee with
  | native b =>
    cases hkind : b.kind <;>
      simp [applyWith, ScopeLisp.applyWith, hkind, runBuiltin, silent]
  | _ => rfl

/-- One step of evaluation under a watch that does nothing. -/
private theorem evaluateStep_silent (evaluate : Evaluate) :
    silent.evaluateStep evaluate = ScopeLisp.evaluateStep evaluate := by
  funext v scope
  cases v with
  | pair id head tail => simp [evaluateStep, ScopeLisp.evaluateStep, applyWith_silent]
  | _ => rfl

/-- Evaluation under a watch that does nothing, with any room. -/
private theorem evaluateWithin_silent (room : Nat) :
    silent.evaluateWithin room = ScopeLisp.evaluateWithin room := by
  induction room with
  | zero => rfl
  | succ room ih =>
    simp only [evaluateWithin, ScopeLisp.evaluateWithin, observe_silent, ih, evaluateStep_silent]

/-- Evaluation of a datum under a watch that does nothing. -/
private theorem evaluateDatum_silent (datum : Datum) :
    silent.evaluateDatum datum = ScopeLisp.evaluateDatum datum := by
  simp only [evaluateDatum, ScopeLisp.evaluateDatum, observe_silent, evaluate, ScopeLisp.evaluate,
    evaluateWithin_silent]

/-- The rounds of a program under a watch that does nothing. -/
private theorem executeUpTo_silent (fuel : Nat) (p : Parser) (last : Value) :
    silent.executeUpTo fuel p last = ScopeLisp.executeUpTo fuel p last := by
  -- By induction on the rounds; they read alike, and evaluate alike by the lemma above.
  induction fuel generalizing p last with
  | zero => rfl
  | succ fuel ih =>
    rw [executeUpTo, executeUpTo_succ]
    cases p.round with
    | error fault => rfl
    | ok next =>
      cases next with
      | none => rfl
      | some next => simp only [evaluateDatum_silent, ih]

/-- Programs under a watch that does nothing are programs. -/
theorem execute_silent (source : String) : silent.execute source = ScopeLisp.execute source :=
  executeUpTo_silent _ _ _

end Watch

/-! ## Runs beside watched runs -/

/-- The watch does nothing where the invariant holds. Argument lists that were evaluated are lists;
    argument forms are what follows the head of a call. -/
structure Invariant.Quiet (I : Invariant) (w : Watch) : Prop where
  value : ∀ {m : Machine} {v : Value}, I.holds m → I.alone.Closed m.store →
    I.alone.value m.extent v → m.run (w.value v) = (.ok (), m)
  evaluated : ∀ {m : Machine} {args : Value}, I.holds m → I.alone.Closed m.store →
    I.alone.value m.extent args → args.isList = true → m.run (w.args args) = (.ok (), m)
  forms : ∀ {m : Machine} {id : Identity} {head args : Value}, I.holds m →
    I.alone.Closed m.store → I.alone.value m.extent (.pair id head args) →
    m.run (w.args args) = (.ok (), m)

namespace Watch

variable {I : Invariant} {w : Watch} {evaluate evaluate' : Evaluate} {n : Nat} {e : ScopeId}

/-- A step that does nothing may come before a step of the second run. -/
theorem tracks_quiet {α : Type} {look : EvalM Unit} {act act' : EvalM α} {Q : Nat → α → Prop}
    (hlook : ∀ m : Machine, n ≤ m.extent → I.holds m → I.alone.Closed m.store →
      m.run look = (.ok (), m))
    (h : I.alone.Tracks n Q act act') : I.alone.Tracks n Q act (do look; act') := by
  constructor
  · rintro _ m hn ⟨rfl, hm⟩ hc
    rw [Machine.run_bind, hlook m hn hm hc]
    exact h.together m m hn ⟨rfl, hm⟩ hc
  · exact fun _ _ _ _ hs => hs.elim

/-- A step beside the same step with its value watched. -/
private theorem tracks_observe (L : I.Lawful) (Q : I.Quiet w) {act act' : EvalM Value}
    (h : I.alone.Tracks n I.alone.value act act') :
    I.alone.Tracks n I.alone.value act (w.observe act') := by
  -- The value is returned after the look in the one run, and at once in the other.
  rw [← bind_pure act]
  refine h.bind fun k _ v hv => tracks_quiet (fun m hk hm hc => ?_) (.pure fun j hj => ?_)
  · exact Q.value hm hc (L.alone.value_mono hv hk)
  · exact L.alone.value_mono hv hj

/-- Arguments are evaluated to a list. -/
theorem tracks_evaluateArgs_isList (L : I.Lawful) (h : I.alone.TracksEvaluation evaluate evaluate')
    {args : Value} (ha : I.alone.value n args) (he : I.scope n e) :
    I.alone.Tracks n (fun k v => I.alone.value k v ∧ v.isList = true)
      (evaluateArgs evaluate args e) (evaluateArgs evaluate' args e) :=
  (tracks_mapM L.alone h (fun _ hv => ha.of_mem_items hv) he).bind fun _ _ _ hws =>
    .newList L.alone hws

/-- Applying beside applying under a watch. -/
private theorem tracks_applyWith (L : I.Lawful) (Q : I.Quiet w)
    (h : I.alone.TracksEvaluation evaluate evaluate') {callee head args : Value} {id : Identity}
    (hcallee : I.alone.value n callee) (hcall : I.alone.value n (.pair id head args))
    (he : I.scope n e) :
    I.alone.Tracks n I.alone.value (ScopeLisp.applyWith evaluate callee args e)
      (w.applyWith evaluate' callee args e) := by
  have ha : I.alone.value n args := hcall.2.2
  cases callee with
  | native b =>
    cases hkind : b.kind with
    -- The argument forms are evaluated, counted and then watched.
    | function =>
      simp only [ScopeLisp.applyWith, applyWith, hkind]
      refine (tracks_evaluateArgs_isList L h ha he).bind fun k hnk values hvalues => ?_
      refine tracks_demand_bind L.alone (Arity.errorIn_check _ _ _) fun _ _ => ?_
      refine tracks_quiet (fun m hk hm hc => ?_) ?_
      · exact Q.evaluated hm hc (L.alone.value_mono hvalues.1 hk) hvalues.2
      · exact Builtin.tracks_run L.alone h (L.alone.value_mono hcallee hnk) hvalues.1
          (L.scope_mono hnk he)
    -- The argument forms are watched as they stand.
    | specialForm =>
      simp only [ScopeLisp.applyWith, applyWith, hkind]
      refine tracks_demand_bind L.alone (Arity.errorIn_check _ _ _) fun _ _ => ?_
      refine tracks_quiet (fun m hn hm hc => ?_) ?_
      · exact Q.forms hm hc (L.alone.value_mono hcall hn)
      · exact Builtin.tracks_run L.alone h hcallee ha he
  | lambda kind id params body captured => exact ScopeLisp.tracks_applyWith L.alone h hcallee ha he
  | _ => exact .throw (L.ordinary trivial)

/-- One step of evaluation beside one that is watched. -/
private theorem tracks_evaluateStep (L : I.Lawful) (Q : I.Quiet w)
    (h : I.alone.TracksEvaluation evaluate evaluate') :
    I.alone.TracksEvaluation (ScopeLisp.evaluateStep evaluate) (w.evaluateStep evaluate') := by
  intro n v e hv he
  cases v with
  | pair id head tail =>
    refine (h hv.2.1 he).bind fun k hnk callee hcallee => ?_
    exact tracks_observe L Q (tracks_applyWith L Q h hcallee (L.alone.value_mono hv hnk)
      (L.scope_mono hnk he))
  | symbol name => exact .lookup L.alone he
  | quoted id inner => exact .pure fun k hk => L.alone.value_mono hv.2 hk
  | _ => exact .pure fun k hk => L.alone.value_mono hv hk

/-- Evaluations beside watched evaluations. -/
theorem tracks_evaluateWithin (L : I.Lawful) (Q : I.Quiet w) (room : Nat) :
    I.alone.TracksEvaluation (ScopeLisp.evaluateWithin room) (w.evaluateWithin room) := by
  -- With no room left both are refused; otherwise both go one level deeper.
  induction room with
  | zero => exact tracks_evaluateWithin_of_sharesLimit L.alone L.nests L.sharesLimit 0
  | succ room ih =>
    intro n v e hv he
    exact (tracks_observe L Q (tracks_evaluateStep L Q ih hv he)).nested L.nests

/-- Evaluation with the room that a machine has left, beside watched evaluation. -/
private theorem tracks_evaluate (L : I.Lawful) (Q : I.Quiet w) :
    I.alone.TracksEvaluation ScopeLisp.evaluate w.evaluate := by
  intro n v e hv he
  constructor
  · rintro _ m hn ⟨rfl, hm⟩ hc
    exact (tracks_evaluateWithin L Q m.room hv he).together m m hn ⟨rfl, hm⟩ hc
  · exact fun _ _ _ _ hs => hs.elim

end Watch

/-! ## Data -/

/-- Whether a datum is a list. -/
def Datum.isList : Datum → Bool
  | nil | pair .. => true
  | _ => false

/-- The values of the datum and of its parts satisfy what is demanded of parts, and what follows the
    head of a list is a list. -/
def Datum.Admitted (C : Correspondence) : Datum → Prop
  | number x => ∀ n, C.part n (.number x)
  | symbol name => ∀ n, C.part n (.symbol name)
  | pair head tail => tail.isList = true ∧ head.Admitted C ∧ tail.Admitted C
  | quoted inner => (∀ n id v, C.part n (.quoted id v)) ∧ inner.Admitted C
  | nil | string _ => True

/-- The datum is that of an expression in some text. -/
def Datum.Readable (d : Datum) : Prop :=
  ∃ t ks t', Grammar.Expr maxNesting ks d ∧ Lexes t ks t'

/-- A datum that is admitted becomes a value that is. -/
theorem Correspondence.Tracks.load_of_admitted {C : Correspondence} (L : C.Lawful) {n : Nat}
    {d : Datum} (hd : d.Admitted C) :
    C.Tracks n (fun k v => C.value k v ∧ (d.isList = true → v.isList = true))
      (allocate (·.load d)) (allocate (·.load d)) := by
  -- Along with the parts, being a list goes through: the tail of a list has to be one.
  induction d generalizing n with
  | nil => exact .pure fun _ _ => ⟨L.part_nil, fun _ => rfl⟩
  | number x => exact .pure fun k _ => ⟨hd k, nofun⟩
  | string text => exact (Tracks.newString L text).imp fun _ _ _ hv => ⟨hv, nofun⟩
  | symbol name => exact .pure fun k _ => ⟨hd k, nofun⟩
  | pair head tail ihh iht =>
    -- The head is loaded first, then the tail, then the cell is made.
    have hcell : ∀ k v u, C.value k v → C.value k u → u.isList = true →
        C.Tracks k (fun k u => C.value k u ∧ ((Datum.pair head tail).isList = true →
          u.isList = true)) (do return .pair (← allocate Store.newIdentity) v u)
          (do return .pair (← allocate Store.newIdentity) v u) :=
      fun k v u hv hu hlist => (Tracks.newIdentity L).bind fun j hkj id _ => .pure fun i hji =>
        have hki := Nat.le_trans hkj hji
        ⟨⟨L.part_pair hlist, L.value_mono hv hki, L.value_mono hu hki⟩, fun _ => rfl⟩
    have htail : ∀ k v, C.value k v → C.Tracks k (fun k u => C.value k u ∧
        ((Datum.pair head tail).isList = true → u.isList = true))
        (do allocate (·.newPair v (← allocate (·.load tail))))
        (do allocate (·.newPair v (← allocate (·.load tail)))) :=
      fun k v hv => (iht hd.2.2).bind fun j hj u hu =>
        hcell j v u (L.value_mono hv hj) hu.1 (hu.2 hd.1)
    exact (ihh hd.2.1).bind fun k _ v hv => htail k v hv.1
  | quoted inner ih =>
    have hquoted : ∀ k v, C.value k v → C.Tracks k (fun k u => C.value k u ∧
        ((Datum.quoted inner).isList = true → u.isList = true))
        (do return .quoted (← allocate Store.newIdentity) v)
        (do return .quoted (← allocate Store.newIdentity) v) :=
      fun k v hv => (Tracks.newIdentity L).bind fun j hkj id _ => .pure fun i hji =>
        ⟨⟨hd.1 i id v, L.value_mono hv (Nat.le_trans hkj hji)⟩, nofun⟩
    exact (ih hd.2).bind fun k _ v hv => hquoted k v hv.1

/-! ## Programs -/

namespace Watch

variable {I : Invariant} {w : Watch} {n : Nat}

/-- Evaluation of an admitted datum beside watched evaluation. -/
private theorem tracks_evaluateDatum (L : I.Lawful) (Q : I.Quiet w)
    (hglobals : ∀ m, I.holds m → I.scope m.extent m.globals) {d : Datum}
    (hd : d.Admitted I.alone) :
    I.alone.Tracks n I.alone.value (ScopeLisp.evaluateDatum d) (w.evaluateDatum d) := by
  have hload : I.alone.Tracks n I.alone.value (allocate (·.load d)) (allocate (·.load d)) :=
    (Tracks.load_of_admitted L.alone hd).imp fun _ _ _ hv => hv.1
  refine (tracks_observe L Q hload).bind fun k _ v hv => ?_
  constructor
  · rintro _ m hk ⟨rfl, hm⟩ hc
    exact (tracks_evaluate L Q (L.alone.value_mono hv hk) (hglobals m hm)).together m m
      (Nat.le_refl _) ⟨rfl, hm⟩ hc
  · exact fun _ _ _ _ hs => hs.elim

/-- Programs beside watched programs. Only data of expressions are evaluated. -/
theorem tracks_executeUpTo (L : I.Lawful) (Q : I.Quiet w)
    (hglobals : ∀ m, I.holds m → I.scope m.extent m.globals)
    (hfault : ∀ fault, I.error (.malformed fault))
    (hdata : ∀ d : Datum, d.Readable → d.Admitted I.alone) (fuel : Nat) {p : Parser}
    {t : List Char} (hp : p.At 0 t) {last : Value} (hlast : I.alone.value n last) :
    I.alone.Tracks n I.alone.value (ScopeLisp.executeUpTo fuel p last)
      (w.executeUpTo fuel p last) := by
  -- By induction on the rounds. What is read in a round is an expression of the text that is left.
  induction fuel generalizing n p t last with
  | zero => exact .pure fun k hk => L.alone.value_mono hlast hk
  | succ fuel ih =>
    rw [executeUpTo, executeUpTo_succ]
    cases hround : p.round with
    | error fault => exact .throw (hfault fault)
    | ok next =>
      cases next with
      | none => exact .pure fun k hk => L.alone.value_mono hlast hk
      | some next =>
        obtain ⟨d, p'⟩ := next
        obtain ⟨ws, ks, t', -, hx, hlex, hp'⟩ := Parser.lexes_of_round hp hround
        obtain ⟨mid, -, hks⟩ := Lexes.append_inv ws hlex
        exact (tracks_evaluateDatum L Q hglobals (hdata d ⟨mid, ks, t', hx, hks⟩)).bind
          fun k _ v hv => ih hp' hv

end Watch

/-- A step and one that it tracks, from the same machine: they run alike, and keep the invariant. -/
theorem Invariant.run_eq_and_kept {I : Invariant} {α : Type} {Q : Nat → α → Prop}
    {act act' : EvalM α} {m : Machine} (h : I.alone.Tracks m.extent Q act act') (hm : I.holds m)
    (hc : I.alone.Closed m.store) :
    m.run act' = m.run act ∧ I.Kept m.extent Q (m.run act) := by
  have hout := h.together m m (Nat.le_refl _) ⟨rfl, hm⟩ hc
  generalize m.run act = r, m.run act' = r' at hout
  -- Runs of an invariant alone never part, so the third case does not come up.
  cases hout with
  | ok hk hm' hc' hq =>
    obtain ⟨rfl, hm'⟩ := hm'
    exact ⟨rfl, hk, hm', hc', fun a ha => Except.ok.inj ha ▸ hq, nofun⟩
  | error hk hm' hc' he =>
    obtain ⟨rfl, hm'⟩ := hm'
    exact ⟨rfl, hk, hm', hc', nofun, fun e he' => Except.error.inj he' ▸ he⟩
  | stopped ht => exact ht.stopped.elim

/-- Programs run alike under a watch that is quiet, and keep the invariant. -/
theorem Invariant.Lawful.run_watch_execute {I : Invariant} {w : Watch} (L : I.Lawful)
    (Q : I.Quiet w) (hglobals : ∀ m, I.holds m → I.scope m.extent m.globals)
    (hfault : ∀ fault, I.error (.malformed fault))
    (hdata : ∀ d : Datum, d.Readable → d.Admitted I.alone) {m : Machine} (hm : I.holds m)
    (hc : I.alone.Closed m.store) (source : String) :
    m.run (w.execute source) = m.run (ScopeLisp.execute source) ∧
      I.Kept m.extent I.alone.value (m.run (ScopeLisp.execute source)) :=
  run_eq_and_kept (Watch.tracks_executeUpTo L Q hglobals hfault hdata _
    (Parser.at_ofSource source) L.part_nil) hm hc

end ScopeLisp
