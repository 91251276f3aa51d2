import ScopeLisp.Proofs.Expansion
import ScopeLisp.Proofs.InTurn
import ScopeLisp.Proofs.ProgramReading
import ScopeLisp.Proofs.Watching

/-!
# Tracing of expansions

Settings decide whether expansions are logged. To log one, its argument forms and its code are
written out, which looks at the store and changes nothing. So a run with tracing and one without do
the same, and their logs differ by the expansions.

How many expansions are logged, and when, is said by an evaluator that is the same except that
what it does between computing code and evaluating it is up to `note`. With tracing, the evaluator
is the one that always logs an expansion there; without, it is the one that does nothing there.

## Key results

- `lawful_tracing`: no step depends on whether expansions are logged
- `tracks_evaluateWithinNoting`: evaluation logs an expansion where code has been computed
- `Machine.run_apply_expander`: what one expansion logs
- `tracing_only_observes`: runs with and without tracing
-/

namespace ScopeLisp

open EvalM Correspondence

/-- Whether an event is an expansion. -/
def Event.isExpansion : Event → Bool
  | .expansion .. => true
  | _ => false

/-- The machine with settings by which expansions are logged, or are not. -/
def Machine.withTracing (m : Machine) (trace : Bool) : Machine :=
  { m with config := { m.config with traceExpansions := trace } }

/-! ## A run with tracing beside one without -/

namespace Correspondence

/-- Two runs from one log, of which only the first one logs expansions. Apart from those, the logs
    are the same, and so is everything else. -/
def tracing (start : Array Event) : Correspondence :=
  upTo fun m m' => m.config.traceExpansions = true ∧ ∃ new, m.events = start ++ new ∧
    m' = { m.withTracing false with events := start ++ new.filter fun event => !event.isExpansion }

variable {start : Array Event}

/-- Both runs log what is no expansion. -/
theorem machines_tracing_emit {m m' : Machine} (h : (tracing start).machines m m') (event : Event)
    (hevent : event.isExpansion = false) :
    (tracing start).machines { m with events := m.events.push event }
      { m' with events := m'.events.push event } := by
  obtain ⟨htrace, new, hnew, rfl⟩ := h
  refine ⟨htrace, new.push event, ?_, ?_⟩
  · simp [hnew]
  · simp [Machine.withTracing, hevent]

/-- The first run logs an expansion, the second does not. -/
theorem machines_tracing_traced {m m' : Machine} (h : (tracing start).machines m m')
    (params : List String) (args code : Value) :
    (tracing start).machines (m.traced params args code) (m'.traced params args code) := by
  obtain ⟨htrace, new, hnew, rfl⟩ := h
  let event : Event :=
    .expansion (Value.paramList params) (m.store.render args) (m.store.render code)
  have htraced : m.traced params args code = { m with events := m.events.push event } := by
    simp [Machine.traced, htrace, event]
  -- The second run does not trace, and the filter drops the event of the first.
  rw [htraced]
  refine ⟨htrace, new.push event, ?_, ?_⟩
  · simp [hnew]
  · simp [Machine.traced, Machine.withTracing, event, Event.isExpansion]

/-- No step depends on whether expansions are logged. -/
theorem lawful_tracing : (tracing start).Lawful := by
  apply lawful_upTo
  · rintro m m' ⟨-, new, -, rfl⟩
    rfl
  · rintro m m' ⟨-, new, -, rfl⟩
    rfl
  · rintro m m' s ⟨htrace, new, hnew, rfl⟩
    exact ⟨htrace, new, hnew, rfl⟩
  · rintro m m' text ⟨htrace, new, hnew, rfl⟩
    exact ⟨htrace, new, hnew, rfl⟩
  · intro m m' params hm
    -- Both are on the same level, which the event tells.
    obtain ⟨-, new, -, rfl⟩ := id hm
    exact machines_tracing_emit hm (.call params m.depth) rfl
  · intro m m' params args code hm
    exact machines_tracing_traced hm params args code

/-- The counter of nested evaluations does not depend on it. -/
private theorem nests_tracing : (tracing start).Nests where
  enter := by
    rintro m m' ⟨htrace, new, hnew, rfl⟩
    exact ⟨htrace, new, hnew, rfl⟩
  leave := by
    rintro m m' ⟨htrace, new, hnew, rfl⟩
    exact ⟨htrace, new, hnew, rfl⟩
  stopped _ _ := False.elim

/-- The limit does not depend on tracing, and both runs log that it was met. -/
private theorem sharesLimit_tracing : (tracing start).SharesLimit where
  room_eq := by
    rintro m m' ⟨-, new, -, rfl⟩
    rfl
  limit_eq := by
    rintro m m' ⟨-, new, -, rfl⟩
    rfl
  refuse limit hm := machines_tracing_emit hm (.depthLimit limit) rfl
  error _ := trivial

/-- Evaluation with tracing beside evaluation without. -/
private theorem tracks_evaluate_tracing :
    (tracing start).TracksEvaluation ScopeLisp.evaluate ScopeLisp.evaluate :=
  tracks_evaluate_of_sharesLimit lawful_tracing nests_tracing sharesLimit_tracing

/-- A program with tracing beside the program without. -/
private theorem tracks_execute_tracing (n : Nat) (source : String) :
    (tracing start).Tracks n (tracing start).value (execute source) (execute source) := by
  have L : (tracing start).Lawful := lawful_tracing
  have hdatum : ∀ k datum, (tracing start).Tracks k (tracing start).value (evaluateDatum datum)
      (evaluateDatum datum) :=
    fun k datum => tracks_evaluateDatum L tracks_evaluate_tracing
      (.load L ⟨trivial, trivial, trivial, trivial⟩ datum) fun _ _ _ => trivial
  exact tracks_executeUpTo L (fun _ => trivial) hdatum _ _ trivial

end Correspondence

/-- The second outcome is the first one without the expansions that have been logged since the
    start. -/
structure WithoutExpansions (start : Array Event) (r r' : Except Error Value × Machine) : Prop where
  result : r'.1 = r.1
  store : r'.2.store = r.2.store
  output : r'.2.output = r.2.output
  depth : r'.2.depth = r.2.depth
  events : ∃ new, r.2.events = start ++ new ∧
    r'.2.events = start ++ new.filter fun event => !event.isExpansion

/-- A step with tracing and without, from the same machine. -/
private theorem Correspondence.Tracks.withoutExpansions {m : Machine} {act : EvalM Value}
    {Q : Nat → Value → Prop} (h : (tracing m.events).Tracks 0 Q act act) :
    WithoutExpansions m.events ((m.withTracing true).run act) ((m.withTracing false).run act) := by
  have hstart : (tracing m.events).machines (m.withTracing true) (m.withTracing false) :=
    ⟨rfl, #[], by simp [Machine.withTracing], by simp [Machine.withTracing]⟩
  obtain ⟨hresult, -, new, hnew, hmachine⟩ := h.eq_upTo (Nat.zero_le _) hstart
  refine ⟨hresult, ?_, ?_, ?_, new, hnew, ?_⟩ <;> rw [hmachine] <;> rfl

/-- An evaluation with tracing only adds to the log. -/
theorem Machine.exists_events_evaluate {m : Machine} (htrace : m.config.traceExpansions = true)
    (v : Value) (scope : ScopeId) :
    ∃ new, (m.run (evaluate v scope)).2.events = m.events ++ new := by
  have hm : m.withTracing true = m := by simp only [Machine.withTracing, ← htrace]
  have htracks : (tracing m.events).Tracks 0 _ (evaluate v scope) (evaluate v scope) :=
    tracks_evaluate_tracing (value_upTo 0 v) trivial
  obtain ⟨new, hnew, -⟩ := htracks.withoutExpansions.events
  exact ⟨new, hm ▸ hnew⟩

/-! ## Evaluation with a note on each expansion -/

/-- What is done between computing code and evaluating it, given the parameters, the argument forms
    and the code. -/
abbrev Note := List String → Value → Value → EvalM Unit

/-- Logs an expansion, whatever the settings are. -/
def noteExpansion : Note := fun params args code => do
  emit (← readStore fun s => .expansion (Value.paramList params) (s.render args) (s.render code))

section Noting

variable (note : Note)

/-- Applies a value to an argument list that is not evaluated yet. -/
def applyNoting (evaluate : Evaluate) (callee args : Value) (scope : ScopeId) : EvalM Value :=
  match callee with
  | .lambda .expander _ params body captured => do
    let code ← computeCode evaluate params body captured args
    note params args code
    evaluate code scope
  | callee => applyWith evaluate callee args scope

/-- Evaluates a value, with the evaluation of its parts given. -/
def evaluateStepNoting (evaluate : Evaluate) : Evaluate
  | .pair _ head tail, scope => do
    let callee ← evaluate head scope
    applyNoting note evaluate callee tail scope
  | v, scope => evaluateStep evaluate v scope

/-- Evaluates a value as code in a scope, where `room` more evaluations may be nested. -/
def evaluateWithinNoting : (room : Nat) → Evaluate
  | 0 => fun _ _ => refuseDepth
  | room + 1 => fun v scope =>
    nested (evaluateStepNoting note (evaluateWithinNoting room) v scope)

/-- Evaluates a value as code in a scope. -/
def evaluateNoting (v : Value) (scope : ScopeId) : EvalM Value := do
  evaluateWithinNoting note (← roomLeft) v scope

/-- A datum evaluated in the global scope. -/
def evaluateDatumNoting (datum : Datum) : EvalM Value := do
  let v ← allocate (·.load datum)
  evaluateNoting note v (← get).globals

/-- Evaluates at most `fuel` expressions that a parser still holds, one in each round. -/
def executeUpToNoting : (fuel : Nat) → Parser → (last : Value) → EvalM Value
  | 0, _, last => return last
  | fuel + 1, p, last =>
    match p.round with
    | .error fault => throw (.malformed fault)
    | .ok none => return last
    | .ok (some (datum, p')) => do
      let last ← evaluateDatumNoting note datum
      executeUpToNoting fuel p' last

/-- Runs a program. -/
def executeNoting (source : String) : EvalM Value :=
  executeUpToNoting note (source.length + 1) (.ofSource source) .nil

end Noting

/-- The settings by which expansions are logged, or are not, stay as they are. -/
def Invariant.traced (trace : Bool) : Invariant :=
  plain (fun m => m.config.traceExpansions = trace) fun _ => True

/-- Evaluation keeps the settings. -/
private theorem Invariant.lawful_traced (trace : Bool) : (traced trace).Lawful where
  toLawfulSteps := lawfulSteps_plain (fun _ => trivial) (fun _ h => h) (fun _ h => h)
    (fun _ h => h) fun _ _ _ h => h
  limit _ := trivial
  refuse _ h := h
  enter h := h
  leave h := h

/-- The note is what the evaluator logs under the settings. -/
def Note.Logs (note : Note) (trace : Bool) : Prop :=
  ∀ (m : Machine) params args code, m.config.traceExpansions = trace →
    m.run (note params args code) = (.ok (), m.traced params args code)

/-- With tracing, the evaluator logs each expansion. -/
private theorem logs_noteExpansion : noteExpansion.Logs true := by
  intro m params args code htrace
  simp [noteExpansion, Machine.run_bind, Machine.traced, htrace]

/-- Without tracing, it logs none. -/
private theorem logs_nothing : Note.Logs (fun _ _ _ => return) false := by
  intro m params args code htrace
  simp [Machine.traced, htrace]

section Noting

variable {note : Note} {trace : Bool} {evaluate evaluate' : Evaluate} {n : Nat} {e : ScopeId}

/-- What the evaluator logs beside the note. -/
private theorem tracks_note (hnote : note.Logs trace) (params : List String) (args code : Value) :
    (Invariant.traced trace).alone.Tracks n (fun _ _ => True) (logExpansion params args code)
      (note params args code) := by
  have hlog : (Invariant.traced trace).alone.Tracks n (fun _ _ => True)
      (logExpansion params args code) (logExpansion params args code) :=
    .logExpansion (Invariant.lawful_traced trace).alone (Invariant.value_plain n args)
      (Invariant.value_plain n code)
  constructor
  · rintro _ m hn ⟨rfl, htrace⟩ hc
    rw [hnote m params args code htrace]
    exact hlog.together m m hn ⟨rfl, htrace⟩ hc
  · exact fun _ _ _ _ hs => hs.elim

/-- Computing code beside computing code, with evaluations that track each other. -/
private theorem Correspondence.TracksEvaluation.computeCode {C : Correspondence} (L : C.Lawful)
    (h : C.TracksEvaluation evaluate evaluate') (params : List String) {body args : Value}
    {captured : ScopeId} (hb : C.value n body) (hcap : C.scope n captured) (ha : C.value n args) :
    C.Tracks n C.value (ScopeLisp.computeCode evaluate params body captured args)
      (ScopeLisp.computeCode evaluate' params body captured args) := by
  apply tracks_demand_bind L (Arity.errorIn_check _ _ _)
  intro _ _
  have hframe := tracks_enterFrame L params
    (fun k hnk v hv => .pure fun j hkj => L.value_mono hv hkj) hcap ha
  exact hframe.bind fun k hnk frame hf => h (L.value_mono hb hnk) hf

/-- Applying beside applying with a note. -/
private theorem tracks_applyNoting (hnote : note.Logs trace)
    (h : (Invariant.traced trace).alone.TracksEvaluation evaluate evaluate') (callee args : Value) :
    (Invariant.traced trace).alone.Tracks n (Invariant.traced trace).alone.value
      (applyWith evaluate callee args e) (applyNoting note evaluate' callee args e) := by
  have L := (Invariant.lawful_traced trace).alone
  have hvalue : ∀ k v, (Invariant.traced trace).alone.value k v := Invariant.value_plain
  have happly : (Invariant.traced trace).alone.Tracks n (Invariant.traced trace).alone.value
      (applyWith evaluate callee args e) (applyWith evaluate' callee args e) :=
    tracks_applyWith L h (hvalue n callee) (hvalue n args) trivial
  -- Only the call of a code-computing form has a note in it.
  cases callee with
  | lambda kind id params body captured =>
    cases kind with
    | function => exact happly
    | expander =>
      show (Invariant.traced trace).alone.Tracks n _
        (applyExpander evaluate params body captured args e) _
      rw [applyExpander_eq_computeCode]
      -- The note stands where the evaluator logs the expansion.
      refine (h.computeCode L params (hvalue n body) trivial (hvalue n args)).bind
        fun k _ code _ => ?_
      refine (tracks_note hnote params args code).bind fun j _ _ _ => ?_
      exact h (hvalue j code) trivial
  | _ => exact happly

/-- One step of evaluation beside one with a note. -/
private theorem tracks_evaluateStepNoting (hnote : note.Logs trace)
    (h : (Invariant.traced trace).alone.TracksEvaluation evaluate evaluate') :
    (Invariant.traced trace).alone.TracksEvaluation (evaluateStep evaluate)
      (evaluateStepNoting note evaluate') := by
  have L := (Invariant.lawful_traced trace).alone
  intro n v e hv he
  cases v with
  | pair id head tail =>
    exact (h hv.2.1 he).bind fun k _ callee _ => tracks_applyNoting hnote h callee tail
  | symbol name => exact .lookup L he
  | quoted id inner => exact .pure fun k hk => L.value_mono hv.2 hk
  | _ => exact .pure fun k hk => L.value_mono hv hk

/-- Evaluation beside evaluation with a note of what it logs. -/
theorem tracks_evaluateWithinNoting (hnote : note.Logs trace) (room : Nat) :
    (Invariant.traced trace).alone.TracksEvaluation (evaluateWithin room)
      (evaluateWithinNoting note room) := by
  have L := Invariant.lawful_traced trace
  -- With no room left neither evaluates anything, so there is nothing to note.
  induction room with
  | zero => exact tracks_evaluateWithin_of_sharesLimit L.alone L.nests L.sharesLimit 0
  | succ room ih =>
    intro n v e hv he
    exact (tracks_evaluateStepNoting hnote ih hv he).nested L.nests

/-- Evaluation with the room that a machine has left, beside evaluation with a note. -/
private theorem tracks_evaluateNoting (hnote : note.Logs trace) :
    (Invariant.traced trace).alone.TracksEvaluation ScopeLisp.evaluate (evaluateNoting note) := by
  intro n v e hv he
  constructor
  · rintro _ m hn ⟨rfl, hm⟩ hc
    exact (tracks_evaluateWithinNoting hnote m.room hv he).together m m hn ⟨rfl, hm⟩ hc
  · exact fun _ _ _ _ hs => hs.elim

/-- Evaluation of a datum beside evaluation with a note. -/
private theorem tracks_evaluateDatumNoting (hnote : note.Logs trace) (d : Datum) :
    (Invariant.traced trace).alone.Tracks n (Invariant.traced trace).alone.value (evaluateDatum d)
      (evaluateDatumNoting note d) := by
  have L := (Invariant.lawful_traced trace).alone
  refine (Tracks.load L Invariant.admitsData_plain d).bind fun k _ v hv => ?_
  constructor
  · rintro _ m hk ⟨rfl, hm⟩ hc
    exact (tracks_evaluateNoting hnote (L.value_mono hv hk) trivial).together m m (Nat.le_refl _)
      ⟨rfl, hm⟩ hc
  · exact fun _ _ _ _ hs => hs.elim

/-- The rounds of a program beside those with a note. -/
private theorem tracks_executeUpToNoting (hnote : note.Logs trace) (fuel : Nat) (p : Parser)
    (last : Value) :
    (Invariant.traced trace).alone.Tracks n (Invariant.traced trace).alone.value
      (executeUpTo fuel p last) (executeUpToNoting note fuel p last) := by
  -- By induction on the rounds, which read the same expressions.
  induction fuel generalizing n p last with
  | zero => exact .pure fun k _ => Invariant.value_plain k last
  | succ fuel ih =>
    rw [executeUpToNoting, executeUpTo_succ]
    cases p.round with
    | error fault => exact .throw trivial
    | ok next =>
      cases next with
      | none => exact .pure fun k _ => Invariant.value_plain k last
      | some next =>
        obtain ⟨d, p'⟩ := next
        exact (tracks_evaluateDatumNoting hnote d).bind fun k _ v _ => ih p' v

/-- Under the settings, evaluation is evaluation with the note, and so are programs. The settings
    are kept. -/
theorem Note.Logs.run_eq (hnote : note.Logs trace) {m : Machine}
    (hm : m.config.traceExpansions = trace) :
    (∀ v scope, m.run (evaluateNoting note v scope) = m.run (ScopeLisp.evaluate v scope)) ∧
      ∀ source, m.run (executeNoting note source) = m.run (execute source) := by
  constructor
  · intro v scope
    exact (Invariant.run_eq_and_kept (tracks_evaluateNoting hnote (Invariant.value_plain _ v)
      trivial) hm (Invariant.closed_plain _)).1
  · intro source
    exact (Invariant.run_eq_and_kept (tracks_executeUpToNoting hnote _ _ .nil) hm
      (Invariant.closed_plain _)).1

end Noting

/-! ## One expansion -/

namespace Machine

/-- Making a frame for argument forms evaluates nothing. -/
theorem room_run_enterFrame (m : Machine) (captured : ScopeId) (params : List String)
    (args : Value) : (m.run (enterFrame pure captured params args)).2.room = m.room := by
  let I : Invariant := .plain (fun m' => m'.depth = m.depth ∧ m'.config = m.config) fun _ => True
  have L : I.LawfulSteps := Invariant.lawfulSteps_plain (fun _ => trivial) (fun _ h => h)
    (fun _ h => h) (fun _ h => h) fun _ _ _ h => h
  have htracks : I.alone.Tracks m.extent I.scope (enterFrame pure captured params args)
      (enterFrame pure captured params args) :=
    tracks_enterFrame L.alone params (fun k _ v hv => .pure fun j hkj => L.alone.value_mono hv hkj)
      trivial (Invariant.value_plain _ args)
  have hkept := (Invariant.kept_of_tracks htracks ⟨rfl, rfl⟩ (Invariant.closed_plain _)).holds
  simp only [room, hkept.1, hkept.2]

/-- Computing code leaves the room that there was. -/
private theorem room_run_computeCode (m : Machine) (params : List String) (body args : Value)
    (captured : ScopeId) :
    (m.run (computeCode (evaluateWithin m.room) params body captured args)).2.room = m.room := by
  unfold computeCode
  rw [run_bind, run_demand]
  -- Computing code may be refused, fail on a repeated parameter, or come to the body.
  cases (Arity.exactly params.length).check (Value.paramList params) args.length with
  | error e => rfl
  | ok =>
    have hroom := m.room_run_enterFrame captured params args
    dsimp only
    rw [run_bind]
    generalize m.run (enterFrame pure captured params args) = r at hroom
    obtain ⟨outcome, m₁⟩ := r
    cases outcome with
    | error e => exact hroom
    | ok frame =>
      -- The body is evaluated with the room that there was.
      dsimp only at hroom ⊢
      rw [← hroom, ← run_evaluate]
      exact m₁.room_run_evaluate body frame

/-- Computing code keeps the settings. -/
private theorem traced_run_computeCode {m : Machine} {trace : Bool}
    (hm : m.config.traceExpansions = trace) (room : Nat) (params : List String) (body args : Value)
    (captured : ScopeId) :
    (m.run (computeCode (evaluateWithin room) params body captured args)).2.config.traceExpansions =
      trace := by
  have L := Invariant.lawful_traced trace
  have hevaluate := tracks_evaluateWithin_of_sharesLimit L.alone L.nests L.sharesLimit room
  let code := computeCode (evaluateWithin room) params body captured args
  have htracks : (Invariant.traced trace).alone.Tracks m.extent
      (Invariant.traced trace).alone.value code code :=
    hevaluate.computeCode L.alone params (Invariant.value_plain _ body) trivial
      (Invariant.value_plain _ args)
  exact (Invariant.kept_of_tracks htracks hm (Invariant.closed_plain _)).holds

/-- An expansion fails as its body does. If the body has computed code, the expansion is logged once
    under tracing, and then the code is evaluated. -/
theorem run_apply_expander (m : Machine) (id : Identity) (params : List String) (body args : Value)
    (captured scope : ScopeId) :
    m.run (apply (.lambda .expander id params body captured) args scope) =
      match m.run (computeCode (evaluateWithin m.room) params body captured args) with
      | (.error e, m₁) => (.error e, m₁)
      | (.ok code, m₁) => (m₁.traced params args code).run (evaluate code scope) := by
  have hroom := m.room_run_computeCode params body args captured
  rw [run_apply]
  show m.run (applyExpander _ params body captured args scope) = _
  rw [applyExpander_eq_computeCode, run_bind]
  generalize m.run (computeCode (evaluateWithin m.room) params body captured args) = r at hroom
  obtain ⟨outcome, m₁⟩ := r
  -- The code is there, or the expansion ends with the error of the body.
  cases outcome with
  | error e => rfl
  | ok code =>
    have hlog : m₁.run (logExpansion params args code) = (.ok (), m₁.traced params args code) := rfl
    have htraced : (m₁.traced params args code).room = m.room := by
      rw [← hroom]
      unfold traced
      split <;> rfl
    dsimp only
    rw [run_bind, hlog, run_evaluate, htraced]

end Machine

/-! ## Runs with and without tracing -/

/-- An expression or a program runs alike with tracing and without: the same result, store and
    output, and the same log but for expansions. With tracing, the evaluator is the one that logs an
    expansion each time that code has been computed, before it evaluates the code; without, it is
    the one that does nothing there.

    So an expansion whose body fails logs nothing more than its body does. Otherwise the body's
    events are followed by the expansion itself, then by the events of the code. -/
theorem tracing_only_observes (m : Machine) :
    (∀ v scope, WithoutExpansions m.events ((m.withTracing true).run (evaluate v scope))
      ((m.withTracing false).run (evaluate v scope))) ∧
    (∀ source, WithoutExpansions m.events ((m.withTracing true).run (execute source))
      ((m.withTracing false).run (execute source))) ∧
    (∀ trace, let note : Note := if trace then noteExpansion else fun _ _ _ => return
      (∀ v scope, (m.withTracing trace).run (evaluateNoting note v scope) =
        (m.withTracing trace).run (evaluate v scope)) ∧
      ∀ source, (m.withTracing trace).run (executeNoting note source) =
        (m.withTracing trace).run (execute source)) ∧
    ∀ id params body captured args scope,
      let computed := (m.withTracing true).run
        (computeCode (evaluateWithin m.room) params body captured args)
      let expanded := (m.withTracing true).run
        (apply (.lambda .expander id params body captured) args scope)
      (∀ e m₁, computed = (.error e, m₁) → expanded = (.error e, m₁)) ∧
      ∀ code m₁, computed = (.ok code, m₁) →
        let event : Event :=
          .expansion (Value.paramList params) (m₁.store.render args) (m₁.store.render code)
        expanded = { m₁ with events := m₁.events.push event }.run (evaluate code scope) ∧
          ∃ after, expanded.2.events = m₁.events.push event ++ after := by
  refine ⟨fun v scope => ?_, fun source => ?_, fun trace => ?_, ?_⟩
  · exact (tracks_evaluate_tracing (value_upTo 0 v) trivial).withoutExpansions
  · exact (tracks_execute_tracing 0 source).withoutExpansions
  · cases trace with
    | true => exact logs_noteExpansion.run_eq rfl
    | false => exact logs_nothing.run_eq rfl
  · intro id params body captured args scope computed expanded
    have hexpanded := (m.withTracing true).run_apply_expander id params body args captured scope
    have htrace := Machine.traced_run_computeCode (m := m.withTracing true) rfl m.room params body
      args captured
    have hroom : (m.withTracing true).room = m.room := rfl
    rw [hroom] at hexpanded
    -- A body that fails, and a body that has computed code.
    constructor
    · intro e m₁ hcomputed
      rw [show (m.withTracing true).run _ = _ from hcomputed] at hexpanded
      exact hexpanded
    · intro code m₁ hcomputed event
      rw [show (m.withTracing true).run _ = _ from hcomputed] at hexpanded htrace
      have htrace : m₁.config.traceExpansions = true := htrace
      have hexpanded : expanded = (m₁.traced params args code).run (evaluate code scope) :=
        hexpanded
      have hlogged : m₁.traced params args code = { m₁ with events := m₁.events.push event } := by
        simp only [Machine.traced, htrace, if_true, event]
      rw [hexpanded, hlogged]
      -- Evaluating the code only adds to the log.
      exact ⟨rfl, Machine.exists_events_evaluate (m := { m₁ with events := m₁.events.push event })
        htrace code scope⟩

/-- A form that calls a function on its argument: the body has no events, the code has one. -/
example :
    let call : Value := .pair 1 (.lambda .function 2 [] .nil 0) .nil
    ((Machine.start .empty ⟨256, true⟩).run
      (apply (.lambda .expander 0 ["x"] (.symbol "x") 0) (.pair 3 call .nil) 0)).2.events =
        #[.installed 3, .expansion "(x)" "((<function () -> ()>))" "(<function () -> ()>)",
          .call "()" 1] := by
  decide +kernel

end ScopeLisp
