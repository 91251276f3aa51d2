import ScopeLisp.CommandLine.Shell
import ScopeLisp.Proofs.DepthLimit
import ScopeLisp.Proofs.Watching

/-!
# The counter of nested evaluations

A machine counts how deeply evaluations are nested. Evaluation itself runs on the room that is left,
so that the counter and the room have to be kept in step: at every moment they add up to the limit.
`Invariant.level` says what holds of a run that is a number of levels deep; one level deeper it is
the invariant of the next number, and coming back up, whatever the outcome, it is the same again.

To say something about every moment, the evaluator is run with a look at the machine before and
after each evaluation, on either side of the change of the counter. Nothing else changes it.

## Key results

- `tracks_evaluateProbed`: evaluations beside evaluations that are looked at
- `onLevel_of_tracks`: what evaluations and calls leave behind
- `evaluation_restores_counter`: the counter is within the limit at every moment, and put back
-/

namespace ScopeLisp

open EvalM Correspondence

/-! ## What holds on a level -/

/-- The machine is reached from a start and is `d` levels deep: the settings and the global scope
    are those of the start, and calls were logged only at levels from that of the start up to the
    limit. -/
structure Machine.OnLevel (start : Machine) (d : Nat) (m : Machine) : Prop where
  depth : m.depth = d
  config : m.config = start.config
  globals : m.globals = start.globals
  calls : ∃ new, m.events.toList = start.events.toList ++ new ∧
    ∀ params k, .call params k ∈ new → start.depth ≤ k ∧ k ≤ start.config.maxDepth

namespace Machine.OnLevel

variable {start m : Machine} {d : Nat}

private theorem refl (m : Machine) : m.OnLevel m.depth m :=
  ⟨rfl, rfl, rfl, [], (List.append_nil _).symm, nofun⟩

/-- An event other than a call. -/
theorem emit (h : start.OnLevel d m) {event : Event} (hevent : ∀ params k, event ≠ .call params k) :
    start.OnLevel d { m with events := m.events.push event } := by
  obtain ⟨new, hnew, hcalls⟩ := h.calls
  refine ⟨h.depth, h.config, h.globals, new ++ [event], ?_, ?_⟩
  · show (m.events.push event).toList = _
    rw [Array.toList_push, hnew, List.append_assoc]
  · intro params k hmem
    rcases List.mem_append.1 hmem with hmem | hmem
    · exact hcalls params k hmem
    · exact absurd (List.mem_singleton.1 hmem).symm (hevent params k)

/-- A call that is logged within the limit keeps the machine on its level. -/
private theorem call (h : start.OnLevel d m) (hstart : start.depth ≤ d)
    (hmax : d ≤ start.config.maxDepth)
    (params : String) :
    start.OnLevel d { m with events := m.events.push (.call params m.depth) } := by
  obtain ⟨new, hnew, hcalls⟩ := h.calls
  refine ⟨h.depth, h.config, h.globals, new ++ [.call params m.depth], ?_, ?_⟩
  · show (m.events.push _).toList = _
    rw [Array.toList_push, hnew, List.append_assoc]
  · intro params' k hmem
    rcases List.mem_append.1 hmem with hmem | hmem
    · exact hcalls params' k hmem
    · obtain ⟨-, rfl⟩ := Event.call.inj (List.mem_singleton.1 hmem)
      rw [h.depth]
      exact ⟨hstart, hmax⟩

end Machine.OnLevel

namespace Invariant

variable {start : Machine} {d n : Nat} {α : Type} {Q : Nat → α → Prop} {act act' : EvalM α}

/-- A run that is `d` levels deep. -/
def level (start : Machine) (d : Nat) : Invariant :=
  plain (start.OnLevel d) fun _ => True

/-- Every operation of the machine keeps a run on its level. -/
private theorem lawfulSteps_level (hstart : start.depth ≤ d) (hmax : d ≤ start.config.maxDepth) :
    (level start d).LawfulSteps :=
  lawfulSteps_plain (fun _ => trivial) (fun _ h => ⟨h.depth, h.config, h.globals, h.calls⟩)
    (fun _ h => ⟨h.depth, h.config, h.globals, h.calls⟩) (fun params h => h.call hstart hmax params)
    (fun _ _ _ h => h.emit nofun)

/-- Two steps that run alike and keep the invariant track each other. -/
theorem tracks_of_run_eq_and_kept {I : Invariant}
    (h : ∀ m : Machine, n ≤ m.extent → I.holds m → I.alone.Closed m.store →
      m.run act' = m.run act ∧ I.Kept m.extent Q (m.run act)) : I.alone.Tracks n Q act act' := by
  constructor
  · rintro _ m hn ⟨rfl, hm⟩ hc
    obtain ⟨heq, hkept⟩ := h m hn hm hc
    rw [heq]
    generalize m.run act = r at hkept
    obtain ⟨outcome, m'⟩ := r
    -- A run ends with a value or with an error; the invariant holds in either case.
    cases outcome with
    | ok a => exact .ok hkept.extent_le ⟨rfl, hkept.holds⟩ hkept.closed (hkept.result a rfl)
    | error e => exact .error hkept.extent_le ⟨rfl, hkept.holds⟩ hkept.closed (hkept.error e rfl)
  · exact fun _ _ _ _ hs => hs.elim

/-- What tracking says from a machine with at least as many scopes. -/
private theorem run_eq_and_kept_of_le {I : Invariant} {m : Machine}
    (h : I.alone.Tracks n Q act act')
    (hn : n ≤ m.extent) (hm : I.holds m) (hc : I.alone.Closed m.store) :
    m.run act' = m.run act ∧ I.Kept m.extent Q (m.run act) :=
  run_eq_and_kept ⟨fun m m' hk => h.together m m' (Nat.le_trans hn hk), fun _ _ _ _ hs => hs.elim⟩
    hm hc

/-- A step one level deeper. -/
theorem tracks_nested_level (h : (level start (d + 1)).alone.Tracks n Q act act') :
    (level start d).alone.Tracks n Q (nested act) (nested act') := by
  refine tracks_of_run_eq_and_kept fun m hn hm _ => ?_
  have henter : start.OnLevel (d + 1) { m with depth := m.depth + 1 } :=
    ⟨congrArg (· + 1) hm.depth, hm.config, hm.globals, hm.calls⟩
  obtain ⟨heq, hkept⟩ :=
    run_eq_and_kept_of_le (m := { m with depth := m.depth + 1 }) h hn henter (closed_plain _)
  rw [Machine.run_nested, Machine.run_nested, heq]
  have hlevel := hkept.holds
  refine ⟨rfl, hkept.extent_le, ?_, closed_plain _, hkept.result, fun _ _ => trivial⟩
  -- Coming back up, the counter is again what it was.
  exact ⟨congrArg (· - 1) hlevel.depth, hlevel.config, hlevel.globals, hlevel.calls⟩

end Invariant

/-! ## Looking at every evaluation -/

namespace EvalM

variable {α : Type}

/-- Runs a step and returns how it ended. -/
def attempt (act : EvalM α) : EvalM (Except Error α) :=
  ExceptT.mk (Except.ok <$> act.run)

/-- Looks at the machine before a step and after it, however it ends. -/
def flanked (look : EvalM Unit) (act : EvalM α) : EvalM α := do
  look
  let outcome ← attempt act
  look
  demand outcome

/-- How a step ended is a result like any other. -/
theorem run_attempt (m : Machine) (act : EvalM α) :
    m.run (attempt act) = (.ok (m.run act).1, (m.run act).2) := rfl

/-- A look that does nothing before the step, and nothing after it, leaves the step as it is. -/
theorem run_flanked {look : EvalM Unit} {act : EvalM α} {m : Machine}
    (hbefore : m.run look = (.ok (), m))
    (hafter : (m.run act).2.run look = (.ok (), (m.run act).2)) :
    m.run (flanked look act) = m.run act := by
  simp only [flanked, Machine.run_bind, hbefore, run_attempt, hafter, Machine.run_demand]

/-- Looks that do nothing leave the step as it is. -/
private theorem flanked_pure (act : EvalM α) : flanked (return) act = act :=
  ext_run fun _ => run_flanked rfl rfl

end EvalM

/-- Evaluation with a look at the machine before and after each evaluation, both outside and inside
    its level. The look is told how many more evaluations may be nested. -/
def evaluateProbed (look : (room : Nat) → EvalM Unit) : (room : Nat) → Evaluate
  | 0 => fun _ _ => flanked (look 0) refuseDepth
  | room + 1 => fun v scope => flanked (look (room + 1))
      (nested (flanked (look room) (evaluateStep (evaluateProbed look room) v scope)))

/-- Evaluations with a look that does nothing are evaluations. -/
theorem evaluateProbed_pure (room : Nat) :
    evaluateProbed (fun _ => return) room = evaluateWithin room := by
  induction room with
  | zero => simp only [evaluateProbed, evaluateWithin, flanked_pure]
  | succ room ih => simp only [evaluateProbed, evaluateWithin, flanked_pure, ih]

/-- Raises an alarm unless the counter is within the limit and leaves the room given. -/
def alarmUnless (alarm : EvalM Unit) (room : Nat) : EvalM Unit := do
  let m ← get
  unless m.depth ≤ m.config.maxDepth ∧ m.room = room do alarm

/-- Evaluation that raises an alarm at every moment at which the counter is past the limit or does
    not leave the room that the evaluator counts on. -/
def evaluateAlarmed (alarm : EvalM Unit) (v : Value) (scope : ScopeId) : EvalM Value := do
  evaluateProbed (alarmUnless alarm) (← roomLeft) v scope

/-- A call that raises an alarm in the same way. -/
def applyAlarmed (alarm : EvalM Unit) (callee args : Value) (scope : ScopeId) : EvalM Value := do
  let room ← roomLeft
  flanked (alarmUnless alarm room)
    (applyWith (evaluateProbed (alarmUnless alarm) room) callee args scope)

private theorem Machine.run_roomLeft (m : Machine) : m.run roomLeft = (.ok m.room, m) := rfl

/-- Evaluation with alarms runs on the room that the machine has left. -/
private theorem Machine.run_evaluateAlarmed (m : Machine) (alarm : EvalM Unit) (v : Value)
    (e : ScopeId) :
    m.run (evaluateAlarmed alarm v e) =
      m.run (evaluateProbed (alarmUnless alarm) m.room v e) := by
  rw [evaluateAlarmed, run_bind, run_roomLeft]

/-- A call with alarms runs on the room that the machine has left. -/
private theorem Machine.run_applyAlarmed (m : Machine) (alarm : EvalM Unit) (callee args : Value)
    (e : ScopeId) :
    m.run (applyAlarmed alarm callee args e) = m.run (flanked (alarmUnless alarm m.room)
      (applyWith (evaluateProbed (alarmUnless alarm) m.room) callee args e)) := by
  rw [applyAlarmed, run_bind, run_roomLeft]

section Probed

open Invariant

variable {start : Machine} {d room n : Nat}

/-- No alarm is raised where the level and the room add up to the limit. -/
private theorem run_alarmUnless {m : Machine} (alarm : EvalM Unit) (hm : start.OnLevel d m)
    (hroom : d + room = start.config.maxDepth) : m.run (alarmUnless alarm room) = (.ok (), m) := by
  have hdepth : m.depth = d := hm.depth
  have hmax : m.config.maxDepth = start.config.maxDepth := by rw [hm.config]
  have hquiet : m.depth ≤ m.config.maxDepth ∧ m.room = room := by
    unfold Machine.room
    omega
  simp [alarmUnless, Machine.run_bind, hquiet]

/-- A step beside the same step with a look before and after it. -/
private theorem tracks_flanked {α : Type} {Q : Nat → α → Prop} {act act' : EvalM α}
    (alarm : EvalM Unit)
    (hroom : d + room = start.config.maxDepth)
    (h : (level start d).alone.Tracks n Q act act') :
    (level start d).alone.Tracks n Q act (flanked (alarmUnless alarm room) act') := by
  refine tracks_of_run_eq_and_kept fun m hn hm hc => ?_
  obtain ⟨heq, hkept⟩ := run_eq_and_kept_of_le h hn hm hc
  refine ⟨?_, hkept⟩
  -- The look after the step finds the machine on the level where the step began.
  rw [run_flanked (run_alarmUnless alarm hm hroom), heq]
  rw [heq]
  exact run_alarmUnless alarm hkept.holds hroom

/-- Evaluations beside evaluations that are looked at, where the level and the room add up to the
    limit. -/
theorem tracks_evaluateProbed (alarm : EvalM Unit) (hstart : start.depth ≤ d)
    (hroom : d + room = start.config.maxDepth) :
    (level start d).alone.TracksEvaluation (evaluateWithin room)
      (evaluateProbed (alarmUnless alarm) room) := by
  -- By induction on the room, over all levels: what the room loses the level gains.
  induction room generalizing d with
  | zero =>
    intro n v e _ _
    refine tracks_flanked alarm hroom (tracks_of_run_eq_and_kept fun m _ hm _ => ⟨rfl, ?_⟩)
    exact ⟨Nat.le_refl _, hm.emit nofun, closed_plain _, nofun, fun _ _ => trivial⟩
  | succ room ih =>
    intro n v e hv he
    -- One level deeper there is one level of room less.
    have hroom' : d + 1 + room = start.config.maxDepth := by omega
    have hstart' : start.depth ≤ d + 1 := by omega
    have L := (lawfulSteps_level hstart' (Nat.le.intro hroom')).alone
    exact tracks_flanked alarm hroom (tracks_nested_level
      (tracks_flanked alarm hroom' (tracks_evaluateStep L (ih hstart' hroom') hv he)))

end Probed

/-! ## Evaluations, calls and programs -/

/-- A step of a session. -/
inductive SessionStep where
  /-- A program. -/
  | program (source : String)
  /-- A program in a file. -/
  | file (source : String)
  /-- A line, which holds one expression. -/
  | line (text : String)
  /-- A call of the value of a program, with the argument forms in a text. -/
  | call (callee args : String)
  /-- An expression, in the scope that is the value of a program. -/
  | inside (scope text : String)

/-- Runs a step of a session. -/
def SessionStep.act : SessionStep → EvalM Unit
  | program source => do let _ ← execute source; return
  | file source => CommandLine.runSource source
  | line text => do let _ ← executeLine text; return
  | call callee args => do let _ ← executeCall callee args; return
  | inside scope text => do let _ ← executeIn scope text; return

/-- The machine after steps of a session, each of which may fail. -/
def Machine.afterSteps (m : Machine) (steps : List SessionStep) : Machine :=
  steps.foldl (fun m step => (m.run step.act).2) m

section Runs

open Invariant

variable {start : Machine} {n : Nat}

/-- The level and the room that is left add up to the limit. -/
private theorem Machine.OnLevel.add_room {m : Machine} (hm : start.OnLevel start.depth m)
    (hstart : start.depth ≤ start.config.maxDepth) :
    start.depth + m.room = start.config.maxDepth := by
  have hdepth : m.depth = start.depth := hm.depth
  have hmax : m.config.maxDepth = start.config.maxDepth := by rw [hm.config]
  unfold Machine.room
  omega

/-- Evaluation beside evaluation with alarms. -/
theorem tracks_evaluateAlarmed (hstart : start.depth ≤ start.config.maxDepth)
    (alarm : EvalM Unit) :
    (level start start.depth).alone.TracksEvaluation evaluate (evaluateAlarmed alarm) := by
  intro n v e hv he
  refine tracks_of_run_eq_and_kept fun m hn hm hc => ?_
  have hroom := hm.add_room hstart
  rw [Machine.run_evaluate, Machine.run_evaluateAlarmed]
  exact run_eq_and_kept_of_le (tracks_evaluateProbed alarm (Nat.le_refl _) hroom hv he) hn hm hc

/-- A call beside a call with alarms. -/
theorem tracks_applyAlarmed (hstart : start.depth ≤ start.config.maxDepth) (alarm : EvalM Unit)
    (callee args : Value) (e : ScopeId) :
    (level start start.depth).alone.Tracks n (level start start.depth).alone.value
      (apply callee args e) (applyAlarmed alarm callee args e) := by
  refine tracks_of_run_eq_and_kept fun m hn hm hc => ?_
  have hroom := hm.add_room hstart
  have L := (lawfulSteps_level (Nat.le_refl _) hstart).alone
  have happly := tracks_applyWith L (tracks_evaluateProbed alarm (Nat.le_refl _) hroom)
    (value_plain n callee) (value_plain n args) (e := e) trivial
  rw [Machine.run_apply, Machine.run_applyAlarmed]
  exact run_eq_and_kept_of_le (tracks_flanked alarm hroom happly) hn hm hc

/-- A step that tracks another one tracks itself. -/
theorem Invariant.tracks_self {I : Invariant} {α : Type} {Q : Nat → α → Prop}
    {act act' : EvalM α} (h : I.alone.Tracks n Q act act') : I.alone.Tracks n Q act act :=
  tracks_of_run_eq_and_kept fun _ hn hm hc => ⟨rfl, (run_eq_and_kept_of_le h hn hm hc).2⟩

/-- A step that depends on the machine that it starts on. -/
theorem Invariant.tracks_get_bind {I : Invariant} {α : Type} {Q : Nat → α → Prop}
    {f : Machine → EvalM α} (h : ∀ m, I.alone.Tracks n Q (f m) (f m)) :
    I.alone.Tracks n Q (get >>= f) (get >>= f) :=
  tracks_of_run_eq_and_kept fun m hn hm hc =>
    ⟨rfl, (run_eq_and_kept_of_le (h m) hn hm hc).2⟩

section Programs

variable (hstart : start.depth ≤ start.config.maxDepth)

include hstart

/-- Evaluation keeps a run on its level. -/
private theorem tracks_evaluate_level :
    (level start start.depth).alone.TracksEvaluation evaluate evaluate :=
  fun _ _ _ hv he => tracks_self (tracks_evaluateAlarmed hstart (return) hv he)

/-- Loading a datum keeps a run on its level. -/
private theorem tracks_load_level (datum : Datum) :
    (level start start.depth).alone.Tracks n (level start start.depth).alone.value
      (allocate (·.load datum)) (allocate (·.load datum)) :=
  .load (lawfulSteps_level (Nat.le_refl _) hstart).alone admitsData_plain datum

/-- Programs keep a run on its level. -/
private theorem tracks_execute_level (source : String) :
    (level start start.depth).alone.Tracks n (level start start.depth).alone.value
      (execute source) (execute source) := by
  have L := (lawfulSteps_level (Nat.le_refl _) hstart).alone
  refine tracks_executeUpTo L (fun _ => trivial) (fun k datum => ?_) _ _ L.part_nil
  exact tracks_evaluateDatum L (tracks_evaluate_level hstart) (tracks_load_level hstart datum)
    fun _ _ _ => trivial

/-- Programs in files keep a run on its level, whatever expression fails. -/
private theorem tracks_runUpTo_level (scope : ScopeId) (fuel : Nat) (p : Parser) :
    (level start start.depth).alone.Tracks n (fun _ _ => True)
      (CommandLine.runUpTo scope fuel p) (CommandLine.runUpTo scope fuel p) := by
  -- By induction on the rounds; each reads an expression, evaluates it and drops the value.
  induction fuel generalizing n p with
  | zero => exact .pure fun _ _ => trivial
  | succ fuel ih =>
    unfold CommandLine.runUpTo
    split
    · exact .throw trivial
    · exact .pure fun _ _ => trivial
    · split
      · exact .throw trivial
      · refine (tracks_load_level hstart _).bind fun k _ v hv => ?_
        exact (tracks_evaluate_level hstart hv trivial).bind fun j _ _ _ => ih _

/-- Reading an expression keeps a run on its level. -/
private theorem tracks_readSingle_level (text : String) :
    (level start start.depth).alone.Tracks n (level start start.depth).alone.value
      (readSingle text) (readSingle text) := by
  unfold readSingle
  cases parseSingle text with
  | error fault => exact .throw trivial
  | ok datum => exact tracks_load_level hstart datum

/-- Every step of a session keeps a run on its level. -/
private theorem SessionStep.tracks_act (step : SessionStep) :
    (level start start.depth).alone.Tracks n (fun _ _ => True) step.act step.act := by
  have hdone : ∀ k, (level start start.depth).alone.Tracks k (fun _ _ => True)
      (return : EvalM Unit) (return) := fun k => .pure fun _ _ => trivial
  -- A step reads and evaluates in one order or another, and each part keeps the level.
  cases step with
  | program source => exact (tracks_execute_level hstart source).bind fun k _ _ _ => hdone k
  | file source => exact tracks_get_bind fun m => tracks_runUpTo_level hstart m.globals _ _
  | line text =>
    have hline : (level start start.depth).alone.Tracks n (level start start.depth).alone.value
        (executeLine text) (executeLine text) :=
      (tracks_readSingle_level hstart text).bind fun k _ v hv =>
        tracks_get_bind fun m => tracks_evaluate_level hstart hv trivial
    exact hline.bind fun k _ _ _ => hdone k
  | call callee args =>
    have hcall : (level start start.depth).alone.Tracks n (level start start.depth).alone.value
        (executeCall callee args) (executeCall callee args) :=
      (tracks_execute_level hstart callee).bind fun k _ f _ =>
        (tracks_readSingle_level hstart args).bind fun j _ forms _ =>
          tracks_get_bind fun m =>
            tracks_self (tracks_applyAlarmed hstart (return) f forms m.globals)
    exact hcall.bind fun k _ _ _ => hdone k
  | inside scope text =>
    have hinside : (level start start.depth).alone.Tracks n (level start start.depth).alone.value
        (executeIn scope text) (executeIn scope text) := by
      refine (tracks_readSingle_level hstart text).bind fun k _ v hv => ?_
      refine (tracks_execute_level hstart scope).bind fun j hkj w _ => ?_
      cases w with
      | environment e => exact tracks_evaluate_level hstart (value_plain j v) trivial
      | _ => exact .throw trivial
    exact hinside.bind fun k _ _ _ => hdone k

end Programs

end Runs

namespace Machine

/-- What a step leaves behind that keeps its run on the level that it starts on. -/
theorem onLevel_of_tracks {α : Type} {Q : Nat → α → Prop} {act act' : EvalM α} {m : Machine}
    (h : (Invariant.level m m.depth).alone.Tracks m.extent Q act act') :
    m.run act' = m.run act ∧ m.OnLevel m.depth (m.run act).2 := by
  obtain ⟨heq, hkept⟩ := Invariant.run_eq_and_kept h (.refl m) (Invariant.closed_plain _)
  exact ⟨heq, hkept.holds⟩

/-- What was logged in a run and in the run after it was logged within the limit. -/
private theorem OnLevel.trans {m m' m'' : Machine} (h : m.OnLevel m.depth m')
    (h' : m'.OnLevel m'.depth m'') : m.OnLevel m.depth m'' := by
  obtain ⟨new, hnew, hcalls⟩ := h.calls
  obtain ⟨new', hnew', hcalls'⟩ := h'.calls
  refine ⟨h'.depth.trans h.depth, h'.config.trans h.config, h'.globals.trans h.globals,
    new ++ new', by rw [hnew', hnew, List.append_assoc], fun params k hmem => ?_⟩
  -- A call was logged in the first run or in the second.
  rcases List.mem_append.1 hmem with hmem | hmem
  · exact hcalls params k hmem
  · have hlevel := hcalls' params k hmem
    rw [h.depth, h.config] at hlevel
    exact hlevel

/-- Steps of a session, failing ones included, leave the machine on the level that it was on. -/
theorem onLevel_afterSteps {m : Machine} (h : m.depth ≤ m.config.maxDepth)
    (steps : List SessionStep) : m.OnLevel m.depth (m.afterSteps steps) := by
  -- The machine that a step leaves behind is on the level on which the next one starts.
  induction steps generalizing m with
  | nil => exact .refl m
  | cons step steps ih =>
    have hstep := (onLevel_of_tracks (SessionStep.tracks_act h step)).2
    have hle : (m.run step.act).2.depth ≤ (m.run step.act).2.config.maxDepth := by
      rw [hstep.depth, hstep.config]
      exact h
    exact hstep.trans (ih hle)

end Machine

/-- From every machine whose counter is within the limit, evaluations and calls leave the counter,
    the settings and the global scope as they were, whatever their outcome, and log calls only at
    levels up to the limit. At every moment on the way the counter is within the limit and leaves
    the room that the evaluator counts on: raising an alarm at any other moment changes nothing.
    So after the steps of a session the counter is zero, and the next one has all the room there
    is. -/
theorem evaluation_restores_counter :
    (∀ m : Machine, m.depth ≤ m.config.maxDepth →
      (∀ v scope, m.OnLevel m.depth (m.run (evaluate v scope)).2 ∧
        ∀ alarm, m.run (evaluateAlarmed alarm v scope) = m.run (evaluate v scope)) ∧
      ∀ callee args scope, m.OnLevel m.depth (m.run (apply callee args scope)).2 ∧
        ∀ alarm, m.run (applyAlarmed alarm callee args scope) =
          m.run (apply callee args scope)) ∧
    ∀ registry config steps,
      let m := (Machine.start registry config).afterSteps steps
      m.depth = 0 ∧ m.config = config ∧ m.room = config.maxDepth ∧
        m.globals = (Machine.start registry config).globals ∧
        ∀ params d, .call params d ∈ m.events.toList → d ≤ config.maxDepth := by
  refine ⟨fun m hm => ⟨fun v scope => ?_, fun callee args scope => ?_⟩, ?_⟩
  · have hrun := fun alarm => Machine.onLevel_of_tracks
      (tracks_evaluateAlarmed hm alarm (Invariant.value_plain m.extent v) (e := scope) trivial)
    exact ⟨(hrun (return)).2, fun alarm => (hrun alarm).1⟩
  · have hrun := fun alarm => Machine.onLevel_of_tracks
      (tracks_applyAlarmed hm alarm callee args scope)
    exact ⟨(hrun (return)).2, fun alarm => (hrun alarm).1⟩
  · intro registry config steps m
    have hlevel : (Machine.start registry config).OnLevel 0 m :=
      Machine.onLevel_afterSteps (Nat.zero_le _) steps
    have hdepth : m.depth = 0 := hlevel.depth
    have hconfig : m.config = config := hlevel.config
    obtain ⟨new, hnew, hcalls⟩ := hlevel.calls
    refine ⟨hdepth, hconfig, ?_, hlevel.globals, fun params d hmem => ?_⟩
    · rw [Machine.room, hdepth, hconfig, Nat.sub_zero]
    · rw [hnew] at hmem
      rcases List.mem_append.1 hmem with hmem | hmem
      -- What is logged at the start is no call.
      · exact absurd (List.mem_singleton.1 hmem) (by simp)
      · exact (hcalls params d hmem).2

/-- A function that calls itself without end meets the limit of four; the counter is put back to
    one, and calls are logged at the levels two and three. -/
theorem onLevel_loopingMachine :
    let m : Machine := { loopingMachine.withLimit 4 with depth := 1 }
    m.depth ≤ m.config.maxDepth ∧
      (m.run (evaluate (.pair 1 (.symbol "f") .nil) 0)).1 = .error (.recursionLimit 4) ∧
      (m.run (evaluate (.pair 1 (.symbol "f") .nil) 0)).2.events.toList =
        [.call "()" 2, .call "()" 3, .depthLimit 4] ∧
      m.OnLevel 1 (m.run (evaluate (.pair 1 (.symbol "f") .nil) 0)).2 :=
  ⟨by decide, rfl, rfl, ((evaluation_restores_counter.1 _ (by decide)).1 _ _).1⟩

end ScopeLisp
