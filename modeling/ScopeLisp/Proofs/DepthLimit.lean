import ScopeLisp.Proofs.Evaluation

/-!
# The limit on nesting only cuts runs short

A run under a limit `d` is compared with the run of the same steps under a limit `d'` that is not
smaller. The two are equal until the first one meets its limit. There it stops with an error that
no step catches, after one last entry in the log, while the second run goes on and only adds to
what was printed and logged so far.

## Key results

- `tracks_evaluateWithin_truncation`: evaluations under the two limits
- `truncates_of_limit_le`: evaluations and programs
-/

namespace ScopeLisp

open Correspondence

/-- The machine with another limit on nesting. -/
def Machine.withLimit (m : Machine) (limit : Nat) : Machine :=
  { m with config := { m.config with maxDepth := limit } }

/-- Since a machine was in the state given, events were logged and text was printed, and the limit
    on nesting was not met. -/
structure Machine.Extends (m : Machine) (start : Machine) (new : List Event) (printed : String) :
    Prop where
  events : m.events.toList = start.events.toList ++ new
  output : m.output = start.output ++ printed
  unmet : ∀ limit, .depthLimit limit ∉ new

/-- A run met the limit `d` and logged that last. Another one, from the same state, has printed and
    logged all that came before, and maybe more. -/
structure Machine.CutShort (m : Machine) (start : Machine) (d : Nat) (m' : Machine) : Prop where
  events : ∃ new more, m.events.toList = start.events.toList ++ new ++ [.depthLimit d] ∧
    m'.events.toList = start.events.toList ++ new ++ more ∧ ∀ limit, .depthLimit limit ∉ new
  output : ∃ printed more, m.output = start.output ++ printed ∧
    m'.output = start.output ++ printed ++ more

/-- Runs from one state under two limits; the first stops only where it meets its limit. -/
def Correspondence.truncation (start : Machine) (d d' : Nat) : Correspondence where
  machines m m' := m' = m.withLimit d' ∧ m.config.maxDepth = d ∧
    ∃ new printed, m.Extends start new printed
  stopped e m m' := e = .recursionLimit d ∧ m.CutShort start d m'
  error e := ∀ limit, e ≠ .recursionLimit limit
  scope _ _ := True
  part _ _ := True

namespace Machine.Extends

variable {m start : Machine} {new : List Event} {printed : String}

/-- Printing adds to what was printed since. -/
private theorem write (h : m.Extends start new printed) (text : String) :
    Extends { m with output := m.output ++ text } start new (printed ++ text) where
  events := h.events
  output := by
    show m.output ++ text = start.output ++ (printed ++ text)
    rw [h.output, String.append_assoc]
  unmet := h.unmet

/-- Logging anything but the limit adds to what was logged since. -/
private theorem emit (h : m.Extends start new printed) {event : Event}
    (hevent : ∀ limit, event ≠ .depthLimit limit) :
    Extends { m with events := m.events.push event } start (new ++ [event]) printed where
  events := by
    show (m.events.push event).toList = start.events.toList ++ (new ++ [event])
    rw [Array.toList_push, h.events, List.append_assoc]
  output := h.output
  unmet limit hmem := by
    rcases List.mem_append.1 hmem with hmem | hmem
    · exact h.unmet limit hmem
    · exact hevent limit (List.mem_singleton.1 hmem).symm

/-- The run meets its limit, and the other one is about to go on. -/
theorem cutShort (h : m.Extends start new printed) (d d' : Nat) :
    CutShort { m with events := m.events.push (.depthLimit d) } start d (m.withLimit d') where
  events := by
    refine ⟨new, [], ?_, ?_, h.unmet⟩
    · show (m.events.push (.depthLimit d)).toList = _
      rw [Array.toList_push, h.events]
    -- The other run has not logged anything since.
    · rw [List.append_nil]
      exact h.events
  output := ⟨printed, "", h.output, by rw [String.append_empty]; exact h.output⟩

end Machine.Extends

namespace Machine.CutShort

variable {m m' start : Machine} {d : Nat}

/-- The run that goes on may print more. -/
private theorem write (h : m.CutShort start d m') (text : String) :
    m.CutShort start d { m' with output := m'.output ++ text } := by
  obtain ⟨printed, more, hm, hm'⟩ := h.output
  refine ⟨h.events, printed, more ++ text, hm, ?_⟩
  show m'.output ++ text = _
  rw [hm', String.append_assoc]

/-- The run that goes on may log more. -/
private theorem emit (h : m.CutShort start d m') (event : Event) :
    m.CutShort start d { m' with events := m'.events.push event } := by
  obtain ⟨new, more, hm, hm', hunmet⟩ := h.events
  refine ⟨⟨new, more ++ [event], hm, ?_, hunmet⟩, h.output⟩
  show (m'.events.push event).toList = _
  rw [Array.toList_push, hm', List.append_assoc]

end Machine.CutShort

/-- Whether expansions are logged does not depend on the limit. -/
private theorem Machine.traced_withLimit (m : Machine) (limit : Nat) (params : List String)
    (args code : Value) :
    (m.withLimit limit).traced params args code = (m.traced params args code).withLimit limit := by
  unfold traced withLimit
  dsimp only
  split
  · rfl
  · rfl

namespace Correspondence

variable {start : Machine} {d d' : Nat}

/-- All single steps keep the two runs together, and let the second one go on alone. -/
private theorem lawful_truncation : (truncation start d d').Lawful where
  scope_mono _ h := h
  scope_of_succ h _ := h
  part_mono _ h := h
  part_nil := trivial
  part_bool := trivial
  part_string := trivial
  part_zero := trivial
  part_one := trivial
  part_add _ _ := trivial
  part_pair _ := trivial
  part_echo _ _ := trivial
  part_lambda := Iff.rfl
  part_environment h := h
  error := by
    intro e he limit heq
    rw [heq] at he
    exact he
  -- As long as the runs are together, their machines differ in the limit only.
  extent_eq h := h.1 ▸ rfl
  fresh_eq h := h.1 ▸ rfl
  globals_eq h := h.1 ▸ rfl
  parent_eq h _ := h.1 ▸ rfl
  bindings_eq h _ := h.1 ▸ rfl
  render_eq h _ _ := h.1 ▸ rfl
  part_globals _ := trivial
  scope_extent _ := trivial
  -- Changes of the store touch neither the logs nor the outputs.
  newIdentity := by
    intro m m' hm
    obtain ⟨rfl, hlimit, new, printed, h⟩ := hm
    exact ⟨rfl, hlimit, new, printed, h.events, h.output, h.unmet⟩
  newScope := by
    intro m m' p hm _
    obtain ⟨rfl, hlimit, new, printed, h⟩ := hm
    exact ⟨rfl, hlimit, new, printed, h.events, h.output, h.unmet⟩
  bind := by
    intro m m' e name v hm _ _
    obtain ⟨rfl, hlimit, new, printed, h⟩ := hm
    exact ⟨rfl, hlimit, new, printed, h.events, h.output, h.unmet⟩
  -- What is printed or logged is added on both sides.
  write := by
    intro m m' text hm
    obtain ⟨rfl, hlimit, new, printed, h⟩ := hm
    exact ⟨rfl, hlimit, _, _, h.write text⟩
  call := by
    intro m m' params hm
    obtain ⟨rfl, hlimit, new, printed, h⟩ := hm
    exact ⟨rfl, hlimit, _, _, h.emit nofun⟩
  trace := by
    intro m m' params args code hm _ _ _
    obtain ⟨rfl, hlimit, new, printed, h⟩ := hm
    rw [Machine.traced_withLimit]
    unfold Machine.traced
    split
    · exact ⟨rfl, hlimit, _, _, h.emit nofun⟩
    · exact ⟨rfl, hlimit, new, printed, h⟩
  scope_of_stopped _ := trivial
  part_of_stopped _ := trivial
  -- Once the first run has stopped, the second one only adds to its log and its output.
  stopped_store h := ⟨h.1, h.2.events, h.2.output⟩
  stopped_write h := ⟨h.1, h.2.write _⟩
  stopped_emit h := ⟨h.1, h.2.emit _⟩

/-- The steps between levels keep the two runs together, too. -/
private theorem nests_truncation : (truncation start d d').Nests where
  enter := by
    intro m m' hm
    obtain ⟨rfl, hlimit, new, printed, h⟩ := hm
    exact ⟨rfl, hlimit, new, printed, h.events, h.output, h.unmet⟩
  leave := by
    intro m m' hm
    obtain ⟨rfl, hlimit, new, printed, h⟩ := hm
    exact ⟨rfl, hlimit, new, printed, h.events, h.output, h.unmet⟩
  stopped _ _ h := ⟨h.1, h.2.events, h.2.output⟩

/-- A run that meets its limit is cut short, whatever the other run goes on with. -/
theorem tracks_refuseDepth {n : Nat} {Q : Nat → Value → Prop} {act' : EvalM Value}
    (halone : ∀ e m m', n ≤ m'.extent → (truncation start d d').stopped e m m' →
      (truncation start d d').Trails m'.extent Q e m (m'.run act')) :
    (truncation start d d').Tracks n Q refuseDepth act' := by
  refine ⟨?_, halone⟩
  intro m m' hn hm _
  obtain ⟨rfl, hlimit, new, printed, hext⟩ := hm
  -- The first run stops here; from the same state the other one goes on alone.
  rw [Machine.run_refuseDepth, hlimit]
  exact .stopped (halone _ _ (m.withLimit d') hn ⟨rfl, hext.cutShort d d'⟩)

/-- Evaluation under the smaller limit has `extra` levels of nesting less. -/
theorem tracks_evaluateWithin_truncation (room extra : Nat) :
    (truncation start d d').TracksEvaluation (evaluateWithin room)
      (evaluateWithin (room + extra)) := by
  have L : (truncation start d d').Lawful := lawful_truncation
  -- Without extra levels both evaluations refuse at the same point. This settles how the second
  -- evaluation goes on alone, which is what is needed where only the first one refuses.
  have hrefuse : (truncation start d d').TracksEvaluation (evaluateWithin 0) (evaluateWithin 0) :=
    fun n v e _ _ => tracks_refuseDepth fun err m m' _ hs =>
      ⟨Nat.le_refl _, L.stopped_emit hs, nofun⟩
  have hsame := tracks_evaluateWithin L nests_truncation hrefuse extra
  have hbound : (truncation start d d').TracksEvaluation (evaluateWithin 0)
      (evaluateWithin extra) :=
    fun n v e hv he => tracks_refuseDepth (hsame hv he).alone
  exact tracks_evaluateWithin L nests_truncation hbound room

/-- Evaluations under the two limits. -/
private theorem tracks_evaluate_truncation (hle : d ≤ d') :
    (truncation start d d').TracksEvaluation evaluate evaluate := by
  refine tracks_evaluate (fun room => tracks_evaluateWithin_truncation room 0) ?_
  intro m m' hm
  obtain ⟨rfl, hlimit, -⟩ := hm
  -- Both runs are at the same depth, so the second one has at least as much room.
  have hroom : (m.withLimit d').room = m.room + ((m.withLimit d').room - m.room) := by
    simp only [Machine.room, Machine.withLimit, hlimit]
    omega
  rw [hroom]
  exact tracks_evaluateWithin_truncation m.room _

/-- Programs under the two limits. -/
private theorem tracks_execute_truncation (hle : d ≤ d') {n : Nat} (source : String) :
    (truncation start d d').Tracks n (truncation start d d').value (execute source)
      (execute source) := by
  have L : (truncation start d d').Lawful := lawful_truncation
  -- Each expression of a program is evaluated in a run of its own under the limit.
  have hdatum : ∀ k datum, (truncation start d d').Tracks k (truncation start d d').value
      (evaluateDatum datum) (evaluateDatum datum) :=
    fun k datum => tracks_evaluateDatum L (tracks_evaluate_truncation hle)
      (.load L ⟨trivial, trivial, trivial, trivial⟩ datum) fun _ _ _ => trivial
  exact tracks_executeUpTo L (fun _ _ => nofun) hdatum _ _ trivial

end Correspondence

/-! ## Runs under two limits -/

/-- What the outcomes of two runs from one state have to do with each other, the first of them
    under the limit `d`. If it did not meet the limit, both end alike. If it did, it was cut
    short. -/
structure Truncates (start : Machine) (d : Nat) (r r' : Except Error Value × Machine) : Prop where
  unmet : (∀ limit, r.1 ≠ .error (.recursionLimit limit)) →
    r'.1 = r.1 ∧ r'.2.store = r.2.store ∧ r'.2.output = r.2.output ∧ r'.2.events = r.2.events ∧
      ∃ new, r.2.events.toList = start.events.toList ++ new ∧ ∀ limit, .depthLimit limit ∉ new
  met : ∀ limit, r.1 = .error (.recursionLimit limit) → limit = d ∧ r.2.CutShort start d r'.2

/-- What tracking under two limits means for the outcomes of the two runs. -/
private theorem Correspondence.Tracks.truncates {m : Machine} {d d' : Nat} {act : EvalM Value}
    {Q : Nat → Value → Prop} (h : (truncation m d d').Tracks m.extent Q act act) :
    Truncates m d ((m.withLimit d).run act) ((m.withLimit d').run act) := by
  have hstart : (truncation m d d').machines (m.withLimit d) (m.withLimit d') :=
    ⟨rfl, rfl, [], "", (List.append_nil _).symm, String.append_empty.symm, nofun⟩
  have hclosed : (truncation m d d').Closed m.store := ⟨fun _ _ => trivial, fun _ _ =>
    Value.all_of_forall (fun _ => trivial) _⟩
  have hout := h.together (m.withLimit d) (m.withLimit d') (Nat.le_refl _) hstart hclosed
  -- The three ways to end: with the same value, with the same error, or cut short.
  generalize (m.withLimit d).run act = r, (m.withLimit d').run act = r' at hout ⊢
  cases hout with
  | ok _ hm _ _ =>
    obtain ⟨rfl, -, new, printed, hext⟩ := hm
    exact ⟨fun _ => ⟨rfl, rfl, rfl, rfl, new, hext.events, hext.unmet⟩, nofun⟩
  | error _ hm _ he =>
    obtain ⟨rfl, -, new, printed, hext⟩ := hm
    exact ⟨fun _ => ⟨rfl, rfl, rfl, rfl, new, hext.events, hext.unmet⟩,
      fun limit heq => absurd (Except.error.inj heq) (he limit)⟩
  | stopped htrail =>
    obtain ⟨rfl, hcut⟩ := htrail.stopped
    exact ⟨fun hne => absurd rfl (hne d), fun limit heq =>
      ⟨(Error.recursionLimit.inj (Except.error.inj heq)).symm, hcut⟩⟩

/-- A larger limit on nesting changes nothing in evaluations and programs that do not meet the
    smaller one. Those that do are cut short under the smaller one, with a single entry about the
    limit, the last one, in the log. -/
theorem truncates_of_limit_le (m : Machine) {d d' : Nat} (hle : d ≤ d') :
    (∀ v env, Truncates m d ((m.withLimit d).run (evaluate v env))
      ((m.withLimit d').run (evaluate v env))) ∧
    ∀ source, Truncates m d ((m.withLimit d).run (execute source))
      ((m.withLimit d').run (execute source)) := by
  constructor
  · intro v env
    have hv : (truncation m d d').value m.extent v := Value.all_of_forall (fun _ => trivial) v
    exact (tracks_evaluate_truncation hle hv trivial).truncates
  · intro source
    exact (tracks_execute_truncation hle source).truncates

/-- A machine whose global scope binds `f`, a function that calls itself and nothing else. -/
def loopingMachine : Machine where
  store :=
    { scopes := #[⟨none, ⟨[("f", .lambda .function 0 [] (.pair 1 (.symbol "f") .nil) 0)],
        by simp⟩⟩]
      fresh := 2 }
  globals := 0
  config := {}
  depth := 0
  output := ""
  events := #[]

/-- A call of `f` meets every limit, and is cut short under the smaller of two. -/
theorem cutShort_loopingMachine :
    2 ≤ 3 ∧
      ((loopingMachine.withLimit 2).run (evaluate (.pair 1 (.symbol "f") .nil) 0)).1 =
        .error (.recursionLimit 2) ∧
      ((loopingMachine.withLimit 2).run (evaluate (.pair 1 (.symbol "f") .nil) 0)).2.CutShort
        loopingMachine 2
        ((loopingMachine.withLimit 3).run (evaluate (.pair 1 (.symbol "f") .nil) 0)).2 :=
  ⟨by decide, rfl, (((truncates_of_limit_le loopingMachine (by decide)).1 _ _).met 2 rfl).2⟩

end ScopeLisp
