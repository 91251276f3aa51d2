import ScopeLisp.Evaluation.Program
import ScopeLisp.Proofs.Correspondence

/-!
# Evaluation keeps runs in correspondence

Two evaluations of code that track each other on all code and scopes that a correspondence admits
still do so after one more level: through every builtin, every kind of call, and the evaluation of
arguments. This is the one walk over the evaluator; what it preserves is decided by the
correspondence.

## Key results

- `Builtin.tracks_run`: running a builtin
- `tracks_applyWith`: applying a value to argument forms
- `tracks_evaluateStep`: one level of evaluation
- `tracks_evaluateWithin`: evaluation with a bound on nesting
- `tracks_evaluate_of_sharesLimit`: evaluation under the limit of the machine
- `tracks_executeUpTo`: programs
-/

namespace ScopeLisp

open Correspondence

/-! ## Logging -/

/-- Steps that run alike on every machine are equal. -/
theorem EvalM.ext_run {α : Type} {act act' : EvalM α}
    (h : ∀ m : Machine, m.run act = m.run act') : act = act' :=
  funext h

/-- Logs an expansion, if expansions are logged. -/
def EvalM.logExpansion (params : List String) (args code : Value) : EvalM Unit :=
  modify (·.traced params args code)

/-- A call of a function, as a sequence of steps that are each tracked. -/
theorem applyFunction_eq (evaluate : Evaluate) (params : List String) (body : Value)
    (captured : ScopeId) (args : Value) (scope : ScopeId) :
    applyFunction evaluate params body captured args scope = (do
      EvalM.demand ((Arity.exactly params.length).check (Value.paramList params) args.length)
      (do EvalM.emit (.call (Value.paramList params) (← get).depth))
      let frame ← enterFrame (evaluate · scope) captured params args
      evaluate body frame) := by
  unfold applyFunction
  simp only [bind_assoc]

/-- A call of a code-computing form, with the logging of the expansion as one step. -/
theorem applyExpander_eq (evaluate : Evaluate) (params : List String) (body : Value)
    (captured : ScopeId) (args : Value) (scope : ScopeId) :
    applyExpander evaluate params body captured args scope = (do
      EvalM.demand ((Arity.exactly params.length).check (Value.paramList params) args.length)
      let frame ← enterFrame pure captured params args
      let code ← evaluate body frame
      EvalM.logExpansion params args code
      evaluate code scope) := by
  unfold applyExpander
  -- Only the way in which the expansion is logged is written differently.
  refine bind_congr fun _ => bind_congr fun frame => bind_congr fun code => ?_
  refine EvalM.ext_run fun m => ?_
  rw [Machine.run_bind, Machine.run_bind, Machine.run_get]
  have hlog : m.run (EvalM.logExpansion params args code) = (.ok (), m.traced params args code) :=
    rfl
  rw [hlog]
  dsimp only
  cases htrace : m.config.traceExpansions with
  | false => simp [Machine.traced, htrace]
  | true => simp [Machine.traced, htrace, Machine.run_bind]

/-- Logging an expansion. -/
theorem Correspondence.Tracks.logExpansion {C : Correspondence} {n : Nat} (L : C.Lawful)
    {params : List String} {args code : Value} (ha : C.value n args) (hc : C.value n code) :
    C.Tracks n (fun _ _ => True) (EvalM.logExpansion params args code)
      (EvalM.logExpansion params args code) := by
  refine .change (fun _ => rfl) ?_ ?_ ?_
  · intro m
    unfold Machine.traced
    split <;> rfl
  · intro m m' hn hm hclosed
    exact L.trace hm hclosed (L.value_mono ha hn) (L.value_mono hc hn)
  -- The second run may log the expansion alone, if expansions are logged.
  · intro e m m' hs
    unfold Machine.traced
    split
    · exact L.stopped_emit hs
    · exact hs

/-! ## Evaluation of several forms -/

/-- Two evaluations track each other on all code and scopes that the correspondence admits. -/
def Correspondence.TracksEvaluation (C : Correspondence) (evaluate evaluate' : Evaluate) : Prop :=
  ∀ ⦃n : Nat⦄ ⦃v : Value⦄ ⦃e : ScopeId⦄, C.value n v → C.scope n e →
    C.Tracks n C.value (evaluate v e) (evaluate' v e)

section Walk

variable {C : Correspondence} {evaluate evaluate' : Evaluate} {n : Nat} {e : ScopeId}

/-- A result that does not depend on the machine, and what is done with it. -/
theorem tracks_demand_bind {α β : Type} (L : C.Lawful) {r : Except Error α} {f f' : α → EvalM β}
    {Q : Nat → β → Prop} (hr : ErrorIn Error.Ordinary r)
    (h : ∀ a, r = .ok a → C.Tracks n Q (f a) (f' a)) :
    C.Tracks n Q (EvalM.demand r >>= f) (EvalM.demand r >>= f') := by
  cases r with
  | ok a => exact h a rfl
  | error e => exact .throw (L.error (hr e rfl))

/-- Evaluating forms in turn. -/
theorem tracks_mapM (L : C.Lawful) (h : C.TracksEvaluation evaluate evaluate') {vs : List Value}
    (hvs : ∀ v ∈ vs, C.value n v) (he : C.scope n e) :
    C.Tracks n (fun k ws => ∀ w ∈ ws, C.value k w) (vs.mapM (evaluate · e))
      (vs.mapM (evaluate' · e)) := by
  induction vs generalizing n with
  | nil => exact .pure fun _ _ => nofun
  | cons v vs ih =>
    rw [List.mapM_cons, List.mapM_cons]
    -- Evaluating one argument may add scopes; the other forms stay admitted.
    refine (h (hvs v List.mem_cons_self) he).bind fun k hnk w hw => ?_
    have hrest := ih (fun u hu => L.value_mono (hvs u (List.mem_cons_of_mem _ hu)) hnk)
      (L.scope_mono hnk he)
    refine hrest.bind fun j hkj ws hws => .pure fun i hji u hu => ?_
    rcases List.mem_cons.1 hu with rfl | hu
    · exact L.value_mono hw (Nat.le_trans hkj hji)
    · exact L.value_mono (hws u hu) hji

/-- Evaluating arguments into a list. -/
private theorem tracks_evaluateArgs (L : C.Lawful) (h : C.TracksEvaluation evaluate evaluate')
    {args : Value} (ha : C.value n args) (he : C.scope n e) :
    C.Tracks n C.value (evaluateArgs evaluate args e) (evaluateArgs evaluate' args e) :=
  (tracks_mapM L h (fun _ hv => ha.of_mem_items hv) he).bind fun _ _ _ hws =>
    (Tracks.newList L hws).imp fun _ _ _ hv => hv.1

/-! ## Frames -/

/-- Binding parameters in a frame. -/
private theorem tracks_bindParams (L : C.Lawful) {valueOf valueOf' : Value → EvalM Value}
    {frame : ScopeId} (pairs : List (String × Value))
    (h : ∀ k, n ≤ k → ∀ v, C.value k v → C.Tracks k C.value (valueOf v) (valueOf' v))
    (hf : C.scope n frame) (hpairs : ∀ pair ∈ pairs, C.value n pair.2) :
    C.Tracks n (fun _ _ => True) (bindParams valueOf frame pairs)
      (bindParams valueOf' frame pairs) := by
  induction pairs generalizing n with
  | nil => exact .pure fun _ _ => trivial
  | cons pair pairs ih =>
    refine (h n (Nat.le_refl _) pair.2 (hpairs pair List.mem_cons_self)).bind
      fun k hnk v hv => ?_
    -- Parameters are defined one by one, each before the next argument is evaluated.
    refine (Tracks.define L (L.scope_mono hnk hf) hv).bind fun j hkj _ _ => ?_
    have hnj := Nat.le_trans hnk hkj
    exact ih (fun i hji => h i (Nat.le_trans hnj hji)) (L.scope_mono hnj hf)
      fun p hp => L.value_mono (hpairs p (List.mem_cons_of_mem _ hp)) hnj

/-- Opening a frame and binding the parameters in it. -/
theorem tracks_enterFrame (L : C.Lawful) {valueOf valueOf' : Value → EvalM Value}
    {captured : ScopeId} (params : List String) {args : Value}
    (h : ∀ k, n ≤ k → ∀ v, C.value k v → C.Tracks k C.value (valueOf v) (valueOf' v))
    (hcap : C.scope n captured) (ha : C.value n args) :
    C.Tracks n C.scope (enterFrame valueOf captured params args)
      (enterFrame valueOf' captured params args) := by
  refine (Tracks.newScope L hcap).bind fun k hnk frame hframe => ?_
  have hbind := tracks_bindParams L (params.zip args.items)
    (fun j hkj => h j (Nat.le_trans hnk hkj)) hframe
    fun pair hpair => L.value_mono (ha.of_mem_items (List.of_mem_zip hpair).2) hnk
  exact hbind.bind fun j hkj _ _ => .pure fun i hji => L.scope_mono (Nat.le_trans hkj hji) hframe

/-! ## Calls of lambdas -/

/-- Calling a function. -/
private theorem tracks_applyFunction (L : C.Lawful) (h : C.TracksEvaluation evaluate evaluate')
    {params : List String} {body args : Value} {captured : ScopeId} (hb : C.value n body)
    (hcap : C.scope n captured) (ha : C.value n args) (he : C.scope n e) :
    C.Tracks n C.value (applyFunction evaluate params body captured args e)
      (applyFunction evaluate' params body captured args e) := by
  rw [applyFunction_eq, applyFunction_eq]
  refine tracks_demand_bind L (Arity.errorIn_check _ _ _) fun _ _ => ?_
  refine (Tracks.call L _).bind fun k hnk _ _ => ?_
  -- The arguments are evaluated in the scope of the caller, the body in the new frame.
  have hframe := tracks_enterFrame L params
    (fun j hkj v hv => h hv (L.scope_mono (Nat.le_trans hnk hkj) he))
    (L.scope_mono hnk hcap) (L.value_mono ha hnk)
  exact hframe.bind fun j hkj frame hf => h (L.value_mono hb (Nat.le_trans hnk hkj)) hf

/-- Calling a code-computing form. -/
private theorem tracks_applyExpander (L : C.Lawful) (h : C.TracksEvaluation evaluate evaluate')
    {params : List String} {body args : Value} {captured : ScopeId} (hb : C.value n body)
    (hcap : C.scope n captured) (ha : C.value n args) (he : C.scope n e) :
    C.Tracks n C.value (applyExpander evaluate params body captured args e)
      (applyExpander evaluate' params body captured args e) := by
  rw [applyExpander_eq, applyExpander_eq]
  refine tracks_demand_bind L (Arity.errorIn_check _ _ _) fun _ _ => ?_
  -- The frame binds the argument forms as they are.
  have hframe := tracks_enterFrame L params
    (fun k hnk v hv => .pure fun j hkj => L.value_mono hv hkj) hcap ha
  refine hframe.bind fun k hnk frame hf => ?_
  refine (h (L.value_mono hb hnk) hf).bind fun j hkj code hcode => ?_
  have hnj := Nat.le_trans hnk hkj
  refine (Tracks.logExpansion L (L.value_mono ha hnj) hcode).bind fun i hji _ _ => ?_
  -- The code goes on in the scope of the caller.
  exact h (L.value_mono hcode hji) (L.scope_mono (Nat.le_trans hnj hji) he)

/-! ## Arguments of builtins -/

namespace Builtin

/-- A builtin of one argument. -/
private theorem tracks_unary (L : C.Lawful) {callee : String} {args : Value}
    {step step' : Value → EvalM Value} (ha : C.value n args)
    (h : ∀ v, C.value n v → C.Tracks n C.value (step v) (step' v)) :
    C.Tracks n C.value (unary callee args step) (unary callee args step') := by
  refine tracks_demand_bind L (Value.errorIn_expectArgs _ _ _) fun vs hvs => ?_
  exact h _ (ha.of_mem_items (Value.mem_items_of_expectArgs hvs _))

/-- A builtin of two arguments. -/
private theorem tracks_binary (L : C.Lawful) {callee : String} {args : Value}
    {step step' : Value → Value → EvalM Value} (ha : C.value n args)
    (h : ∀ v w, C.value n v → C.value n w → C.Tracks n C.value (step v w) (step' v w)) :
    C.Tracks n C.value (binary callee args step) (binary callee args step') := by
  refine tracks_demand_bind L (Value.errorIn_expectArgs _ _ _) fun vs hvs => ?_
  have hget := fun i => ha.of_mem_items (Value.mem_items_of_expectArgs hvs i)
  exact h _ _ (hget _) (hget _)

/-- A builtin of three arguments. -/
private theorem tracks_ternary (L : C.Lawful) {callee : String} {args : Value}
    {step step' : Value → Value → Value → EvalM Value} (ha : C.value n args)
    (h : ∀ u v w, C.value n u → C.value n v → C.value n w →
      C.Tracks n C.value (step u v w) (step' u v w)) :
    C.Tracks n C.value (ternary callee args step) (ternary callee args step') := by
  refine tracks_demand_bind L (Value.errorIn_expectArgs _ _ _) fun vs hvs => ?_
  have hget := fun i => ha.of_mem_items (Value.mem_items_of_expectArgs hvs i)
  exact h _ _ _ (hget _) (hget _) (hget _)

/-! ## What each builtin does -/

/-- Branching on a condition. -/
private theorem tracks_runBranch (L : C.Lawful) (h : C.TracksEvaluation evaluate evaluate')
    {condition yes no : Value} (hcond : C.value n condition) (hyes : C.value n yes)
    (hno : C.value n no) (he : C.scope n e) :
    C.Tracks n C.value (runBranch evaluate condition yes no e)
      (runBranch evaluate' condition yes no e) := by
  refine (h hcond he).bind fun k hnk v _ => ?_
  have hek := L.scope_mono hnk he
  -- Only a boolean decides; any other condition is a type error in both runs.
  cases v with
  | bool b =>
    cases b with
    | true => exact h (L.value_mono hyes hnk) hek
    | false => exact h (L.value_mono hno hnk) hek
  | _ => exact .throw (L.error trivial)

/-- Binding a name to the value of a form, by any of the three changes of a scope. -/
private theorem tracks_runBinding (L : C.Lawful) (h : C.TracksEvaluation evaluate evaluate')
    {change : Store → String → Value → Except Error Store} {symbol form : Value}
    (hchange : ∀ k, n ≤ k → ∀ name v, C.value k v →
      C.Tracks k (fun _ _ => True) (EvalM.update (change · name v))
        (EvalM.update (change · name v)))
    (hform : C.value n form) (he : C.scope n e) :
    C.Tracks n C.value (runBinding evaluate change symbol form e)
      (runBinding evaluate' change symbol form e) := by
  refine tracks_demand_bind L (Value.errorIn_asSymbol _).ordinary fun name _ => ?_
  refine (h hform he).bind fun k hnk v hv => ?_
  exact (hchange k hnk name v hv).bind fun _ _ _ _ => .pure fun _ _ => L.part_nil

/-- Making a lambda. -/
private theorem tracks_runLambda (L : C.Lawful) {kind : LambdaKind} {params body : Value}
    (hbody : C.value n body) (he : C.scope n e) :
    C.Tracks n C.value (runLambda kind params body e) (runLambda kind params body e) :=
  tracks_demand_bind L (errorIn_parameterNames _).ordinary fun _ _ => .newLambda L hbody he

/-- Forms in order, after a form whose value is `last`. -/
theorem tracks_foldlM (L : C.Lawful) (h : C.TracksEvaluation evaluate evaluate')
    {forms : List Value} (hforms : ∀ v ∈ forms, C.value n v) (he : C.scope n e) {last : Value}
    (hlast : C.value n last) :
    C.Tracks n C.value (forms.foldlM (fun _ form => evaluate form e) last)
      (forms.foldlM (fun _ form => evaluate' form e) last) := by
  induction forms generalizing n last with
  | nil => exact .pure fun k hk => L.value_mono hlast hk
  | cons form forms ih =>
    rw [List.foldlM_cons, List.foldlM_cons]
    refine (h (hforms form List.mem_cons_self) he).bind fun k hnk v hv => ?_
    exact ih (fun w hw => L.value_mono (hforms w (List.mem_cons_of_mem _ hw)) hnk)
      (L.scope_mono hnk he) hv

/-- An addend is a number that may be held. -/
private theorem part_of_addend (L : C.Lawful) {v : Value} {x : Double} (hv : C.value n v)
    (h : addend v = .ok x) : C.part n (.number x) := by
  -- Only numbers and truth values are addends.
  cases v with
  | number y =>
    obtain rfl := Except.ok.inj h
    exact hv
  | bool b =>
    obtain rfl := Except.ok.inj h
    cases b with
    | true => exact L.part_one
    | false => exact L.part_zero
  | _ => exact nomatch h

/-- A sum of addends is a number that may be held. -/
private theorem part_of_foldlM_add (L : C.Lawful) {values : List Value} {acc x : Double}
    (hvalues : ∀ v ∈ values, C.value n v) (hacc : C.part n (.number acc))
    (h : values.foldlM (fun acc v => acc.add <$> addend v) acc = .ok x) :
    C.part n (.number x) := by
  -- The running sum is one that may be held, and so are all the values to come.
  induction values generalizing acc with
  | nil => exact Except.ok.inj h ▸ hacc
  | cons v values ih =>
    rw [List.foldlM_cons] at h
    cases hv : addend v with
    | error e =>
      rw [hv] at h
      exact nomatch h
    | ok y =>
      rw [hv] at h
      have hy := part_of_addend L (hvalues v List.mem_cons_self) hv
      exact ih (fun w hw => hvalues w (List.mem_cons_of_mem _ hw)) (L.part_add hacc hy) h

/-- The parts of a list may be held if the list may. -/
private theorem values_of_uncons {callee : String} {v : Value} {parts : Value × Value}
    (hv : C.value n v) (h : uncons callee v = .ok parts) :
    C.value n parts.1 ∧ C.value n parts.2 := by
  cases v with
  | pair id head tail => exact Except.ok.inj h ▸ hv.2
  | _ => exact nomatch h

/-- The body of a lambda may be held, and the scope that it captured may be touched. -/
private theorem parts_of_lambdaParts (L : C.Lawful) {v : Value} {parts : Value × ScopeId}
    (hv : C.value n v) (h : lambdaParts v = .ok parts) :
    C.value n parts.1 ∧ C.scope n parts.2 := by
  cases v with
  | lambda kind id params body scope =>
    obtain rfl := Except.ok.inj h
    exact ⟨hv.2, L.part_lambda.1 hv.1⟩
  | _ => exact nomatch h

/-- Putting a value in front of a list, or being refused because there is none. -/
private theorem tracks_runCons (L : C.Lawful) {head tail : Value} (hh : C.value n head)
    (ht : C.value n tail) : C.Tracks n C.value (runCons head tail) (runCons head tail) := by
  by_cases hlist : tail.isList = true
  · have hcons : runCons head tail = EvalM.allocate (·.newPair head tail) := by
      simp only [runCons, Store.cons, hlist, if_true, EvalM.allocate]
    -- A list in front of which a value can be put.
    rw [hcons]
    exact .newPair L hh ht hlist
  · have hcons : runCons head tail = throw (.type .list tail.tag) := by
      simp only [runCons, Store.cons, hlist]
      rfl
    rw [hcons]
    exact .throw (L.error trivial)

/-- A new string whose text is read off the store. -/
theorem tracks_newString_of (L : C.Lawful) {text : Store → String}
    (h : ∀ m m', n ≤ m.extent → C.machines m m' → C.Closed m.store →
      text m'.store = text m.store) :
    C.Tracks n C.value (EvalM.allocate fun s => s.newString (text s))
      (EvalM.allocate fun s => s.newString (text s)) := by
  have hread : C.Tracks n (fun _ _ => True) (EvalM.readStore text) (EvalM.readStore text) :=
    .readStore L h fun _ _ _ => trivial
  exact hread.bind fun k hnk t _ => .newString L t

/-- Printing values, which both runs render alike. -/
private theorem tracks_runPrint (L : C.Lawful) {values : List Value}
    (hvalues : ∀ v ∈ values, C.value n v) :
    C.Tracks n C.value (runPrint values) (runPrint values) := by
  have hread : C.Tracks n (fun _ _ => True) (EvalM.readStore fun s => values.map s.render)
      (EvalM.readStore fun s => values.map s.render) := by
    refine .readStore L (fun m m' hn hm hc => ?_) fun _ _ _ => trivial
    exact List.map_congr_left fun v hv => L.render_eq hm hc (L.value_mono (hvalues v hv) hn)
  refine hread.bind fun k _ texts _ => ?_
  exact (Tracks.write L _).bind fun _ _ _ _ => .pure fun _ _ => L.part_nil

/-- The global scope as a value. -/
private theorem tracks_globals (L : C.Lawful) :
    C.Tracks n C.value (do return .environment (← get).globals)
      (do return .environment (← get).globals) := by
  constructor
  -- Both runs have the same global scope; a run on its own may hold any.
  · intro m m' hn hm hc
    have hrun : m'.run (do return Value.environment (← get).globals) =
        (.ok (.environment m.globals), m') := by
      rw [← L.globals_eq hm]
      rfl
    rw [hrun]
    exact .ok (Nat.le_refl _) hm hc (L.part_globals hm)
  · intro err m m' hn hs
    exact ⟨Nat.le_refl _, hs, fun v _ => Value.all_of_forall (fun _ => L.part_of_stopped hs) v⟩

/-- Running a builtin that the runs may hold, on arguments that they may hold. -/
theorem tracks_run (L : C.Lawful) (h : C.TracksEvaluation evaluate evaluate') {b : Native}
    {args : Value} (hb : C.value n (.native b)) (ha : C.value n args) (he : C.scope n e) :
    C.Tracks n C.value (b.run evaluate args e) (b.run evaluate' args e) := by
  have hitems : ∀ v ∈ args.items, C.value n v := fun v hv => ha.of_mem_items hv
  -- Forms that bind a name evaluate another form first, so scopes may have been added.
  have hdefine : ∀ k, n ≤ k → ∀ name v, C.value k v → C.Tracks k (fun _ _ => True)
      (EvalM.update (·.define e name v)) (EvalM.update (·.define e name v)) :=
    fun k hk name v hv => .define L (L.scope_mono hk he) hv
  have hassign : ∀ k, n ≤ k → ∀ name v, C.value k v → C.Tracks k (fun _ _ => True)
      (EvalM.update (·.assign e name v)) (EvalM.update (·.assign e name v)) :=
    fun k hk name v hv => .assign L (L.scope_mono hk he) hv
  have hassignNonLocal : ∀ k, n ≤ k → ∀ name v, C.value k v → C.Tracks k (fun _ _ => True)
      (EvalM.update (·.assignNonLocal e name v)) (EvalM.update (·.assignNonLocal e name v)) :=
    fun k hk name v hv => .assignNonLocal L (L.scope_mono hk he) hv
  unfold run
  -- One case for each operation of the catalogue.
  cases hop : b.operation with
  | quote => exact tracks_unary L ha fun v hv => .pure fun k hk => L.value_mono hv hk
  | branch => exact tracks_ternary L ha fun _ _ _ hc hy hn => tracks_runBranch L h hc hy hn he
  | define => exact tracks_binary L ha fun _ _ _ hform => tracks_runBinding L h hdefine hform he
  | assign => exact tracks_binary L ha fun _ _ _ hform => tracks_runBinding L h hassign hform he
  | assignNonLocal =>
    exact tracks_binary L ha fun _ _ _ hform => tracks_runBinding L h hassignNonLocal hform he
  | makeFunction => exact tracks_binary L ha fun _ _ _ hbody => tracks_runLambda L hbody he
  | makeExpander => exact tracks_binary L ha fun _ _ _ hbody => tracks_runLambda L hbody he
  | sequence => exact tracks_foldlM L h hitems he L.part_nil
  | add =>
    refine tracks_demand_bind L (errorIn_sum _).ordinary fun x hx => .pure fun k hk => ?_
    exact L.part_mono hk (part_of_foldlM_add L hitems L.part_zero hx)
  | concat => exact tracks_demand_bind L (errorIn_joined _).ordinary fun text _ => .newString L text
  | cons => exact tracks_binary L ha fun _ _ hhead htail => tracks_runCons L hhead htail
  | list => exact .pure fun k hk => L.value_mono ha hk
  | head =>
    refine tracks_unary L ha fun v hv =>
      tracks_demand_bind L (errorIn_uncons _ _).ordinary fun parts hp => ?_
    exact .pure fun k hk => L.value_mono (values_of_uncons hv hp).1 hk
  | tail =>
    refine tracks_unary L ha fun v hv =>
      tracks_demand_bind L (errorIn_uncons _ _).ordinary fun parts hp => ?_
    exact .pure fun k hk => L.value_mono (values_of_uncons hv hp).2 hk
  | isNil => exact tracks_unary L ha fun _ _ => .pure fun _ _ => L.part_bool
  | eval => exact tracks_unary L ha fun _ hv => h hv he
  | body =>
    refine tracks_unary L ha fun v hv =>
      tracks_demand_bind L (errorIn_lambdaParts _).ordinary fun parts hp => ?_
    exact .pure fun k hk => L.value_mono (parts_of_lambdaParts L hv hp).1 hk
  | closure =>
    refine tracks_unary L ha fun v hv =>
      tracks_demand_bind L (errorIn_lambdaParts _).ordinary fun parts hp => ?_
    exact .pure fun k hk =>
      L.part_environment (L.scope_mono hk (parts_of_lambdaParts L hv hp).2)
  | isSame => exact tracks_binary L ha fun _ _ _ _ => .pure fun _ _ => L.part_bool
  | typeOf => exact tracks_unary L ha fun _ _ => .newString L _
  | print => exact tracks_runPrint L hitems
  | display =>
    refine tracks_unary L ha fun v hv => tracks_newString_of L fun m m' hn hm hc => ?_
    exact L.display_eq hm hc (L.value_mono hv hn)
  | render =>
    refine tracks_unary L ha fun v hv => tracks_newString_of L fun m m' hn hm hc => ?_
    exact L.render_eq hm hc (L.value_mono hv hn)
  | currentScope => exact .pure fun k hk => L.part_environment (L.scope_mono hk he)
  | globalScope => exact tracks_globals L
  | echo => exact tracks_runCons L (L.part_echo hb hop) ha

end Builtin

/-! ## One level of evaluation -/

/-- Applying a value to argument forms. -/
theorem tracks_applyWith (L : C.Lawful) (h : C.TracksEvaluation evaluate evaluate')
    {callee args : Value} (hcallee : C.value n callee) (ha : C.value n args) (he : C.scope n e) :
    C.Tracks n C.value (applyWith evaluate callee args e) (applyWith evaluate' callee args e) := by
  cases callee with
  | native b =>
    -- A function has its arguments evaluated first, a special form takes them as they are.
    cases hkind : b.kind with
    | function =>
      simp only [applyWith, hkind]
      refine (tracks_evaluateArgs L h ha he).bind fun k hnk values hvalues => ?_
      refine tracks_demand_bind L (Arity.errorIn_check _ _ _) fun _ _ => ?_
      exact Builtin.tracks_run L h (L.value_mono hcallee hnk) hvalues (L.scope_mono hnk he)
    | specialForm =>
      simp only [applyWith, hkind]
      refine tracks_demand_bind L (Arity.errorIn_check _ _ _) fun _ _ => ?_
      exact Builtin.tracks_run L h hcallee ha he
  | lambda kind id params body captured =>
    -- The scope that a lambda captured is one that the runs may touch.
    have hcap := L.part_lambda.1 hcallee.1
    cases kind with
    | function => exact tracks_applyFunction L h hcallee.2 hcap ha he
    | expander => exact tracks_applyExpander L h hcallee.2 hcap ha he
  | _ => exact .throw (L.error trivial)

/-- One level of evaluation. -/
theorem tracks_evaluateStep (L : C.Lawful) (h : C.TracksEvaluation evaluate evaluate') :
    C.TracksEvaluation (evaluateStep evaluate) (evaluateStep evaluate') := by
  intro n v e hv he
  -- A name is looked up, a quoted form taken out, and a list is a call; everything else is its own
  -- value.
  cases v with
  | symbol name => exact .lookup L he
  | quoted id inner => exact .pure fun k hk => L.value_mono hv.2 hk
  | pair id head tail =>
    refine (h hv.2.1 he).bind fun k hnk callee hcallee => ?_
    exact tracks_applyWith L h hcallee (L.value_mono hv.2.2 hnk) (L.scope_mono hnk he)
  | _ => exact .pure fun k hk => L.value_mono hv hk

/-! ## Nesting -/

/-- What entering and leaving a level of nesting has to satisfy. -/
structure Correspondence.Nests (C : Correspondence) : Prop where
  enter : ∀ {m m' : Machine}, C.machines m m' →
    C.machines { m with depth := m.depth + 1 } { m' with depth := m'.depth + 1 }
  leave : ∀ {m m' : Machine}, C.machines m m' →
    C.machines { m with depth := m.depth - 1 } { m' with depth := m'.depth - 1 }
  stopped : ∀ {e : Error} {m m' : Machine} (d d' : Nat), C.stopped e m m' →
    C.stopped e { m with depth := d } { m' with depth := d' }

/-- A step one level deeper. -/
theorem Correspondence.Tracks.nested {α : Type} (N : C.Nests) {Q : Nat → α → Prop}
    {act act' : EvalM α} (h : C.Tracks n Q act act') :
    C.Tracks n Q (EvalM.nested act) (EvalM.nested act') := by
  constructor
  · intro m m' hn hm hc
    rw [Machine.run_nested, Machine.run_nested]
    have hout := h.together { m with depth := m.depth + 1 } { m' with depth := m'.depth + 1 } hn
      (N.enter hm) hc
    -- One level deeper and back up again.
    revert hout
    generalize ({ m with depth := m.depth + 1 } : Machine).run act = r,
      ({ m' with depth := m'.depth + 1 } : Machine).run act' = r'
    intro hout
    cases hout with
    | ok hk hm₁ hc₁ hq => exact .ok hk (N.leave hm₁) hc₁ hq
    | error hk hm₁ hc₁ he => exact .error hk (N.leave hm₁) hc₁ he
    | stopped ht => exact .stopped ⟨ht.extent_le, N.stopped _ _ ht.stopped, ht.result⟩
  · intro err m m' hn hs
    rw [Machine.run_nested]
    have ht := h.alone err m { m' with depth := m'.depth + 1 } hn (N.stopped m.depth _ hs)
    exact ⟨ht.extent_le, N.stopped m.depth _ ht.stopped, ht.result⟩

/-- Evaluations with a bound on nesting track each other if the first, at its bound, tracks the
    second, which may have `extra` more levels. -/
theorem tracks_evaluateWithin (L : C.Lawful) (N : C.Nests) {extra : Nat}
    (hbound : C.TracksEvaluation (evaluateWithin 0) (evaluateWithin extra)) (room : Nat) :
    C.TracksEvaluation (evaluateWithin room) (evaluateWithin (room + extra)) := by
  induction room with
  | zero =>
    rw [Nat.zero_add]
    exact hbound
  | succ room ih =>
    rw [Nat.succ_add]
    intro n v e hv he
    -- One level deeper there is one level of room less, in both evaluations.
    exact (tracks_evaluateStep L ih hv he).nested N

/-! ## Evaluation under the limit of the machine -/

/-- How many more evaluations may be nested. -/
def Machine.room (m : Machine) : Nat :=
  m.config.maxDepth - m.depth

/-- Evaluation may nest as many levels as the machine has room for. -/
theorem Machine.run_evaluate (m : Machine) (v : Value) (e : ScopeId) :
    m.run (ScopeLisp.evaluate v e) = m.run (evaluateWithin m.room v e) := rfl

/-- A call may nest as many levels as the machine has room for. -/
theorem Machine.run_apply (m : Machine) (callee args : Value) (e : ScopeId) :
    m.run (apply callee args e) = m.run (applyWith (evaluateWithin m.room) callee args e) := rfl

/-- At the limit an event is logged and the evaluation fails; nothing else happens. -/
theorem Machine.run_refuseDepth (m : Machine) :
    m.run refuseDepth = (.error (.recursionLimit m.config.maxDepth),
      { m with events := m.events.push (.depthLimit m.config.maxDepth) }) := rfl

/-- Evaluation under the limits of the machines, if it is tracked with the room that each of them
    has. -/
theorem tracks_evaluate
    (halone : ∀ room, C.TracksEvaluation (evaluateWithin room) (evaluateWithin room))
    (htogether : ∀ m m', C.machines m m' →
      C.TracksEvaluation (evaluateWithin m.room) (evaluateWithin m'.room)) :
    C.TracksEvaluation ScopeLisp.evaluate ScopeLisp.evaluate := by
  intro n v e hv he
  constructor
  · intro m m' hn hm hc
    rw [Machine.run_evaluate, Machine.run_evaluate]
    exact (htogether m m' hm hv he).together m m' hn hm hc
  · intro err m m' hn hs
    rw [Machine.run_evaluate]
    exact (halone _ hv he).alone err m m' hn hs

/-- Both runs meet the limit on nesting at the same point. -/
structure Correspondence.SharesLimit (C : Correspondence) : Prop where
  room_eq : ∀ {m m' : Machine}, C.machines m m' → m'.room = m.room
  limit_eq : ∀ {m m' : Machine}, C.machines m m' → m'.config.maxDepth = m.config.maxDepth
  refuse : ∀ {m m' : Machine} (limit : Nat), C.machines m m' →
    C.machines { m with events := m.events.push (.depthLimit limit) }
      { m' with events := m'.events.push (.depthLimit limit) }
  error : ∀ limit, C.error (.recursionLimit limit)

/-- With the same room, both runs refuse at the same point. -/
theorem tracks_evaluateWithin_of_sharesLimit (L : C.Lawful) (N : C.Nests) (S : C.SharesLimit)
    (room : Nat) : C.TracksEvaluation (evaluateWithin room) (evaluateWithin room) := by
  -- Without room both refuse, and name the same limit.
  have hbound : C.TracksEvaluation (evaluateWithin 0) (evaluateWithin 0) := by
    intro n v e hv he
    constructor
    · intro m m' hn hm hc
      show C.Outcome m.extent C.value (m.run refuseDepth) (m'.run refuseDepth)
      rw [Machine.run_refuseDepth, Machine.run_refuseDepth, S.limit_eq hm]
      exact .error (Nat.le_refl _) (S.refuse _ hm) hc (S.error _)
    · intro err m m' hn hs
      exact ⟨Nat.le_refl _, L.stopped_emit hs, nofun⟩
  exact tracks_evaluateWithin L N hbound room

/-- Evaluation under a limit that both machines share. -/
theorem tracks_evaluate_of_sharesLimit (L : C.Lawful) (N : C.Nests) (S : C.SharesLimit) :
    C.TracksEvaluation ScopeLisp.evaluate ScopeLisp.evaluate := by
  have hwithin := tracks_evaluateWithin_of_sharesLimit L N S
  refine tracks_evaluate hwithin fun m m' hm => ?_
  rw [S.room_eq hm]
  exact hwithin m.room

/-! ## Programs -/

/-- Nothing is demanded of the parts that a datum can have. -/
structure Correspondence.AdmitsData (C : Correspondence) : Prop where
  number : ∀ {n : Nat} {x : Double}, C.part n (.number x)
  symbol : ∀ {n : Nat} {name : String}, C.part n (.symbol name)
  pair : ∀ {n : Nat} {id : Identity} {head tail : Value}, C.part n (.pair id head tail)
  quoted : ∀ {n : Nat} {id : Identity} {inner : Value}, C.part n (.quoted id inner)

/-- A datum becomes a value. -/
theorem Correspondence.Tracks.load (L : C.Lawful) (A : C.AdmitsData) (datum : Datum) :
    C.Tracks n C.value (EvalM.allocate (·.load datum)) (EvalM.allocate (·.load datum)) := by
  -- Along the datum, in the order in which identities are given out.
  induction datum generalizing n with
  | nil => exact .pure fun _ _ => L.part_nil
  | number x => exact .pure fun _ _ => A.number
  | string text => exact .newString L text
  | symbol name => exact .pure fun _ _ => A.symbol
  | pair head tail ihh iht =>
    have hcell : ∀ k v w, C.value k v → C.value k w →
        C.Tracks k C.value (EvalM.allocate (·.newPair v w)) (EvalM.allocate (·.newPair v w)) :=
      fun k v w hv hw => .ofIdentity L (fun id => .pair id v w) fun _ _ hk =>
        ⟨A.pair, L.value_mono hv hk, L.value_mono hw hk⟩
    have htail : ∀ k v, C.value k v → C.Tracks k C.value
        (do EvalM.allocate (·.newPair v (← EvalM.allocate (·.load tail))))
        (do EvalM.allocate (·.newPair v (← EvalM.allocate (·.load tail)))) :=
      fun k v hv => iht.bind fun j hj w hw => hcell j v w (L.value_mono hv hj) hw
    exact ihh.bind fun k _ v hv => htail k v hv
  | quoted inner ih =>
    have hquoted : ∀ k v, C.value k v → C.Tracks k C.value (EvalM.allocate (·.newQuoted v))
        (EvalM.allocate (·.newQuoted v)) :=
      fun k v hv => .ofIdentity L (fun id => .quoted id v) fun _ _ hk =>
        ⟨A.quoted, L.value_mono hv hk⟩
    exact ih.bind fun k _ v hv => hquoted k v hv

/-- An expression of a program, in the global scope. -/
theorem tracks_evaluateDatum (L : C.Lawful)
    (h : C.TracksEvaluation ScopeLisp.evaluate ScopeLisp.evaluate) {datum : Datum}
    (hload : C.Tracks n C.value (EvalM.allocate (·.load datum)) (EvalM.allocate (·.load datum)))
    (hglobals : ∀ m m', C.machines m m' → C.scope m.extent m.globals) :
    C.Tracks n C.value (evaluateDatum datum) (evaluateDatum datum) := by
  refine hload.bind fun k _ v hv => ?_
  constructor
  · intro m m' hk hm hc
    have htracks := h (L.value_mono hv hk) (hglobals m m' hm)
    show C.Outcome m.extent C.value (m.run (ScopeLisp.evaluate v m.globals))
      (m'.run (ScopeLisp.evaluate v m'.globals))
    -- Both evaluate in the same global scope.
    rw [L.globals_eq hm]
    exact htracks.together m m' (Nat.le_refl _) hm hc
  · intro err m m' hk hs
    exact (h (L.value_mono hv hk) (L.scope_of_stopped hs)).alone err m m' (Nat.le_refl _) hs

/-- Programs whose expressions track themselves do so, too. -/
theorem tracks_executeUpTo (L : C.Lawful) (hfault : ∀ fault, C.error (.malformed fault))
    (h : ∀ k datum, C.Tracks k C.value (evaluateDatum datum) (evaluateDatum datum))
    (fuel : Nat) (p : Parser) {last : Value} (hlast : C.value n last) :
    C.Tracks n C.value (executeUpTo fuel p last) (executeUpTo fuel p last) := by
  induction fuel generalizing n p last with
  | zero => exact .pure fun k hk => L.value_mono hlast hk
  | succ fuel ih =>
    unfold executeUpTo
    -- Reading finds the same in both runs, since it does not depend on the machine.
    split
    · exact .throw (hfault _)
    · exact .pure fun k hk => L.value_mono hlast hk
    · split
      · exact .throw (hfault _)
      · exact (h n _).bind fun k _ v hv => ih _ hv

end Walk

end ScopeLisp
