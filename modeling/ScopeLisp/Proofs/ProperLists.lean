import ScopeLisp.Proofs.Atoms
import ScopeLisp.Proofs.StoreGrowth
import ScopeLisp.Proofs.Watching

/-!
# Lists are proper

What follows the head of a list is a list again, in every value that a session can come by, and the
name of every symbol is one that a text can hold. Going through a list stops where no cell follows,
so it comes to the end only of lists like these.

Cells are made by the parser, by the evaluation of arguments and by the list builtins. All of them
put a head in front of a list, so a session that starts without an improper list never gets one.
The values that come up inside a run are covered by a watch that raises an alarm at a value or a
binding that is not well formed: whatever the alarm does, the run is the same.

## Key results

- `Value.WellFormed.lists`: a list that is well formed is passed through to its end
- `Grammar.Expr.wellFormed`: data of expressions are well formed
- `Invariant.lawful_proper`: evaluation keeps values well formed
- `session_values_wellFormed`: all values of a session are well formed
-/

namespace ScopeLisp

/-! ## Well-formed values -/

namespace Value

/-- What follows the head of a list is a list, and the name of a symbol is a name or an operator. -/
def IsWellFormed : Value → Prop
  | pair _ _ tail => tail.isList = true
  | symbol name => Lexeme.isSymbolName name.toList = true
  | _ => True

instance : DecidablePred IsWellFormed
  | pair _ _ tail => inferInstanceAs (Decidable (tail.isList = true))
  | symbol name => inferInstanceAs (Decidable (Lexeme.isSymbolName name.toList = true))
  | nil | bool _ | number _ | string .. | quoted .. | native _ | lambda .. | environment _ =>
    inferInstanceAs (Decidable True)

/-- All lists in the value are proper, and all symbols in it have names that a text can hold. -/
def WellFormed (v : Value) : Prop :=
  v.All IsWellFormed

instance (v : Value) : Decidable v.WellFormed :=
  inferInstanceAs (Decidable (v.All IsWellFormed))

/-- Going from tail to tail passes cells with the given heads and then reaches the empty list. -/
inductive Lists : Value → (heads : List Value) → Prop where
  | nil : Lists .nil []
  | cell {id : Identity} {head tail : Value} {heads : List Value} : Lists tail heads →
      Lists (.pair id head tail) (head :: heads)

/-- A list that is well formed is passed through to its end, and its elements are all its heads. -/
theorem WellFormed.lists {v : Value} (h : v.WellFormed) (hlist : v.isList = true) :
    v.Lists v.items := by
  -- Along the tails only, since every tail is a list again.
  induction v with
  | nil => exact .nil
  | pair id head tail _ iht => exact .cell (iht h.2.2 h.1)
  | _ => exact nomatch hlist

end Value

/-- A new list has the cells that it is made of. -/
theorem Store.lists_newList (s : Store) (items : List Value) : (s.newList items).1.Lists items := by
  induction items with
  | nil => exact .nil
  | cons v items ih => exact .cell ih

/-! ## Data of expressions -/

namespace Datum

/-- What follows the head of a list is a list, and the name of a symbol is a name or an operator, in
    all parts of the datum. -/
def WellFormed : Datum → Prop
  | pair head tail => tail.isList = true ∧ head.WellFormed ∧ tail.WellFormed
  | quoted inner => inner.WellFormed
  | symbol name => Lexeme.isSymbolName name.toList = true
  | nil | number _ | string _ => True

/-- A list of well-formed data is a well-formed list. -/
private theorem wellFormed_ofList {ds : List Datum} (h : ∀ d ∈ ds, d.WellFormed) :
    (ofList ds).WellFormed ∧ (ofList ds).isList = true := by
  induction ds with
  | nil => exact ⟨trivial, rfl⟩
  | cons d ds ih =>
    obtain ⟨htail, hlist⟩ := ih fun d' hd' => h d' (List.mem_cons_of_mem _ hd')
    exact ⟨⟨hlist, h d List.mem_cons_self, htail⟩, rfl⟩

/-- A datum that is well formed becomes a value that is. -/
theorem WellFormed.load {d : Datum} (h : d.WellFormed) (s : Store) :
    (s.load d).1.WellFormed ∧ (d.isList = true → (s.load d).1.isList = true) := by
  -- The head is loaded first, so the tail starts from the store that it leaves.
  induction d generalizing s with
  | pair head tail ihh iht =>
    obtain ⟨htail, hlist⟩ := iht h.2.2 (s.load head).2
    exact ⟨⟨hlist h.1, (ihh h.2.1 s).1, htail⟩, fun _ => rfl⟩
  | quoted inner ih => exact ⟨⟨trivial, (ih h s).1⟩, nofun⟩
  | symbol name => exact ⟨h, nofun⟩
  | nil => exact ⟨trivial, fun _ => rfl⟩
  | number x => exact ⟨trivial, nofun⟩
  | string text => exact ⟨trivial, nofun⟩

end Datum

/-- The datum of an expression is well formed if its symbols are scanned from a text. -/
theorem Grammar.Expr.wellFormed {n : Nat} {ks : List Token.Kind} {d : Datum} (h : Expr n ks d)
    (hks : ∀ k ∈ ks, Lexeme.Legible k) : d.WellFormed := by
  -- By induction on the expression; its symbols are tokens, and its items a list.
  induction h with
  | number x => trivial
  | string text => trivial
  | symbol name => exact hks (.symbol name) List.mem_cons_self
  | quoted hw hx ih => exact ih fun k hk => hks k (by simp [hk])
  | empty hw => trivial
  | @list n ws ks ws' d items hw hx hitems hw' ih ihs =>
    refine (Datum.wellFormed_ofList (List.forall_mem_cons.2 ⟨?_, ?_⟩)).1
    · exact ih fun k hk => hks k (by simp [hk])
    · intro d hd
      obtain ⟨item, hitem, rfl⟩ := List.mem_map.1 hd
      refine ihs item hitem fun k hk => hks k ?_
      have hmem : k ∈ separated items :=
        List.mem_flatMap.2 ⟨item, hitem, List.mem_cons_of_mem _ hk⟩
      simp [hmem]

/-- A datum that can be read is well formed. -/
theorem Datum.Readable.wellFormed {d : Datum} (h : d.Readable) : d.WellFormed := by
  obtain ⟨t, ks, t', hx, hlex⟩ := h
  exact hx.wellFormed hlex.legible

/-- What a parser reads from a text can be read. -/
private theorem Parser.Reads.readable {p q : Parser} {ds : List Datum} {t : List Char}
    (h : p.Reads ds q) (hp : p.At 0 t) : ∀ d ∈ ds, d.Readable := by
  -- Each round reads an expression of the text that the round before it left.
  induction h generalizing t with
  | nil p => exact nofun
  | cons hround _ ih =>
    obtain ⟨ws, ks, t₁, -, hx, hlex, hp₁⟩ := lexes_of_round hp hround
    obtain ⟨mid, -, hks⟩ := Lexes.append_inv ws hlex
    exact List.forall_mem_cons.2 ⟨⟨mid, ks, t₁, hx, hks⟩, ih hp₁⟩

/-- Everything that is read from a text, also before a fault, is well formed. -/
theorem Reading.wellFormed {source : String} {ds : List Datum} {fault : Option SyntaxError}
    (h : Reading source ds fault) : ∀ d ∈ ds, d.WellFormed := by
  obtain ⟨q, hreads, -⟩ := h
  exact fun d hd => (hreads.readable (Parser.at_ofSource source) d hd).wellFormed

/-! ## Evaluation keeps values well formed -/

/-- A part of a value that is well formed; a builtin that puts its name in front of its arguments
    has a name that can be a symbol. -/
def Value.IsProper : Value → Prop
  | .native b => b.operation = .echo → Lexeme.isSymbolName b.name.toList = true
  | v => v.IsWellFormed

/-- A proper part is well formed. -/
private theorem Value.IsProper.isWellFormed {v : Value} (h : v.IsProper) : v.IsWellFormed := by
  cases v with
  | native b => trivial
  | _ => exact h

/-- Every value is well formed. -/
def Invariant.proper : Invariant where
  holds _ := True
  error _ := True
  scope _ _ := True
  part _ := Value.IsProper

/-- Evaluation keeps values well formed. -/
theorem Invariant.lawful_proper : proper.Lawful :=
  lawful_ofParts
    { scope_mono := fun _ _ => trivial
      scope_of_succ := fun _ _ => trivial
      part_mono := fun _ h => h
      part_nil := trivial
      part_bool := trivial
      part_string := trivial
      part_zero := trivial
      part_one := trivial
      part_add := fun _ _ => trivial
      part_pair := fun h => h
      part_echo := fun h hop => h hop
      part_lambda := Iff.rfl
      part_environment := fun _ => trivial }

/-- A well-formed datum may be loaded. -/
private theorem Datum.WellFormed.admitted {d : Datum} (h : d.WellFormed) :
    d.Admitted Invariant.proper.alone := by
  induction d with
  | pair head tail ihh iht => exact ⟨h.1, ihh h.2.1, iht h.2.2⟩
  | quoted inner ih => exact ⟨fun _ _ _ => trivial, ih h⟩
  | symbol name => exact fun _ => h
  | number x => exact fun _ => trivial
  | nil | string _ => trivial

/-- Values of which all parts are proper are well formed. -/
private theorem Invariant.wellFormed_of_proper {n : Nat} {v : Value} (h : proper.alone.value n v) :
    v.WellFormed :=
  Value.All.imp h fun _ => Value.IsProper.isWellFormed

/-! ## Watching for values that are not well formed -/

/-- A check of all bindings of a store, scope by scope. -/
theorem Store.all_bindings_iff {s : Store} {q : Value → Bool} :
    (s.scopes.all fun scope => scope.bindings.entries.all fun entry => q entry.2) = true ↔
      ∀ e name v, (s.bindings e).find? name = some v → q v = true := by
  simp only [Array.all_eq_true, List.all_eq_true]
  constructor
  · intro h e name v hv
    -- A scope that does not exist binds nothing, so only those of the store count.
    rw [bindings] at hv
    cases hscope : s.scopes[e]? with
    | none =>
      rw [hscope] at hv
      cases hv
    | some scope =>
      rw [hscope] at hv
      obtain ⟨he, rfl⟩ := Array.getElem?_eq_some_iff.1 hscope
      exact h e he _ (NameMap.find?_eq_some_iff_mem.1 hv)
  · intro h e he entry hentry
    refine h e entry.1 entry.2 ?_
    rw [bindings, Array.getElem?_eq_getElem he]
    exact NameMap.find?_eq_some_iff_mem.2 hentry

/-- Whether all bindings of a store are well formed. -/
def Store.isWellFormed (s : Store) : Bool :=
  s.scopes.all fun scope => scope.bindings.entries.all fun entry => decide entry.2.WellFormed

/-- The check finds exactly the stores in which all bindings are well formed. -/
private theorem Store.isWellFormed_iff {s : Store} :
    s.isWellFormed = true ↔
      ∀ e name v, (s.bindings e).find? name = some v → v.WellFormed := by
  rw [isWellFormed, all_bindings_iff (q := fun v => decide v.WellFormed)]
  simp only [decide_eq_true_eq]

/-- Raises an alarm at a value that is not well formed, at an argument list that is no list or not
    well formed, and wherever a binding is not well formed. -/
def Watch.alarmed (alarm : Value → EvalM Unit) : Watch where
  value v := do
    unless v.WellFormed ∧ (← get).store.isWellFormed do alarm v
  args v := do
    unless v.isList ∧ v.WellFormed ∧ (← get).store.isWellFormed do alarm v

/-- No alarm is raised where all values are well formed. -/
private theorem Invariant.quiet_alarmed (alarm : Value → EvalM Unit) :
    proper.Quiet (.alarmed alarm) := by
  have hstore : ∀ {m : Machine}, proper.alone.Closed m.store → m.store.isWellFormed = true :=
    fun hc => Store.isWellFormed_iff.2 fun _ _ _ hv => wellFormed_of_proper (hc.binding trivial hv)
  -- Evaluated arguments and argument forms differ in why they are a list.
  have hargs : ∀ {m : Machine} {args : Value}, proper.alone.Closed m.store → args.WellFormed →
      args.isList = true → m.run ((Watch.alarmed alarm).args args) = (.ok (), m) := by
    intro m args hc hargs hlist
    simp [Watch.alarmed, Machine.run_bind, hargs, hlist, hstore hc]
  refine ⟨fun _ hc hv => ?_, fun _ hc hv hlist => ?_, fun _ hc hv => ?_⟩
  · simp [Watch.alarmed, Machine.run_bind, wellFormed_of_proper hv, hstore hc]
  · exact hargs hc (wellFormed_of_proper hv) hlist
  · exact hargs hc (wellFormed_of_proper hv.2.2) hv.1

/-! ## Sessions -/

/-- What holds of all bound values and of the new ones holds after binding. -/
private theorem Store.forall_bindAll {P : Value → Prop} {s : Store} {e : ScopeId}
    {entries : List (String × Value)} (hentries : ∀ entry ∈ entries, P entry.2)
    (h : ∀ f name v, (s.bindings f).find? name = some v → P v) :
    ∀ f name v, ((s.bindAll e entries).bindings f).find? name = some v → P v := by
  -- One name after the other, over the store that the earlier ones have left.
  induction entries generalizing s with
  | nil => exact h
  | cons entry entries ih =>
    have hrest : ∀ x ∈ entries, P x.2 := fun x hx => hentries x (List.mem_cons_of_mem _ hx)
    refine ih (s := s.bind e entry.1 entry.2) hrest ?_
    intro f name v hv
    rw [Store.bindings_bind] at hv
    split at hv
    · rw [NameMap.find?_insert] at hv
      split at hv
      · exact Option.some.inj hv ▸ hentries entry List.mem_cons_self
      · exact h f name v hv
    · exact h f name v hv

/-- A machine starts with the constants and the builtins of its registry. -/
theorem Machine.forall_start {P : Value → Prop} {registry : Registry} {config : Config}
    (hconstants : ∀ entry ∈ Registry.constants, P entry.2)
    (hbuiltins : ∀ entry ∈ registry.builtins.entries, P (.native entry.2)) :
    ∀ e name v, ((Machine.start registry config).store.bindings e).find? name = some v → P v := by
  refine Store.forall_bindAll ?_ (Store.forall_bindAll hconstants ?_)
  · intro entry hentry
    obtain ⟨b, hb, rfl⟩ := List.mem_map.1 hentry
    exact hbuiltins b hb
  · intro e name v hv
    have hv : ((Store.empty.newScope none).2.bindings e).find? name = some v := hv
    rw [Store.bindings_newScope, Store.bindings_of_size_le Store.empty e (Nat.zero_le e)] at hv
    exact nomatch hv

/-- The registry of the language holds builtins of the catalogue. -/
theorem Registry.mem_catalogue {entry : String × Native}
    (h : entry ∈ full.builtins.entries) : entry.2.toBuiltin ∈ catalogue := by
  suffices hfold : ∀ (bs : List Builtin) (r : Registry),
      entry ∈ (bs.foldl register r).builtins.entries →
        entry.2.toBuiltin ∈ bs ∨ entry ∈ r.builtins.entries by
    rcases hfold catalogue empty h with hmem | hnil
    · exact hmem
    · exact nomatch hnil
  intro bs
  -- What is in the registry afterwards was registered last, or was there before.
  induction bs with
  | nil => exact fun r hr => .inr hr
  | cons b bs ih =>
    intro r hr
    rcases ih (r.register b) hr with hmem | hmem
    · exact .inl (List.mem_cons_of_mem _ hmem)
    · rcases NameMap.mem_insertEntry hmem with rfl | hmem
      · exact .inl List.mem_cons_self
      · exact .inr hmem

/-- The constants and the builtins of the language satisfy what is demanded of parts. -/
theorem Invariant.closed_ofParts_start {p : Value → Prop} (config : Config)
    (hconstants : ∀ entry ∈ Registry.constants, entry.2.All p)
    (hbuiltins : ∀ b : Native, b.toBuiltin ∈ catalogue → p (.native b)) :
    (ofParts p).alone.Closed (Machine.start .full config).store where
  parent _ _ := trivial
  binding _ :=
    Machine.forall_start hconstants
      (fun entry hentry => hbuiltins entry.2 (Registry.mem_catalogue hentry)) _ _ _

/-- Programs keep what is demanded of parts in all bindings. -/
theorem Invariant.closed_ofParts_after {p : Value → Prop} (L : (ofParts p).Lawful)
    (hdata : ∀ d : Datum, d.Readable → d.Admitted (ofParts p).alone) {m : Machine}
    (hc : (ofParts p).alone.Closed m.store) (sources : List String) :
    (ofParts p).alone.Closed (m.after sources).store := by
  -- A program is run as if watched by a watch that does nothing.
  induction sources generalizing m with
  | nil => exact hc
  | cons source sources ih =>
    exact ih (L.run_watch_execute (w := .silent) ⟨fun _ _ _ => rfl, fun _ _ _ _ => rfl,
      fun _ _ _ => rfl⟩ (fun _ _ => trivial) (fun _ => trivial) hdata trivial hc source).2.closed

/-- A session starts with well-formed bindings. -/
private theorem Invariant.closed_proper_start (config : Config) :
    proper.alone.Closed (Machine.start .full config).store := by
  refine closed_ofParts_start config ?_ ?_
  · intro entry hentry
    simp only [Registry.constants, List.mem_cons, List.not_mem_nil, or_false] at hentry
    rcases hentry with rfl | rfl | rfl <;> trivial
  · -- No builtin of the language puts its name in front of its arguments.
    have hcatalogue : ∀ b ∈ catalogue, b.operation ≠ .echo := by decide
    exact fun b hb hecho => absurd hecho (hcatalogue b.toBuiltin hb)

/-- A program run on a machine with well-formed bindings keeps them so, and returns a value that is
    well formed; nothing else comes up on the way. -/
theorem Invariant.proper_execute {m : Machine} (hc : proper.alone.Closed m.store)
    (source : String) (alarm : Value → EvalM Unit) :
    m.run ((Watch.alarmed alarm).execute source) = m.run (execute source) ∧
      proper.Kept m.extent proper.alone.value (m.run (execute source)) :=
  lawful_proper.run_watch_execute (quiet_alarmed alarm) (fun _ _ => trivial) (fun _ => trivial)
    (fun _ hd => hd.wellFormed.admitted) trivial hc source

/-- A session keeps its bindings well formed. -/
private theorem Invariant.closed_proper_after {m : Machine} (hc : proper.alone.Closed m.store)
    (sources : List String) : proper.alone.Closed (m.after sources).store :=
  closed_ofParts_after lawful_proper (fun _ hd => hd.wellFormed.admitted) hc sources

/-- In every session with the builtins of the language, whatever is read from a text, is bound in a
    scope or is the value of a program is well formed. So is every value that is read, every value
    that an evaluation or a call returns and every argument list that a builtin receives while a
    program runs, along with all bindings at that moment: a run that raises an alarm at any other
    is the same, whatever the alarm does. A list that is well formed is passed through to its end,
    with the same heads in the same order as the new list of its elements. -/
theorem session_values_wellFormed (config : Config) (sources : List String) :
    let m := session .full config sources
    (∀ source ds fault, Reading source ds fault →
      ∀ d ∈ ds, ∀ s : Store, (s.load d).1.WellFormed) ∧
      (∀ e name v, (m.store.bindings e).find? name = some v → v.WellFormed) ∧
      (∀ source v, (m.run (execute source)).1 = .ok v → v.WellFormed) ∧
      (∀ source (alarm : Value → EvalM Unit),
        m.run ((Watch.alarmed alarm).execute source) = m.run (execute source)) ∧
      ∀ v : Value, v.WellFormed → v.isList = true →
        v.Lists v.items ∧ ∀ s : Store, (s.newList v.items).1.Lists v.items := by
  intro m
  have hclosed : Invariant.proper.alone.Closed m.store :=
    Invariant.closed_proper_after (Invariant.closed_proper_start config) sources
  refine ⟨?_, ?_, ?_, ?_, ?_⟩
  -- What is read, what is bound, and what is returned.
  · intro source ds fault hreading d hd s
    exact ((hreading.wellFormed d hd).load s).1
  · intro e name v hv
    exact Invariant.wellFormed_of_proper (hclosed.binding trivial hv)
  · intro source v hv
    have hkept := (Invariant.proper_execute hclosed source fun _ => return).2
    exact Invariant.wellFormed_of_proper (hkept.result v hv)
  · exact fun source alarm => (Invariant.proper_execute hclosed source alarm).1
  · exact fun v hv hlist => ⟨hv.lists hlist, fun s => s.lists_newList v.items⟩

end ScopeLisp
