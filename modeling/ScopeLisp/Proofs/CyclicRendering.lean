import Mathlib.Logic.Relation
import ScopeLisp.Proofs.Reachability
import ScopeLisp.Proofs.ScopeLaws
import ScopeLisp.Store.Render

/-!
# Writing values that refer to themselves

A scope is written with the values that it binds, and these may lead back to the scope. Inside its
own bindings it is written `<environment>`; everywhere else it is written out, however often it
occurs. `Store.Writes` says which text that is, part by part, with the rule for when a scope is
not written out as a parameter. `Writer` is the same as a machine that keeps a list of the scopes
being written, to which a scope is added when its bindings are begun and from which it is taken
when they are done.

The text of a store, which is computed with a bound on the number of scopes not yet open, is the
one that both lead to. The bound is never met: a scope is only entered when it is not open, so the
open scopes are distinct, and there are no more of them than scopes in the store.

## Key results

- `Store.writes_render`: what is computed is the text of the value
- `Store.Writes.unguarded`: where no scope leads back to itself, all scopes are written out
- `Writer.Sound.reaches`: open scopes are distinct in every state of a writer
- `Writer.reaches_of_writes`: a writer comes to an end, with the scopes open that were open before
- `writing_ends_and_hides_open_scopes`: all this about the text of a value in a store
-/

namespace ScopeLisp

/-! ## Lists with separators -/

/-- What is in a list with separators is in a separator or in a part. -/
private theorem mem_intercalate {α : Type} {a : α} {separator : List α} {parts : List (List α)}
    (h : a ∈ separator.intercalate parts) : a ∈ separator ∨ ∃ part ∈ parts, a ∈ part := by
  induction parts with
  | nil => exact nomatch h
  | cons first parts ih =>
    cases parts with
    | nil => exact .inr ⟨first, List.mem_cons_self, by simpa using h⟩
    | cons second parts =>
      rw [List.intercalate_cons_cons] at h
      simp only [List.mem_append] at h
      -- In the first part, in the separator behind it, or further back.
      rcases h with (h | h) | h
      · exact .inr ⟨first, List.mem_cons_self, h⟩
      · exact .inl h
      · rcases ih h with h | ⟨part, hpart, h⟩
        · exact .inl h
        · exact .inr ⟨part, List.mem_cons_of_mem _ hpart, h⟩

/-! ## Scopes in values -/

/-- The scope occurs in the value as a value: as the value itself, in an element of a list, in a
    quoted value, or in the body of a lambda. -/
inductive Value.Holds (f : ScopeId) : Value → Prop where
  | here : Holds f (.environment f)
  | element {id : Identity} {head tail w : Value} : w ∈ (Value.pair id head tail).items →
      Holds f w → Holds f (.pair id head tail)
  | inner {id : Identity} {inner : Value} : Holds f inner → Holds f (.quoted id inner)
  | body {kind : LambdaKind} {id : Identity} {params : List String} {body : Value}
      {scope : ScopeId} : Holds f body → Holds f (.lambda kind id params body scope)

namespace Store

/-- One scope binds a value in which the other occurs. -/
def Shows (s : Store) (e f : ScopeId) : Prop :=
  ∃ name v, (s.bindings e).find? name = some v ∧ v.Holds f

/-- No scope leads back to itself through the values that are bound. -/
def Acyclic (s : Store) : Prop :=
  ∀ e, ¬ Relation.TransGen s.Shows e e

/-- All scopes that the value refers to are in the store. -/
def Contains (s : Store) (v : Value) : Prop :=
  v.All (Value.RefersWithin .text (· < s.scopes.size))

/-- All scopes that bound values refer to are in the store. -/
def Complete (s : Store) : Prop :=
  ∀ e name v, (s.bindings e).find? name = some v → s.Contains v

end Store

/-- A scope that occurs in a value of a store is in the store. -/
private theorem Value.Holds.lt_size {s : Store} {v : Value} {e : ScopeId} (h : v.Holds e)
    (hv : s.Contains v) : e < s.scopes.size := by
  induction h with
  | here => exact hv rfl
  | element hw _ ih => exact ih (Value.All.of_mem_items hv hw)
  | inner _ ih => exact ih hv.2
  | body _ ih => exact ih hv.2

/-! ## The text of a value -/

namespace Store

/-- The text that a value has inside the scopes `around`. Which scopes are not written out there is
    said by `hidden`. -/
inductive Writes (s : Store) (hidden : List ScopeId → ScopeId → Prop) :
    (around : List ScopeId) → Value → String → Prop where
  | nil {around : List ScopeId} : Writes s hidden around .nil "()"
  | bool {around : List ScopeId} (b : Bool) :
      Writes s hidden around (.bool b) (if b then "#t" else "#f")
  | number {around : List ScopeId} (x : Double) :
      Writes s hidden around (.number x) (x.text "Infinity")
  | string {around : List ScopeId} (id : Identity) (text : String) :
      Writes s hidden around (.string id text) ("\"" ++ text ++ "\"")
  | symbol {around : List ScopeId} (name : String) : Writes s hidden around (.symbol name) name
  | list {around : List ScopeId} {id : Identity} {head tail : Value} {text : Value → String} :
      (∀ w ∈ (Value.pair id head tail).items, Writes s hidden around w (text w)) →
      Writes s hidden around (.pair id head tail)
        ("(" ++ " ".intercalate ((Value.pair id head tail).items.map text) ++ ")")
  | quoted {around : List ScopeId} {id : Identity} {inner : Value} {text : String} :
      Writes s hidden around inner text → Writes s hidden around (.quoted id inner) ("'" ++ text)
  | native {around : List ScopeId} (b : Native) :
      Writes s hidden around (.native b)
        ("<" ++ (Value.native b).tag.name ++ " \"" ++ b.name ++ "\">")
  | lambda {around : List ScopeId} {kind : LambdaKind} {id : Identity} {params : List String}
      {body : Value} {scope : ScopeId} {text : String} : Writes s hidden around body text →
      Writes s hidden around (.lambda kind id params body scope)
        ("<" ++ (Value.lambda kind id params body scope).tag.name ++ " " ++
          Value.paramList params ++ " -> " ++ text ++ ">")
  | seen {around : List ScopeId} {e : ScopeId} : hidden around e →
      Writes s hidden around (.environment e) "<environment>"
  | expanded {around : List ScopeId} {e : ScopeId} {text : Value → String} : ¬ hidden around e →
      (∀ entry ∈ (s.bindings e).entries, Writes s hidden (e :: around) entry.2 (text entry.2)) →
      Writes s hidden around (.environment e)
        ("<environment \x7b" ++
          ", ".intercalate ((s.bindings e).entries.map fun entry =>
            entry.1 ++ "=" ++ text entry.2) ++ "\x7d>")

/-- A scope is hidden inside its own bindings. -/
def Guarded (around : List ScopeId) (e : ScopeId) : Prop :=
  e ∈ around

/-- No scope is hidden. -/
def Unguarded (_ : List ScopeId) (_ : ScopeId) : Prop :=
  False

variable {s : Store} {hidden : List ScopeId → ScopeId → Prop} {around opened : List ScopeId}
  {v : Value} {e : ScopeId} {text text' : String}

/-- A value has one text. -/
theorem Writes.unique (h : s.Writes hidden around v text) (h' : s.Writes hidden around v text') :
    text = text' := by
  -- One rule applies to a value, and to a scope the one that fits whether it is hidden.
  induction h generalizing text' with
  | list _ ih =>
    cases h' with
    | list hitems' => rw [List.map_congr_left fun w hw => ih w hw (hitems' w hw)]
  | quoted _ ih =>
    cases h' with
    | quoted hinner' => rw [ih hinner']
  | lambda _ ih =>
    cases h' with
    | lambda hbody' => rw [ih hbody']
  | seen hhidden =>
    cases h' with
    | seen _ => rfl
    | expanded hshown _ => exact absurd hhidden hshown
  | expanded hshown _ ih =>
    cases h' with
    | seen hhidden => exact absurd hhidden hshown
    | expanded _ hentries' =>
      rw [List.map_congr_left fun entry hentry => by rw [ih entry hentry (hentries' entry hentry)]]
  | _ => cases h'; rfl

/-! ## The text that is computed -/

end Store

/-- The rest of a list is written as its elements, each with a space before it. -/
private theorem Value.append_renderRest (scopeText : ScopeId → String) (v : Value)
    (first : String) :
    first ++ v.renderRest scopeText =
      " ".intercalate (first :: v.items.map (Value.render scopeText)) := by
  induction v generalizing first with
  | pair id head tail _ ih =>
    rw [items, List.map_cons, String.intercalate_cons_cons, ← ih, renderRest]
    simp only [String.append_assoc]
  | _ => simp [renderRest, items]

/-- A list is written as its elements, with spaces in between. -/
private theorem Value.render_pair (scopeText : ScopeId → String) (id : Identity)
    (head tail : Value) :
    (pair id head tail).render scopeText =
      "(" ++ " ".intercalate ((pair id head tail).items.map (Value.render scopeText)) ++ ")" := by
  rw [items, List.map_cons, ← append_renderRest, render]
  simp only [String.append_assoc]

namespace Store

variable {s : Store} {hidden : List ScopeId → ScopeId → Prop} {around opened : List ScopeId}
  {v : Value} {e : ScopeId} {text text' : String}

/-- A value is written with the texts that its scopes are written as. -/
theorem writes_render_of_scopes {scopeText : ScopeId → String}
    (h : ∀ e, v.Holds e → s.Writes hidden around (.environment e) (scopeText e)) :
    s.Writes hidden around v (v.render scopeText) := by
  -- Of a tail only the elements count, so they are carried along on their own.
  suffices hboth : ((∀ e, v.Holds e → s.Writes hidden around (.environment e) (scopeText e)) →
        s.Writes hidden around v (v.render scopeText)) ∧
      ((∀ w ∈ v.items, ∀ e, w.Holds e → s.Writes hidden around (.environment e) (scopeText e)) →
        ∀ w ∈ v.items, s.Writes hidden around w (w.render scopeText)) from hboth.1 h
  clear h
  induction v with
  | pair id head tail ihh iht =>
    have hitems : (∀ w ∈ (Value.pair id head tail).items, ∀ e, w.Holds e →
          s.Writes hidden around (.environment e) (scopeText e)) →
        ∀ w ∈ (Value.pair id head tail).items, s.Writes hidden around w (w.render scopeText) := by
      intro h w hw
      rcases List.mem_cons.1 hw with rfl | hw
      · exact ihh.1 (h w List.mem_cons_self)
      · exact iht.2 (fun w' hw' => h w' (List.mem_cons_of_mem _ hw')) w hw
    refine ⟨fun h => ?_, hitems⟩
    rw [Value.render_pair]
    exact .list (hitems fun w hw e he => h e (.element hw he))
  | quoted id inner ih => exact ⟨fun h => .quoted (ih.1 fun e he => h e (.inner he)), nofun⟩
  | lambda kind id params body scope ih =>
    exact ⟨fun h => .lambda (ih.1 fun e he => h e (.body he)), nofun⟩
  | environment e => exact ⟨fun h => h e .here, nofun⟩
  | nil => exact ⟨fun _ => .nil, nofun⟩
  | bool b => exact ⟨fun _ => .bool b, nofun⟩
  | number x => exact ⟨fun _ => .number x, nofun⟩
  | string id text => exact ⟨fun _ => .string id text, nofun⟩
  | symbol name => exact ⟨fun _ => .symbol name, nofun⟩
  | native b => exact ⟨fun _ => .native b, nofun⟩

/-- Values that are bound in a store refer to scopes of the store. -/
private theorem Complete.contains (hs : s.Complete) {entry : String × Value}
    (h : entry ∈ (s.bindings e).entries) : s.Contains entry.2 :=
  hs e entry.1 entry.2 (NameMap.find?_eq_some_iff_mem.2 h)

/-- What is computed for a scope is its text, if the room is enough for the scopes not open. -/
theorem writes_renderScope (hs : s.Complete) {room : Nat} (hnodup : opened.Nodup)
    (hexist : ∀ a ∈ opened, a < s.scopes.size) (he : e < s.scopes.size)
    (hroom : s.scopes.size ≤ room + opened.length) :
    s.Writes Guarded opened (.environment e) (s.renderScope room opened e) := by
  -- By induction on the room: at zero, all scopes are open, and so is this one.
  induction room generalizing opened e with
  | zero =>
    have hopen : e ∈ opened := mem_of_size_le_length hnodup hexist (by omega) he
    exact .seen hopen
  | succ room ih =>
    unfold renderScope
    by_cases hopen : e ∈ opened
    · rw [if_pos hopen]
      exact .seen hopen
    · rw [if_neg hopen]
      -- One scope more is open and one less is not.
      refine .expanded hopen fun entry hentry => writes_render_of_scopes fun f hf => ?_
      refine ih (List.nodup_cons.2 ⟨hopen, hnodup⟩) ?_ (hf.lt_size (hs.contains hentry)) ?_
      · intro a ha
        rcases List.mem_cons.1 ha with rfl | ha
        · exact he
        · exact hexist a ha
      · rw [List.length_cons]
        omega

/-- Every value in a store has a text, inside whatever scopes. -/
theorem exists_writes (hs : s.Complete) (hnodup : opened.Nodup)
    (hexist : ∀ a ∈ opened, a < s.scopes.size) (hv : s.Contains v) :
    ∃ text, s.Writes Guarded opened v text :=
  ⟨_, writes_render_of_scopes fun _ he =>
    writes_renderScope hs hnodup hexist (he.lt_size hv) (Nat.le_add_right _ _)⟩

/-- What is computed for a value is its text. -/
theorem writes_render (hs : s.Complete) (hv : s.Contains v) :
    s.Writes Guarded [] v (s.render v) :=
  writes_render_of_scopes fun _ he =>
    writes_renderScope hs .nil nofun (he.lt_size hv) (Nat.le_refl _)

/-- Where no scope leads back to itself, none is met inside its own bindings. -/
theorem Writes.unguarded (hacyclic : s.Acyclic) (h : s.Writes Guarded around v text)
    (hlead : ∀ a ∈ around, ∀ f, v.Holds f → Relation.TransGen s.Shows a f) :
    s.Writes Unguarded around v text := by
  -- All scopes around lead to those in the value, and are carried along with it.
  induction h with
  | list _ ih => exact .list fun w hw => ih w hw fun a ha f hf => hlead a ha f (.element hw hf)
  | quoted _ ih => exact .quoted (ih fun a ha f hf => hlead a ha f (.inner hf))
  | lambda _ ih => exact .lambda (ih fun a ha f hf => hlead a ha f (.body hf))
  -- The case that is not there: the scope would lead back to itself.
  | @seen around e hopen => exact absurd (hlead e hopen e .here) (hacyclic e)
  | @expanded around e text _ _ ih =>
    refine .expanded id fun entry hentry => ih entry hentry fun a ha f hf => ?_
    have hshows : s.Shows e f := ⟨entry.1, entry.2, NameMap.find?_eq_some_iff_mem.2 hentry, hf⟩
    rcases List.mem_cons.1 ha with rfl | ha
    · exact .single hshows
    · exact (hlead a ha e .here).tail hshows
  | nil => exact .nil
  | bool b => exact .bool b
  | number x => exact .number x
  | string id text => exact .string id text
  | symbol name => exact .symbol name
  | native b => exact .native b

end Store

/-! ## Writers -/

/-- What a writer still has to do. -/
inductive Writer.Job where
  | text (text : String)
  | value (v : Value)
  /-- The bindings of the scope entered last are done. -/
  | close
deriving DecidableEq

/-- A state of writing a value. -/
structure Writer where
  agenda : List Writer.Job
  /-- The scopes whose bindings are being written, the one entered last first. -/
  opened : List ScopeId
  written : String

namespace Writer

open Job

/-- A writer at the start of a value. -/
def ofValue (v : Value) : Writer :=
  ⟨[.value v], [], ""⟩

/-- Begins a value: the open scopes from here on, and what is to be done for the value. -/
def begin (s : Store) (opened : List ScopeId) : Value → List ScopeId × List Job
  | .nil => (opened, [text "()"])
  | .bool b => (opened, [text (if b then "#t" else "#f")])
  | .number x => (opened, [text (x.text "Infinity")])
  | .string _ content => (opened, [text ("\"" ++ content ++ "\"")])
  | .symbol name => (opened, [text name])
  | .pair id head tail =>
    (opened, text "(" ::
      ([text " "].intercalate ((Value.pair id head tail).items.map fun w => [value w]) ++
        [text ")"]))
  | .quoted _ inner => (opened, [text "'", value inner])
  | .native b => (opened, [text ("<" ++ (Value.native b).tag.name ++ " \"" ++ b.name ++ "\">")])
  | .lambda kind id params body scope =>
    (opened,
      [text ("<" ++ (Value.lambda kind id params body scope).tag.name ++ " " ++
        Value.paramList params ++ " -> "), value body, text ">"])
  | .environment e =>
    if e ∈ opened then (opened, [text "<environment>"])
    else
      (e :: opened, text "<environment \x7b" ::
        ([text ", "].intercalate ((s.bindings e).entries.map fun entry =>
          [text (entry.1 ++ "="), value entry.2]) ++ [text "\x7d>", close]))

/-- One step of writing, unless everything is done. -/
def step (s : Store) (w : Writer) : Option Writer :=
  match w.agenda with
  | [] => none
  | text t :: rest => some ⟨rest, w.opened, w.written ++ t⟩
  | value v :: rest => some ⟨(begin s w.opened v).2 ++ rest, (begin s w.opened v).1, w.written⟩
  | close :: rest => some ⟨rest, w.opened.tail, w.written⟩

/-- Writing leads from one state to the other, in any number of steps. -/
def Reaches (s : Store) : Writer → Writer → Prop :=
  Relation.ReflTransGen fun w w' => w.step s = some w'

variable {s : Store} {w w' : Writer} {opened : List ScopeId} {v : Value} {rest : List Job}
  {out : String}

/-- A step writes a text, begins a value or closes a scope. -/
private theorem step_cases (h : w.step s = some w') :
    (∃ t rest, w.agenda = text t :: rest ∧ w' = ⟨rest, w.opened, w.written ++ t⟩) ∨
      (∃ v rest, w.agenda = value v :: rest ∧
        w' = ⟨(begin s w.opened v).2 ++ rest, (begin s w.opened v).1, w.written⟩) ∨
      ∃ rest, w.agenda = close :: rest ∧ w' = ⟨rest, w.opened.tail, w.written⟩ := by
  unfold step at h
  split at h
  · exact nomatch h
  · next t rest heq => exact .inl ⟨t, rest, heq, (Option.some.inj h).symm⟩
  · next v rest heq => exact .inr (.inl ⟨v, rest, heq, (Option.some.inj h).symm⟩)
  · next rest heq => exact .inr (.inr ⟨rest, heq, (Option.some.inj h).symm⟩)

/-! ## Open scopes -/

/-- Only a scope that is not open is entered. -/
theorem begin_opened (s : Store) (opened : List ScopeId) (v : Value) :
    (begin s opened v).1 = opened ∨
      ∃ e, v = .environment e ∧ e ∉ opened ∧ (begin s opened v).1 = e :: opened := by
  cases v with
  | environment e =>
    by_cases he : e ∈ opened
    · exact .inl (by rw [begin, if_pos he])
    · exact .inr ⟨e, rfl, he, by rw [begin, if_neg he]⟩
  | _ => exact .inl rfl

/-- A scope that is entered is closed once. -/
theorem count_close_begin (s : Store) (opened : List ScopeId) (v : Value) :
    (begin s opened v).2.count close + opened.length = (begin s opened v).1.length := by
  cases v with
  | pair id head tail =>
    have hnone : close ∉ [text " "].intercalate
        ((Value.pair id head tail).items.map fun w => [value w]) := by
      intro hmem
      rcases mem_intercalate hmem with hmem | ⟨part, hpart, hmem⟩
      · simp at hmem
      · obtain ⟨w, -, rfl⟩ := List.mem_map.1 hpart
        simp at hmem
    simp [begin, List.count_eq_zero_of_not_mem hnone]
  -- The marks for closing stand at the end of the bindings, not between them.
  | environment e =>
    have hnone : close ∉ [text ", "].intercalate
        ((s.bindings e).entries.map fun entry => [text (entry.1 ++ "="), value entry.2]) := by
      intro hmem
      rcases mem_intercalate hmem with hmem | ⟨part, hpart, hmem⟩
      · simp at hmem
      · obtain ⟨entry, -, rfl⟩ := List.mem_map.1 hpart
        simp at hmem
    simp only [begin]
    split
    · simp
    · simp only [ne_eq, reduceCtorEq, not_false_eq_true, List.count_cons_of_ne,
        List.count_append, List.count_eq_zero_of_not_mem hnone, List.count_cons_self,
        List.count_nil, Nat.zero_add, List.length_cons]
      omega
  | _ => simp [begin]

/-- The parts that a value of the store is written with are values of the store. -/
private theorem contains_of_mem_begin (hs : s.Complete) (hv : s.Contains v) {u : Value}
    (h : value u ∈ (begin s opened v).2) : s.Contains u := by
  -- Only lists, quoted values, lambdas and scopes have parts.
  cases v with
  | pair id head tail =>
    simp only [begin, List.mem_cons, List.mem_append, reduceCtorEq, false_or, List.not_mem_nil,
      or_false] at h
    rcases mem_intercalate h with h | ⟨part, hpart, h⟩
    · simp at h
    · obtain ⟨w, hw, rfl⟩ := List.mem_map.1 hpart
      obtain rfl : u = w := by simpa using h
      exact Value.All.of_mem_items hv hw
  | quoted id inner =>
    obtain rfl : u = inner := by simpa [begin] using h
    exact hv.2
  | lambda kind id params body scope =>
    obtain rfl : u = body := by simpa [begin] using h
    exact hv.2
  | environment e =>
    simp only [begin] at h
    split at h
    · simp at h
    · simp only [List.mem_cons, List.mem_append, reduceCtorEq, false_or, List.not_mem_nil,
        or_false] at h
      rcases mem_intercalate h with h | ⟨part, hpart, h⟩
      · simp at h
      · obtain ⟨entry, hentry, rfl⟩ := List.mem_map.1 hpart
        obtain rfl : u = entry.2 := by simpa using h
        exact hs.contains hentry
  | _ => simp [begin] at h

/-- The open scopes are distinct scopes of the store, and each of them is still to be closed. -/
structure Sound (s : Store) (w : Writer) : Prop where
  nodup : w.opened.Nodup
  exist : ∀ e ∈ w.opened, e < s.scopes.size
  contains : ∀ v, value v ∈ w.agenda → s.Contains v
  closes : w.agenda.count close = w.opened.length

/-- A writer at the start of a value of the store is sound. -/
private theorem sound_ofValue (hv : s.Contains v) : (ofValue v).Sound s where
  nodup := .nil
  exist := nofun
  contains u hu := by
    obtain rfl : u = v := by simpa [ofValue] using hu
    exact hv
  closes := rfl

/-- A step leaves a sound writer sound. -/
private theorem Sound.step (hs : s.Complete) (h : w.Sound s) (hstep : w.step s = some w') :
    w'.Sound s := by
  obtain ⟨t, rest, hagenda, rfl⟩ | ⟨v, rest, hagenda, rfl⟩ | ⟨rest, hagenda, rfl⟩ :=
    step_cases hstep
  -- A text.
  · refine ⟨h.nodup, h.exist, fun u hu => h.contains u ?_, ?_⟩
    · rw [hagenda]
      exact List.mem_cons_of_mem _ hu
    · simpa [hagenda] using h.closes
  -- A value, which may enter a scope.
  · have hcontains : s.Contains v := h.contains v (by rw [hagenda]; exact List.mem_cons_self)
    have hvalues : ∀ u, value u ∈ (begin s w.opened v).2 ++ rest → s.Contains u := by
      intro u hu
      rcases List.mem_append.1 hu with hu | hu
      · exact contains_of_mem_begin hs hcontains hu
      · exact h.contains u (by rw [hagenda]; exact List.mem_cons_of_mem _ hu)
    have hcloses : ((begin s w.opened v).2 ++ rest).count close =
        (begin s w.opened v).1.length := by
      rw [← count_close_begin, List.count_append, ← h.closes, hagenda]
      simp
    obtain hsame | ⟨e, rfl, he, hentered⟩ := begin_opened s w.opened v
    · exact ⟨by rw [hsame]; exact h.nodup, by rw [hsame]; exact h.exist, hvalues, hcloses⟩
    · refine ⟨?_, ?_, hvalues, hcloses⟩
      · rw [hentered]
        exact List.nodup_cons.2 ⟨he, h.nodup⟩
      · rw [hentered]
        exact List.forall_mem_cons.2 ⟨hcontains rfl, h.exist⟩
  -- The end of a scope, which is closed.
  · refine ⟨h.nodup.tail, fun e he => h.exist e (List.mem_of_mem_tail he),
      fun u hu => h.contains u ?_, ?_⟩
    · rw [hagenda]
      exact List.mem_cons_of_mem _ hu
    · have hcloses := h.closes
      rw [hagenda, List.count_cons_self] at hcloses
      rw [List.length_tail]
      exact Nat.eq_sub_of_add_eq hcloses

/-- In every state that is reached, the open scopes are distinct scopes of the store. -/
theorem Sound.reaches (hs : s.Complete) (h : w.Sound s) (hreach : Reaches s w w') : w'.Sound s := by
  induction hreach with
  | refl => exact h
  | tail _ hstep ih => exact ih.step hs hstep

/-- A step leaves the open scopes as they are, enters a scope that is not open, or leaves the scope
    entered last. -/
theorem Sound.opened_step (h : w.Sound s) (hstep : w.step s = some w') :
    w'.opened = w.opened ∨ (∃ e, e ∉ w.opened ∧ w'.opened = e :: w.opened) ∨
      ∃ e, w.opened = e :: w'.opened := by
  obtain ⟨t, rest, -, rfl⟩ | ⟨v, rest, -, rfl⟩ | ⟨rest, hagenda, rfl⟩ := step_cases hstep
  · exact .inl rfl
  · obtain hsame | ⟨e, -, he, hentered⟩ := begin_opened s w.opened v
    · exact .inl hsame
    · exact .inr (.inl ⟨e, he, hentered⟩)
  · -- A scope is still to be closed, so one is open.
    have hcloses := h.closes
    rw [hagenda, List.count_cons_self] at hcloses
    cases hopened : w.opened with
    | nil => simp [hopened] at hcloses
    | cons e others => exact .inr (.inr ⟨e, rfl⟩)

/-! ## Writing comes to an end -/

private theorem Reaches.trans {w'' : Writer} (h : Reaches s w w') (h' : Reaches s w' w'') :
    Reaches s w w'' :=
  Relation.ReflTransGen.trans h h'

private theorem reaches_text (t : String) :
    Reaches s ⟨text t :: rest, opened, out⟩ ⟨rest, opened, out ++ t⟩ :=
  .single rfl

private theorem reaches_close (e : ScopeId) :
    Reaches s ⟨close :: rest, e :: opened, out⟩ ⟨rest, opened, out⟩ :=
  .single rfl

/-- A value is begun in one step. -/
theorem reaches_begin {w : Writer}
    (h : Reaches s ⟨(begin s opened v).2 ++ rest, (begin s opened v).1, out⟩ w) :
    Reaches s ⟨value v :: rest, opened, out⟩ w :=
  .head rfl h

/-- Parts are written one after the other, with separators in between. -/
theorem reaches_intercalate {α : Type} {jobs : α → List Job} {textOf : α → String}
    {parts : List α} (separator : String)
    (h : ∀ part ∈ parts, ∀ rest out, Reaches s ⟨jobs part ++ rest, opened, out⟩
      ⟨rest, opened, out ++ textOf part⟩) (rest : List Job) (out : String) :
    Reaches s ⟨[text separator].intercalate (parts.map jobs) ++ rest, opened, out⟩
      ⟨rest, opened, out ++ separator.intercalate (parts.map textOf)⟩ := by
  -- By induction on the parts, whatever has been written before them.
  induction parts generalizing out with
  | nil =>
    simp only [List.map_nil, List.intercalate_nil, String.intercalate_nil, String.append_empty]
    exact .refl
  | cons first parts ih =>
    have hfirst := h first List.mem_cons_self
    have hparts := ih fun part hpart => h part (List.mem_cons_of_mem _ hpart)
    cases parts with
    | nil =>
      simp only [List.map_cons, List.map_nil, List.intercalate_singleton,
        String.intercalate_singleton]
      exact hfirst rest out
    -- The first part and a separator, and then the other parts.
    | cons second parts =>
      simp only [List.map_cons, List.intercalate_cons_cons, String.intercalate_cons_cons,
        List.append_assoc, ← String.append_assoc] at hparts ⊢
      exact ((hfirst _ out).trans (reaches_text separator)).trans (hparts _)

/-- A value is written as its text, and the same scopes are open after it as before. -/
theorem reaches_of_writes {t : String} (h : s.Writes Store.Guarded opened v t) (rest : List Job)
    (out : String) : Reaches s ⟨value v :: rest, opened, out⟩ ⟨rest, opened, out ++ t⟩ := by
  -- By induction on the text, whatever is still to be done after it.
  induction h generalizing rest out with
  | @list around id head tail textOf _ ih =>
    have helement : ∀ w ∈ (Value.pair id head tail).items, ∀ rest out,
        Reaches s ⟨[value w] ++ rest, around, out⟩ ⟨rest, around, out ++ textOf w⟩ := ih
    have hitems := reaches_intercalate " " helement (text ")" :: rest) (out ++ "(")
    have hall := ((reaches_text "(").trans hitems).trans (reaches_text ")")
    exact reaches_begin (by simpa [begin, String.append_assoc] using hall)
  | quoted _ ih =>
    have hall := (reaches_text "'").trans (ih rest (out ++ "'"))
    exact reaches_begin (by simpa [begin, String.append_assoc] using hall)
  | @lambda around kind id params body scope t _ ih =>
    have hbody := ih (text ">" :: rest) (out ++ ("<" ++
      (Value.lambda kind id params body scope).tag.name ++ " " ++ Value.paramList params ++ " -> "))
    have hall := ((reaches_text _).trans hbody).trans (reaches_text ">")
    exact reaches_begin (by simpa [begin, String.append_assoc] using hall)
  | @seen around e hopen =>
    have hopen : e ∈ around := hopen
    exact reaches_begin (by simpa [begin, hopen] using reaches_text "<environment>")
  | @expanded around e textOf hnew _ ih =>
    have hentry : ∀ entry ∈ (s.bindings e).entries, ∀ rest out,
        Reaches s ⟨[text (entry.1 ++ "="), value entry.2] ++ rest, e :: around, out⟩
          ⟨rest, e :: around, out ++ (entry.1 ++ "=" ++ textOf entry.2)⟩ := by
      intro entry hentry rest out
      have hall := (reaches_text (entry.1 ++ "=")).trans
        (ih entry hentry rest (out ++ (entry.1 ++ "=")))
      simpa [String.append_assoc] using hall
    have hentries := reaches_intercalate ", " hentry (text "\x7d>" :: close :: rest)
      (out ++ "<environment \x7b")
    have hall := (((reaches_text "<environment \x7b").trans hentries).trans
      (reaches_text "\x7d>")).trans (reaches_close e)
    -- The scope entered is the first of the open ones, and closing it leaves the others.
    have hnew : e ∉ around := hnew
    exact reaches_begin (by simpa [begin, hnew, String.append_assoc] using hall)
  | _ => exact reaches_begin (reaches_text _)

/-- A writer does one thing only, so every state on the way leads on to the end. -/
theorem Reaches.of_reaches {opened : List ScopeId} (h : Reaches s w ⟨[], opened, out⟩)
    (h' : Reaches s w w') : Reaches s w' ⟨[], opened, out⟩ := by
  have hunique : Relator.RightUnique fun w w' : Writer => w.step s = some w' :=
    fun _ _ _ h₁ h₂ => Option.some.inj (h₁.symm.trans h₂)
  rcases Relation.ReflTransGen.total_of_right_unique hunique h h' with hback | hon
  · rcases Relation.ReflTransGen.cases_head hback with heq | ⟨w'', hstep, -⟩
    · rw [← heq]
      exact .refl
    · exact nomatch hstep
  · exact hon

end Writer

/-! ## Texts of values in a store -/

/-- Writing a value of a store comes to an end, with the text that is computed for it. On the way
    the open scopes are distinct, and each that is entered is added to them; after the value, and
    after every value inside scopes that are open, the same scopes are open as before. The text is
    the one in which a scope inside its own bindings is hidden and every other scope is written out;
    where no scope leads back to itself, it is the one in which no scope is hidden. -/
theorem writing_ends_and_hides_open_scopes (s : Store) (v : Value) (hs : s.Complete)
    (hv : s.Contains v) :
    (∀ w, Writer.Reaches s (.ofValue v) w →
      Writer.Reaches s w ⟨[], [], s.render v⟩ ∧ w.opened.Nodup ∧
        w.opened.length ≤ s.scopes.size ∧
        ∀ w', w.step s = some w' → w'.opened = w.opened ∨
          (∃ e, e ∉ w.opened ∧ w'.opened = e :: w.opened) ∨ ∃ e, w.opened = e :: w'.opened) ∧
      (∀ opened : List ScopeId, opened.Nodup → (∀ e ∈ opened, e < s.scopes.size) →
        ∃ text, s.Writes Store.Guarded opened v text ∧ ∀ agenda written,
          Writer.Reaches s ⟨.value v :: agenda, opened, written⟩
            ⟨agenda, opened, written ++ text⟩) ∧
      (∀ text, s.Writes Store.Guarded [] v text ↔ text = s.render v) ∧
      (s.Acyclic → ∀ text, s.Writes Store.Unguarded [] v text ↔ text = s.render v) := by
  have hwrites := Store.writes_render hs hv
  refine ⟨fun w hw => ?_, fun opened hnodup hexist => ?_, fun text => ?_, fun hacyclic text => ?_⟩
  -- The writer that starts on the value ends with its text.
  · have hend : Writer.Reaches s (.ofValue v) ⟨[], [], s.render v⟩ := by
      simpa [Writer.ofValue] using Writer.reaches_of_writes hwrites [] ""
    have hsound := (Writer.sound_ofValue hv).reaches hs hw
    exact ⟨hend.of_reaches hw, hsound.nodup, Store.length_le_size hsound.nodup hsound.exist,
      fun w' => hsound.opened_step⟩
  · obtain ⟨text, htext⟩ := Store.exists_writes hs hnodup hexist hv
    exact ⟨text, htext, Writer.reaches_of_writes htext⟩
  · refine ⟨fun h => h.unique hwrites, ?_⟩
    rintro rfl
    exact hwrites
  · have hunguarded := hwrites.unguarded hacyclic nofun
    refine ⟨fun h => h.unique hunguarded, ?_⟩
    rintro rfl
    exact hunguarded

/-- A scope that binds a value, and one inside it. -/
def nestedStore (v : Value) : Store where
  scopes := #[⟨none, NameMap.empty.insert "all" v⟩,
    ⟨some 0, NameMap.empty.insert "x" (.bool true)⟩]
  fresh := 4

/-- A list of the second scope twice, and of the first. -/
def nestedScopes (first : Value) : Value :=
  .pair 0 (.environment 1) (.pair 1 (.environment 1) (.pair 2 first .nil))

/-- The scopes that the list refers to are those two. -/
private theorem complete_nestedStore {first : Value}
    (hfirst : first.All (Value.RefersWithin .text (· < 2))) :
    (nestedStore (nestedScopes first)).Complete := by
  intro e name v hv
  have hmem := NameMap.find?_eq_some_iff_mem.1 hv
  match e with
  | 0 =>
    obtain ⟨-, rfl⟩ := Prod.mk.inj (List.mem_singleton.1 hmem)
    exact ⟨trivial, fun _ => Nat.one_lt_two, trivial, fun _ => Nat.one_lt_two, trivial, hfirst,
      trivial⟩
  | 1 =>
    obtain ⟨-, rfl⟩ := Prod.mk.inj (List.mem_singleton.1 hmem)
    exact trivial
  | _ + 2 => exact nomatch hmem

/-- Without the first scope in the list, no scope leads back to itself. -/
private theorem acyclic_nestedStore : (nestedStore (nestedScopes .nil)).Acyclic := by
  -- Each scope only shows later ones.
  have hup : ∀ e f, (nestedStore (nestedScopes .nil)).Shows e f → e < f := by
    rintro e f ⟨name, v, hv, hf⟩
    have hmem := NameMap.find?_eq_some_iff_mem.1 hv
    match e with
    | 0 =>
      obtain ⟨-, rfl⟩ := Prod.mk.inj (List.mem_singleton.1 hmem)
      cases hf with
      | element hw hf =>
        simp only [Value.items, List.mem_cons, List.not_mem_nil, or_false] at hw
        rcases hw with rfl | rfl | rfl <;> cases hf <;> exact Nat.one_pos
    | 1 =>
      obtain ⟨-, rfl⟩ := Prod.mk.inj (List.mem_singleton.1 hmem)
      cases hf
    | _ + 2 => exact nomatch hmem
  have hpath : ∀ e f, Relation.TransGen (nestedStore (nestedScopes .nil)).Shows e f → e < f := by
    intro e f h
    induction h with
    | single h => exact hup _ _ h
    | tail _ h ih => exact Nat.lt_trans ih (hup _ _ h)
  exact fun e h => Nat.lt_irrefl e (hpath e e h)

/-- The second scope is written out twice. Inside its own bindings the first one is hidden. -/
theorem writes_nestedStore :
    (nestedStore (nestedScopes (.environment 0))).Writes Store.Guarded [] (.environment 0)
        ("<environment \x7ball=(<environment \x7bx=#t\x7d> <environment \x7bx=#t\x7d> " ++
          "<environment>)\x7d>") ∧
      (nestedStore (nestedScopes .nil)).Acyclic ∧
      (nestedStore (nestedScopes .nil)).Writes Store.Unguarded [] (.environment 0)
        "<environment \x7ball=(<environment \x7bx=#t\x7d> <environment \x7bx=#t\x7d> ())\x7d>" := by
  obtain ⟨-, -, hguarded, -⟩ := writing_ends_and_hides_open_scopes
    (nestedStore (nestedScopes (.environment 0))) (.environment 0)
    (complete_nestedStore fun _ => Nat.two_pos) fun _ => Nat.two_pos
  obtain ⟨-, -, -, hunguarded⟩ := writing_ends_and_hides_open_scopes
    (nestedStore (nestedScopes .nil)) (.environment 0) (complete_nestedStore trivial)
    fun _ => Nat.two_pos
  exact ⟨(hguarded _).2 (by decide +kernel), acyclic_nestedStore,
    (hunguarded acyclic_nestedStore _).2 (by decide +kernel)⟩

end ScopeLisp
