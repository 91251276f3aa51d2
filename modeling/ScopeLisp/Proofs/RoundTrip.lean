import ScopeLisp.Proofs.Parsing
import ScopeLisp.Proofs.Rendering

/-!
# Reading back what was rendered

The text of a plain value is read back as a value equal to it exactly when it is readable: no
booleans, no number that needs a sign or a word, strings and symbols that can be written, and lists
and quotes nested no deeper than the parser goes.

One direction follows the value and derives its tokens by the grammar. For the other, what is read
back has the structure of the value, so its strings, symbols and nesting are those of the value.
That leaves the numbers. Every symbol of the datum that was read is a token, and so is every sign
and every word that a number was written with; since the value and the datum have the same symbols,
there are no such signs and words.

## Key results

- `Value.exists_expr`: the tokens of a readable value are an expression that denotes it
- `Datum.Matches.unsigned`: without symbols to spare, numbers have neither sign nor word
- `exists_parseSingle_render_iff`: exactly the readable values are read back
-/

namespace ScopeLisp

open Grammar

/-! ## Readable values -/

namespace Value

/-- No number that is infinite or not a number or has its sign bit set. -/
def IsUnsigned : Value → Prop
  | number x => x.isFinite = true ∧ x.negative = false
  | _ => True

/-- The largest number of lists and quotes around each other, an empty list counting as one. -/
def nesting : Value → Nat
  | nil => 1
  | pair _ head tail => max (head.nesting + 1) tail.nesting
  | quoted _ inner => inner.nesting + 1
  | _ => 0

/-- Conditions under which a plain value is read back from its text. -/
structure Readable (v : Value) : Prop where
  legible : v.All IsLegible
  unsigned : v.All IsUnsigned
  nesting_le : v.nesting ≤ maxNesting

instance : DecidablePred IsUnsigned
  | number x => inferInstanceAs (Decidable (x.isFinite = true ∧ x.negative = false))
  | nil | bool _ | string .. | symbol _ | pair .. | quoted .. | native _ | lambda ..
  | environment _ => inferInstanceAs (Decidable True)

instance (v : Value) : Decidable v.Readable :=
  decidable_of_iff (v.All IsLegible ∧ v.All IsUnsigned ∧ v.nesting ≤ maxNesting)
    ⟨fun h => ⟨h.1, h.2.1, h.2.2⟩, fun h => ⟨h.1, h.2, h.3⟩⟩

end Value

/-! ## Data that denote a value -/

namespace Datum

/-- The datum denotes a value equal to the given one. -/
inductive Matches : Datum → Value → Prop where
  | nil : Matches .nil .nil
  | number {x y : Double} : x.equals y = true → Matches (.number x) (.number y)
  | string (id : Identity) (text : String) : Matches (.string text) (.string id text)
  | symbol (name : String) : Matches (.symbol name) (.symbol name)
  | pair {d ds : Datum} {v vs : Value} (id : Identity) :
      Matches d v → Matches ds vs → Matches (.pair d ds) (.pair id v vs)
  | quoted {d : Datum} {v : Value} (id : Identity) :
      Matches d v → Matches (.quoted d) (.quoted id v)

/-- A datum that is loaded as an equal value denotes the value. -/
private theorem matches_of_equals_load {t : Store} {d : Datum} {v : Value}
    (h : (t.load d).1.equals v = true) : d.Matches v := by
  -- Equal values are built alike, so the value has to be of the same kind as the datum.
  induction d generalizing t v with
  | nil =>
    cases v with
    | nil => exact .nil
    | _ => exact nomatch h
  | number x =>
    cases v with
    | number y => exact .number h
    | _ => exact nomatch h
  | string text =>
    cases v with
    | string id text' =>
      obtain rfl : text = text' := of_decide_eq_true h
      exact .string id text
    | _ => exact nomatch h
  | symbol name =>
    cases v with
    | symbol name' =>
      obtain rfl : name = name' := of_decide_eq_true h
      exact .symbol name
    | _ => exact nomatch h
  | pair head tail ihh iht =>
    cases v with
    | pair id v vs =>
      have hparts : (t.load head).1.equals v = true ∧
          ((t.load head).2.load tail).1.equals vs = true := Bool.and_eq_true_iff.1 h
      exact .pair id (ihh hparts.1) (iht hparts.2)
    | _ => exact nomatch h
  | quoted inner ih =>
    cases v with
    | quoted id v => exact .quoted id (ih (t := t) h)
    | _ => exact nomatch h

/-- A datum that denotes a value is loaded as an equal value, whatever the store. -/
private theorem Matches.equals_load {d : Datum} {v : Value} (h : d.Matches v) (t : Store) :
    (t.load d).1.equals v = true := by
  -- The tail is loaded into the store that the head leaves.
  induction h generalizing t with
  | nil => rfl
  | number heq => exact heq
  | string id text => exact decide_eq_true rfl
  | symbol name => exact decide_eq_true rfl
  | @pair d ds v vs id _ _ ihd ihds =>
    show ((t.load d).1.equals v && ((t.load d).2.load ds).1.equals vs) = true
    rw [ihd t, ihds (t.load d).2]
    rfl
  | quoted id _ ih => exact ih t

/-! ## Nesting -/

/-- The largest number of lists and quotes around each other, an empty list counting as one. -/
def nesting : Datum → Nat
  | nil => 1
  | pair head tail => max (head.nesting + 1) tail.nesting
  | quoted inner => inner.nesting + 1
  | _ => 0

/-- A list is one level deeper than the deepest of its elements. -/
private theorem nesting_ofList_le {n : Nat} {ds : List Datum} (h : ∀ d ∈ ds, d.nesting ≤ n) :
    (ofList ds).nesting ≤ n + 1 := by
  induction ds with
  | nil =>
    simp only [ofList_nil, nesting]
    omega
  | cons d ds ih =>
    have hd := h d List.mem_cons_self
    have hds := ih fun d' hd' => h d' (List.mem_cons_of_mem _ hd')
    simp only [ofList_cons, nesting]
    omega

/-- A datum is nested as deeply as the value that it denotes. -/
private theorem Matches.nesting_eq {d : Datum} {v : Value} (h : d.Matches v) :
    d.nesting = v.nesting := by
  induction h with
  | nil | number _ | string _ _ | symbol _ => rfl
  | pair id _ _ ihd ihds => simp only [nesting, Value.nesting, ihd, ihds]
  | quoted id _ ih => simp only [nesting, Value.nesting, ih]

/-! ## Atoms -/

/-- The atoms of a datum from left to right, as tokens. -/
def atoms : Datum → List Token.Kind
  | nil => []
  | number x => [.number x]
  | string text => [.string text]
  | symbol name => [.symbol name]
  | pair head tail => head.atoms ++ tail.atoms
  | quoted inner => inner.atoms

/-- A value that equals a datum with atoms that can be written can be written itself. -/
theorem Matches.legible {d : Datum} {v : Value} (h : d.Matches v)
    (hd : ∀ k ∈ d.atoms, Lexeme.Legible k) : v.All Value.IsLegible := by
  induction h with
  | nil | number _ => trivial
  | string id text => exact hd (.string text) List.mem_cons_self
  | symbol name => exact hd (.symbol name) List.mem_cons_self
  | pair id _ _ ihd ihds =>
    refine ⟨trivial, ihd fun k hk => ?_, ihds fun k hk => ?_⟩
    · exact hd k (List.mem_append_left _ hk)
    · exact hd k (List.mem_append_right _ hk)
  | quoted id _ ih => exact ⟨trivial, ih hd⟩

end Datum

namespace Grammar

/-- The nesting of an expression bounds that of its datum. -/
theorem Expr.nesting_le {n : Nat} {ks : List Token.Kind} {d : Datum} (h : Expr n ks d) :
    d.nesting ≤ n := by
  -- Quotes and lists take one level each; the items of a list share it.
  induction h with
  | number x => exact Nat.zero_le _
  | string text => exact Nat.zero_le _
  | symbol name => exact Nat.zero_le _
  | quoted hw hx ih => exact Nat.succ_le_succ ih
  | empty hw => exact Nat.succ_le_succ (Nat.zero_le _)
  | list hw hx hitems hw' ih ihs =>
    apply Datum.nesting_ofList_le
    intro d hd
    rcases List.mem_cons.1 hd with rfl | hd
    · exact ih
    · obtain ⟨item, hitem, rfl⟩ := List.mem_map.1 hd
      exact ihs item hitem

private theorem OptBlank.filter_isAtom {ws : List Token.Kind} (h : OptBlank ws) :
    ws.filter Token.Kind.isAtom = [] := by
  cases h <;> rfl

/-- The atoms among the tokens of an expression are those of its datum. -/
theorem Expr.filter_isAtom {n : Nat} {ks : List Token.Kind} {d : Datum} (h : Expr n ks d) :
    ks.filter Token.Kind.isAtom = d.atoms := by
  -- Marks and blanks are left out of the count wherever they stand.
  have hmark : ∀ {k : Token.Kind} {ks : List Token.Kind}, k.isAtom = false →
      (k :: ks).filter Token.Kind.isAtom = ks.filter Token.Kind.isAtom := by
    intro k ks hk
    rw [List.filter_cons, hk]
    rfl
  -- By induction on the expression, and for a list on its items.
  induction h with
  | number x => rfl
  | string text => rfl
  | symbol name => rfl
  | quoted hw hx ih =>
    rw [hmark rfl, List.filter_append, hw.filter_isAtom, List.nil_append, ih]
    rfl
  | empty hw =>
    rw [hmark rfl, List.filter_append, hw.filter_isAtom]
    rfl
  | @list n ws ks ws' d items hw hx hitems hw' ih ihs =>
    have hseparated : (separated items).filter Token.Kind.isAtom =
        (Datum.ofList (items.map (·.2))).atoms := by
      clear hitems
      induction items with
      | nil => rfl
      | cons item items iht =>
        rw [separated_cons, hmark rfl, List.filter_append, ihs item List.mem_cons_self,
          iht fun i hi => ihs i (List.mem_cons_of_mem _ hi)]
        rfl
    rw [hmark rfl]
    simp only [List.filter_append, hw.filter_isAtom, hw'.filter_isAtom, ih, hseparated]
    rw [hmark rfl, List.filter_nil, List.nil_append, List.nil_append, List.append_nil]
    rfl

end Grammar

/-! ## Signs and words are symbols -/

/-- Whether a token is a symbol. -/
def Token.Kind.isSymbol : Token.Kind → Bool
  | symbol _ => true
  | _ => false

/-- Symbols are atoms, so they can be counted among the atoms. -/
private theorem Token.Kind.countP_isSymbol_filter_isAtom (ks : List Token.Kind) :
    (ks.filter isAtom).countP isSymbol = ks.countP isSymbol := by
  rw [List.countP_filter]
  congr 1
  funext k
  cases k <;> rfl

/-- A number written without symbols has neither sign nor word. -/
private theorem Double.unsigned_of_countP_kinds {x : Double}
    (h : x.kinds.countP Token.Kind.isSymbol = 0) : x.isFinite = true ∧ x.negative = false := by
  unfold kinds at h
  by_cases hnan : x.isNaN = true
  · rw [if_pos hnan] at h
    exact absurd h (by decide)
  · rw [if_neg hnan, List.countP_append, Nat.add_eq_zero_iff] at h
    -- The sign and the word for infinity are symbols, and neither is there.
    obtain ⟨hsign, hword⟩ := h
    constructor
    · by_cases hinf : x.isInfinite = true
      · rw [if_pos hinf] at hword
        exact absurd hword (by decide)
      · exact isFinite_of_not hnan hinf
    · by_cases hneg : x.negative = true
      · rw [if_pos hneg] at hsign
        exact absurd hsign (by decide)
      · simpa using hneg

namespace Value

/-- The rest of a list has the symbols of the list. -/
private theorem countP_kindsRest {v : Value} (h : v.isList = true) :
    v.kindsRest.countP Token.Kind.isSymbol = v.kinds.countP Token.Kind.isSymbol := by
  cases v with
  | nil => rfl
  | pair id head tail => simp [kinds, kindsRest, Token.Kind.isSymbol]
  | _ => exact absurd h Bool.false_ne_true

/-- The symbols of a list are those of its first element and of the rest. -/
private theorem countP_kinds_pair {id : Identity} {head tail : Value} (h : tail.isList = true) :
    (pair id head tail).kinds.countP Token.Kind.isSymbol =
      head.kinds.countP Token.Kind.isSymbol + tail.kinds.countP Token.Kind.isSymbol := by
  rw [← countP_kindsRest h]
  simp [kinds, Token.Kind.isSymbol]

end Value

namespace Datum

/-- The text of a value has at least the symbols of the value. -/
theorem Matches.countP_le {d : Datum} {v : Value} (h : d.Matches v) (hv : v.Plain) :
    d.atoms.countP Token.Kind.isSymbol ≤ v.kinds.countP Token.Kind.isSymbol := by
  induction h with
  | nil | number _ | string _ _ => exact Nat.zero_le _
  | symbol name => exact Nat.le_refl _
  | pair id _ _ ihd ihds =>
    rw [Value.countP_kinds_pair hv.1, atoms, List.countP_append]
    exact Nat.add_le_add (ihd hv.2.1) (ihds hv.2.2)
  | quoted id _ ih => exact ih hv.2

/-- If it has no others, its numbers are written without sign and word. -/
theorem Matches.unsigned {d : Datum} {v : Value} (h : d.Matches v) (hv : v.Plain)
    (hcount : v.kinds.countP Token.Kind.isSymbol ≤ d.atoms.countP Token.Kind.isSymbol) :
    v.All Value.IsUnsigned := by
  induction h with
  | nil | string _ _ | symbol _ => trivial
  | number heq => exact Double.unsigned_of_countP_kinds (Nat.le_zero.1 hcount)
  | pair id hd hds ihd ihds =>
    rw [Value.countP_kinds_pair hv.1, atoms, List.countP_append] at hcount
    -- Neither part has fewer symbols in its text, so neither has more.
    have hle := hd.countP_le hv.2.1
    have hle' := hds.countP_le hv.2.2
    exact ⟨trivial, ihd hv.2.1 (by omega), ihds hv.2.2 (by omega)⟩
  | quoted id _ ih => exact ⟨trivial, ih hv.2 hcount⟩

end Datum

/-! ## The two directions -/

/-- A number without sign and word is one token, and equal to itself. -/
private theorem Double.kinds_of_unsigned {x : Double} (hfinite : x.isFinite = true)
    (hsign : x.negative = false) : x.kinds = [.number x] ∧ x.equals x = true := by
  simp only [isFinite, decide_eq_true_eq] at hfinite
  have hnan : x.isNaN = false := decide_eq_false (by omega)
  have hinf : x.isInfinite = false := decide_eq_false (by omega)
  have habs : x.abs = x := by
    unfold abs
    rw [← hsign]
  constructor
  · simp [kinds, hnan, hinf, hsign, habs]
  · simp [equals, hnan]

/-- The tokens of a readable value are an expression that denotes it; those of the rest of a list
    are its further elements. -/
theorem Value.exists_expr {v : Value} (hv : v.Plain) (hl : v.All IsLegible)
    (hu : v.All IsUnsigned) :
    (∀ n, v.nesting ≤ n → ∃ d, Expr n v.kinds d ∧ d.Matches v) ∧
      (v.isList = true → ∀ n, v.nesting ≤ n + 1 → ∃ items, v.kindsRest = separated items ∧
        (∀ item ∈ items, Expr n item.1 item.2) ∧ (Datum.ofList (items.map (·.2))).Matches v) := by
  induction v with
  | nil =>
    constructor
    · intro n hn
      obtain ⟨m, rfl⟩ : ∃ m, n = m + 1 := ⟨n - 1, by simp only [nesting] at hn; omega⟩
      exact ⟨.nil, .empty .absent, .nil⟩
    · exact fun _ n _ => ⟨[], rfl, nofun, .nil⟩
  | bool b => exact hl.elim
  | number x =>
    obtain ⟨hkinds, heq⟩ := Double.kinds_of_unsigned hu.1 hu.2
    refine ⟨fun n _ => ⟨.number x, ?_, .number heq⟩, fun h => absurd h Bool.false_ne_true⟩
    rw [kinds, hkinds]
    exact .number x
  | string id text =>
    exact ⟨fun n _ => ⟨_, .string text, .string id text⟩, fun h => absurd h Bool.false_ne_true⟩
  | symbol name =>
    exact ⟨fun n _ => ⟨_, .symbol name, .symbol name⟩, fun h => absurd h Bool.false_ne_true⟩
  | pair id head tail ihh iht =>
    obtain ⟨hhead, -⟩ := ihh hv.2.1 hl.2.1 hu.2.1
    obtain ⟨-, htail⟩ := iht hv.2.2 hl.2.2 hu.2.2
    -- Inside the list there is room for one level less.
    have hparts : ∀ m, (pair id head tail).nesting ≤ m + 1 →
        (∃ d, Expr m head.kinds d ∧ d.Matches head) ∧ ∃ items, tail.kindsRest = separated items ∧
          (∀ item ∈ items, Expr m item.1 item.2) ∧
          (Datum.ofList (items.map (·.2))).Matches tail := by
      intro m hm
      simp only [nesting] at hm
      exact ⟨hhead m (by omega), htail hv.1 m (by omega)⟩
    constructor
    · intro n hn
      obtain ⟨m, rfl⟩ : ∃ m, n = m + 1 := ⟨n - 1, by simp only [nesting] at hn; omega⟩
      obtain ⟨⟨d, hx, hd⟩, items, hrest, hitems, hds⟩ := hparts m hn
      refine ⟨_, ?_, .pair id hd hds⟩
      rw [kinds, hrest]
      exact .list .absent hx hitems .absent
    · intro _ n hn
      obtain ⟨⟨d, hx, hd⟩, items, hrest, hitems, hds⟩ := hparts n hn
      refine ⟨(head.kinds, d) :: items, ?_, ?_, .pair id hd hds⟩
      · rw [kindsRest, hrest, separated_cons]
      · intro item hitem
        rcases List.mem_cons.1 hitem with rfl | hitem
        · exact hx
        · exact hitems item hitem
  -- A quote takes one level, like a list.
  | quoted id inner ih =>
    obtain ⟨hinner, -⟩ := ih hv.2 hl.2 hu.2
    refine ⟨fun n hn => ?_, fun h => absurd h Bool.false_ne_true⟩
    obtain ⟨m, rfl⟩ : ∃ m, n = m + 1 := ⟨n - 1, by simp only [nesting] at hn; omega⟩
    obtain ⟨d, hx, hd⟩ := hinner m (Nat.le_of_succ_le_succ hn)
    exact ⟨.quoted d, .quoted .absent hx, .quoted id hd⟩
  | native b => exact hv.elim
  | lambda kind id params body scope ih => exact hv.1.elim
  | environment e => exact hv.elim

/-- The text of a plain value is read as one expression, for a value equal to it, exactly when the
    value is readable. -/
theorem exists_parseSingle_render_iff (s t : Store) {v : Value} (hv : v.Plain) :
    (∃ d, parseSingle (s.render v) = .ok d ∧ (t.load d).1.equals v = true) ↔ v.Readable := by
  constructor
  · rintro ⟨d, hparse, heq⟩
    obtain ⟨ws, ks, ws', hw, hx, hw', hlex⟩ := (parseSingle_eq_ok_iff_lexes _ _).1 hparse
    have hd := Datum.matches_of_equals_load heq
    have hatoms : (ws ++ (ks ++ ws')).filter Token.Kind.isAtom = d.atoms := by
      rw [List.filter_append, List.filter_append, hw.filter_isAtom, hw'.filter_isAtom,
        hx.filter_isAtom, List.nil_append, List.append_nil]
    -- The atoms that were read could be written, and the value has the same ones.
    have hl : v.All Value.IsLegible := by
      apply hd.legible
      intro k hk
      rw [← hatoms] at hk
      exact hlex.legible k (List.mem_filter.1 hk).1
    -- So the tokens that were read are those of the value, and their symbols can be counted.
    rw [hlex.unique (s.lexes_render hv hl)] at hatoms
    have hcount : v.kinds.countP Token.Kind.isSymbol ≤ d.atoms.countP Token.Kind.isSymbol := by
      rw [← hatoms, Token.Kind.countP_isSymbol_filter_isAtom]
    refine ⟨hl, hd.unsigned hv hcount, ?_⟩
    rw [← hd.nesting_eq]
    exact hx.nesting_le
  -- A readable value is derived from its tokens, and what is derived is read.
  · intro h
    obtain ⟨d, hx, hd⟩ := (Value.exists_expr hv h.legible h.unsigned).1 maxNesting h.nesting_le
    have hlex : Lexes (s.render v).toList ([] ++ (v.kinds ++ [])) [] := by
      rw [List.nil_append, List.append_nil]
      exact s.lexes_render hv h.legible
    refine ⟨d, ?_, hd.equals_load t⟩
    exact (parseSingle_eq_ok_iff_lexes _ _).2 ⟨[], v.kinds, [], .absent, hx, .absent, hlex⟩

/-- The value with the text `'(x-1 "a b" () 1 '+)`. -/
def quotedList : Value :=
  .quoted 0 (.pair 1 (.symbol "x-1") (.pair 2 (.string 3 "a b") (.pair 4 .nil
    (.pair 5 (.number .one) (.pair 6 (.quoted 7 (.symbol "+")) .nil)))))

/-- This value is read back from its text. -/
theorem parseSingle_render_quotedList :
    quotedList.Plain ∧ ∃ d, parseSingle (Store.empty.render quotedList) = .ok d ∧
      (Store.empty.load d).1.equals quotedList = true :=
  ⟨by decide, (exists_parseSingle_render_iff .empty .empty (by decide)).2 (by decide)⟩

end ScopeLisp
