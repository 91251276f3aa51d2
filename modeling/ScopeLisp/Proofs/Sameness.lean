import ScopeLisp.Proofs.Parts

/-!
# Laws of sameness

Two values are identical if they are the same when what they contain is dropped (`Value.outline`),
and equal if they are the same when identities are dropped instead (`Value.form`), zeros lose their
sign, and no not-a-number is in the way. Both relations are thereby equality of something, so their
laws are those of equality; only an equality that not-a-number spoils is not reflexive.

Identical values are equal where an identity belongs to one value. A store sees to that: it gives
out each identity once, with the value that it is made for (`Store.HasMade`).

## Key results

- `Value.identical_iff`: identity is equality of outlines
- `Value.equals_iff`: equality is equality of forms, without not-a-number
- `Store.HasMade.settled`: in one store an identity belongs to one value
- `identity_and_equality_laws`: the laws of both relations, for all values made in a store
-/

namespace ScopeLisp

/-! ## Numbers -/

namespace Double

/-- The number with zeros told apart no longer. -/
def unsignedZero (x : Double) : Double :=
  if x.isZero then zero else x

/-- Zero stays zero. -/
private theorem isZero_unsignedZero (x : Double) : x.unsignedZero.isZero = x.isZero := by
  unfold unsignedZero
  split
  · next h => exact h.symm
  · rfl

/-- What is not a number stays so. -/
private theorem isNaN_unsignedZero (x : Double) : x.unsignedZero.isNaN = x.isNaN := by
  unfold unsignedZero
  split
  · next h =>
    -- Zero is a number, so nothing is lost where it replaces the other zero.
    have hzero : x.magnitude.val = 0 := by simpa [isZero] using h
    simp [isNaN, zero, hzero]
  · rfl

/-- Numbers are equal if they are the same up to the sign of zero, and not not-a-number. -/
theorem equals_iff {x y : Double} :
    x.equals y = true ↔ x.unsignedZero = y.unsignedZero ∧ x.isNaN = false := by
  simp only [equals, Bool.and_eq_true, Bool.not_eq_true', Bool.or_eq_true, decide_eq_true_eq]
  constructor
  · rintro ⟨⟨hx, -⟩, rfl | ⟨hzero, hzero'⟩⟩
    · exact ⟨rfl, hx⟩
    · exact ⟨by rw [unsignedZero, unsignedZero, if_pos hzero, if_pos hzero'], hx⟩
  · rintro ⟨heq, hx⟩
    refine ⟨⟨hx, ?_⟩, ?_⟩
    · rw [← isNaN_unsignedZero, ← heq, isNaN_unsignedZero, hx]
    · by_cases hzero : x.isZero = true
      · exact .inr ⟨hzero, by rw [← isZero_unsignedZero, ← heq, isZero_unsignedZero, hzero]⟩
      · have hzero' : ¬ y.isZero = true := by
          rwa [← isZero_unsignedZero, ← heq, isZero_unsignedZero]
        rw [unsignedZero, unsignedZero, if_neg hzero, if_neg hzero'] at heq
        exact .inl heq

end Double

namespace Value

/-! ## Identity -/

/-- The value without what it contains. -/
def outline : Value → Value
  | string id _ => string id ""
  | pair id _ _ => pair id nil nil
  | quoted id _ => quoted id nil
  | lambda kind id _ _ _ => lambda kind id [] nil 0
  | native b => native ⟨⟨"", "", b.kind, .any, .echo⟩, b.id⟩
  | v => v

/-- Identity is equality of outlines. -/
theorem identical_iff {v w : Value} : v.identical w = true ↔ v.outline = w.outline := by
  -- An outline tells the type of a value and what is compared, and nothing else.
  cases v <;> cases w <;> simp [identical, outline]

/-! ## Equality -/

/-- The value without identities, where zeros are told apart no longer. A lambda is told apart by
    nothing but its identity. -/
def form : Value → Value
  | number x => number x.unsignedZero
  | string _ text => string 0 text
  | pair _ head tail => pair 0 head.form tail.form
  | quoted _ inner => quoted 0 inner.form
  | v => v.outline

/-- Neither the value nor what lists and quotes in it contain is not-a-number. -/
def NaNFree : Value → Prop
  | number x => x.isNaN = false
  | pair _ head tail => head.NaNFree ∧ tail.NaNFree
  | quoted _ inner => inner.NaNFree
  | _ => True

/-- Dropping identities does not touch not-a-number. -/
private theorem nanFree_form (v : Value) : v.form.NaNFree ↔ v.NaNFree := by
  induction v with
  | number x => exact iff_of_eq (congrArg (· = false) x.isNaN_unsignedZero)
  | pair id head tail ihh iht => exact and_congr ihh iht
  | quoted id inner ih => exact ih
  | _ => exact Iff.rfl

/-- Equality is equality of forms, without not-a-number. -/
theorem equals_iff {v w : Value} : v.equals w = true ↔ v.form = w.form ∧ v.NaNFree := by
  -- By induction on the first value; the second one must be of the same type.
  induction v generalizing w with
  | number x =>
    cases w <;> simp [equals, identical, form, outline, NaNFree, Double.equals_iff]
  | pair id head tail ihh iht =>
    cases w with
    | pair id' head' tail' =>
      simp only [equals, form, NaNFree, Bool.and_eq_true, ihh, iht, pair.injEq, true_and]
      exact and_and_and_comm
    | _ => simp [equals, identical, form, outline]
  | quoted id inner ih =>
    cases w with
    | quoted id' inner' => simp only [equals, form, NaNFree, ih, quoted.injEq, true_and]
    | _ => simp [equals, identical, form, outline]
  | _ => cases w <;> simp [equals, identical, form, outline, NaNFree]

/-- A value equals itself if not-a-number is not in it. -/
private theorem equals_self_iff {v : Value} : v.equals v = true ↔ v.NaNFree := by
  rw [equals_iff, eq_self_iff_true, true_and]

/-- Equality is symmetric. -/
private theorem equals_symm {v w : Value} (h : v.equals w = true) : w.equals v = true := by
  obtain ⟨hform, hv⟩ := equals_iff.1 h
  refine equals_iff.2 ⟨hform.symm, ?_⟩
  rwa [← nanFree_form, ← hform, nanFree_form]

/-- Equality is transitive. -/
private theorem equals_trans {u v w : Value} (h : u.equals v = true) (h' : v.equals w = true) :
    u.equals w = true := by
  obtain ⟨hform, hu⟩ := equals_iff.1 h
  exact equals_iff.2 ⟨hform.trans (equals_iff.1 h').1, hu⟩

/-! ## Elements and contents -/

/-- What follows the head of a list is a list. -/
def TailIsList : Value → Prop
  | pair _ _ tail => tail.isList = true
  | _ => True

/-- Found in a value by going into elements of lists and contents of quotes, as often as may be. -/
inductive Inside (u : Value) : Value → Prop where
  | self : Inside u u
  | element {v w : Value} : w ∈ v.items → Inside u w → Inside u v
  | content {id : Identity} {inner : Value} : Inside u inner → Inside u (quoted id inner)

/-- Elements of a list without not-a-number are without it. -/
private theorem NaNFree.of_mem_items {v w : Value} (h : v.NaNFree) (hw : w ∈ v.items) :
    w.NaNFree := by
  induction v with
  | pair id head tail ihh iht =>
    rcases List.mem_cons.1 hw with rfl | hw
    · exact h.1
    · exact iht h.2 hw
  | _ => exact nomatch hw

/-- Where lists are proper, not-a-number is met by going into elements and contents. -/
theorem nanFree_iff {v : Value} (hv : v.All TailIsList) :
    v.NaNFree ↔ ∀ x, Inside (number x) v → x.isNaN = false := by
  constructor
  · intro h x hx
    clear hv
    -- Down the way on which the number is found.
    induction hx with
    | self => exact h
    | element hw _ ih => exact ih (h.of_mem_items hw)
    | content _ ih => exact ih h
  · intro h
    induction v with
    | number x => exact h x .self
    | pair id head tail ihh iht =>
      obtain ⟨hlist, hhead, htail⟩ := hv
      refine ⟨ihh hhead fun x hx => h x (.element List.mem_cons_self hx),
        iht htail fun x hx => ?_⟩
      -- The tail is a list, so what is inside it is inside one of its elements.
      cases hx with
      | self => exact nomatch hlist
      | element hw hx => exact h x (.element (List.mem_cons_of_mem _ hw) hx)
      | content hx => exact nomatch hlist
    | quoted id inner ih => exact ih hv.2 fun x hx => h x (.content hx)
    | _ => trivial

/-- Compares elements pairwise, up to the first difference or the end of both. -/
def equalInTurn : List Value → List Value → Bool
  | v :: vs, w :: ws => v.equals w && equalInTurn vs ws
  | [], [] => true
  | _, _ => false

/-- Proper lists are compared element by element. -/
private theorem equals_eq_equalInTurn {v w : Value} (hv : v.All TailIsList) (hw : w.All TailIsList)
    (hlist : v.isList = true) (hlist' : w.isList = true) :
    v.equals w = equalInTurn v.items w.items := by
  -- Along the tails of both lists, which end with the empty list.
  induction v generalizing w with
  | nil => cases w <;> first | rfl | exact nomatch hlist'
  | pair id head tail _ iht =>
    cases w with
    | nil => rfl
    | pair id' head' tail' =>
      exact congrArg (head.equals head' && ·) (iht hv.2.2 hw.2.2 hv.1 hw.1)
    | _ => exact nomatch hlist'
  | _ => exact nomatch hlist

/-- Going through two lists at once finds them equal if they are so at each place. -/
private theorem equalInTurn_iff {vs ws : List Value} :
    equalInTurn vs ws = true ↔ vs.length = ws.length ∧
      ∀ i (hi : i < vs.length) (hi' : i < ws.length), vs[i].equals ws[i] = true := by
  induction vs generalizing ws with
  | nil => cases ws <;> simp [equalInTurn]
  | cons v vs ih =>
    cases ws with
    | nil => simp [equalInTurn]
    | cons w ws =>
      simp only [equalInTurn, Bool.and_eq_true, ih, List.length_cons, Nat.add_right_cancel_iff]
      constructor
      · rintro ⟨hhead, hlength, hrest⟩
        refine ⟨hlength, fun i hi hi' => ?_⟩
        -- The first place is the heads; all others are places of the tails.
        cases i with
        | zero => exact hhead
        | succ i => exact hrest i (Nat.lt_of_succ_lt_succ hi) (Nat.lt_of_succ_lt_succ hi')
      · rintro ⟨hlength, h⟩
        exact ⟨h 0 (Nat.zero_lt_succ _) (Nat.zero_lt_succ _), hlength,
          fun i hi hi' => h (i + 1) (Nat.succ_lt_succ hi) (Nat.succ_lt_succ hi')⟩

end Value

/-! ## Values of one store -/

/-- What a store has given a value to tell it apart from others that look the same. -/
def Value.identity? : Value → Option Identity
  | .string id _ | .pair id _ _ | .quoted id _ | .lambda _ id _ _ _ => some id
  | _ => none

private theorem Value.identity?_outline (v : Value) : v.outline.identity? = v.identity? := by
  cases v <;> rfl

/-- Without identities from a store, values with the same outline have the same form: they are the
    same, or natives from one registration. -/
theorem Value.form_eq_of_outline_eq {v w : Value} (hplain : v.identity? = none)
    (h : v.outline = w.outline) : v.form = w.form := by
  cases v <;> cases w <;> simp_all [identity?, outline, form]

namespace Store

/-- The values have been made in a store one after the other, each from values made before it; what
    the store's scopes bind may have changed in any way. -/
inductive HasMade : Store → List Value → Prop where
  | start : HasMade .empty []
  | scopes {s : Store} {vs : List Value} (scopes : Array Scope) : HasMade s vs →
      HasMade { s with scopes } vs
  | plain {s : Store} {vs : List Value} {v : Value} : HasMade s vs → v.identity? = none →
      HasMade s (v :: vs)
  | string {s : Store} {vs : List Value} (text : String) : HasMade s vs →
      HasMade (s.newString text).2 ((s.newString text).1 :: vs)
  | pair {s : Store} {vs : List Value} {head tail : Value} : HasMade s vs → head ∈ vs →
      tail ∈ vs → tail.isList = true →
      HasMade (s.newPair head tail).2 ((s.newPair head tail).1 :: vs)
  | quoted {s : Store} {vs : List Value} {inner : Value} : HasMade s vs → inner ∈ vs →
      HasMade (s.newQuoted inner).2 ((s.newQuoted inner).1 :: vs)
  | lambda {s : Store} {vs : List Value} {body : Value} (kind : LambdaKind)
      (params : List String) (e : ScopeId) : HasMade s vs → body ∈ vs →
      HasMade (s.newLambda kind params body e).2 ((s.newLambda kind params body e).1 :: vs)

/-- Lists are proper, and an identity that was given out belongs to one value. -/
structure Settled (s : Store) (vs : List Value) : Prop where
  proper : ∀ v ∈ vs, v.All Value.TailIsList
  lt_fresh : ∀ v ∈ vs, ∀ id, v.identity? = some id → id < s.fresh
  eq_of_identity : ∀ v ∈ vs, ∀ w ∈ vs, ∀ id, v.identity? = some id → w.identity? = some id →
    v = w

/-- A value with the next identity joins those that were made before. -/
theorem Settled.cons {s t : Store} {vs : List Value} {v : Value} (h : s.Settled vs)
    (hproper : v.All Value.TailIsList) (hid : v.identity? = some s.fresh)
    (hfresh : t.fresh = s.fresh + 1) : t.Settled (v :: vs) := by
  -- No value made before has the new identity.
  have hnew : ∀ w ∈ vs, w.identity? ≠ some s.fresh := fun w hw hwid =>
    Nat.lt_irrefl _ (h.lt_fresh w hw _ hwid)
  refine ⟨List.forall_mem_cons.2 ⟨hproper, h.proper⟩, ?_, ?_⟩
  · intro w hw id hwid
    rw [hfresh]
    rcases List.mem_cons.1 hw with rfl | hw
    · exact Option.some.inj (hwid.symm.trans hid) ▸ Nat.lt_succ_self s.fresh
    · exact Nat.lt_succ_of_lt (h.lt_fresh w hw id hwid)
  · intro w hw u hu id hwid huid
    -- Both new, one of them new, or both made before.
    rcases List.mem_cons.1 hw with rfl | hw' <;> rcases List.mem_cons.1 hu with rfl | hu'
    · rfl
    · exact absurd (huid.trans (hwid.symm.trans hid)) (hnew u hu')
    · exact absurd (hwid.trans (huid.symm.trans hid)) (hnew w hw')
    · exact h.eq_of_identity w hw' u hu' id hwid huid

/-- A value without identity joins any others. -/
theorem Settled.cons_plain {s : Store} {vs : List Value} {v : Value} (h : s.Settled vs)
    (hplain : v.identity? = none) : s.Settled (v :: vs) := by
  -- Only the values made before have identities.
  have hold : ∀ w ∈ v :: vs, ∀ id, w.identity? = some id → w ∈ vs := by
    intro w hw id hwid
    rcases List.mem_cons.1 hw with rfl | hw
    · exact nomatch hplain.symm.trans hwid
    · exact hw
  refine ⟨List.forall_mem_cons.2 ⟨?_, h.proper⟩, ?_, ?_⟩
  · cases v <;> trivial
  · exact fun w hw id hwid => h.lt_fresh w (hold w hw id hwid) id hwid
  · exact fun w hw u hu id hwid huid =>
      h.eq_of_identity w (hold w hw id hwid) u (hold u hu id huid) id hwid huid

/-- In one store, an identity belongs to one value. -/
theorem HasMade.settled {s : Store} {vs : List Value} (h : s.HasMade vs) : s.Settled vs := by
  -- Making a value takes the next identity; nothing else changes who has which.
  induction h with
  | start => exact ⟨nofun, nofun, nofun⟩
  | scopes _ _ ih => exact ⟨ih.proper, ih.lt_fresh, ih.eq_of_identity⟩
  | plain _ hplain ih => exact ih.cons_plain hplain
  | string text _ ih => exact ih.cons trivial rfl rfl
  | pair _ hhead htail hlist ih =>
    exact ih.cons ⟨hlist, ih.proper _ hhead, ih.proper _ htail⟩ rfl rfl
  | quoted _ hinner ih => exact ih.cons ⟨trivial, ih.proper _ hinner⟩ rfl rfl
  | lambda kind params e _ hbody ih => exact ih.cons ⟨trivial, ih.proper _ hbody⟩ rfl rfl

/-- In one store, identical values are equal, unless not-a-number is in the way. -/
theorem Settled.equals_of_identical {s : Store} {vs : List Value} (h : s.Settled vs) {v w : Value}
    (hv : v ∈ vs) (hw : w ∈ vs) (hsame : v.identical w = true) (hfree : v.NaNFree) :
    v.equals w = true := by
  have houtline := Value.identical_iff.1 hsame
  have hidentity : v.identity? = w.identity? := by
    rw [← Value.identity?_outline, houtline, Value.identity?_outline]
  cases hid : v.identity? with
  | some id =>
    -- The identity belongs to one value.
    obtain rfl := h.eq_of_identity v hv w hw id hid (hidentity ▸ hid)
    exact Value.equals_self_iff.2 hfree
  | none => exact Value.equals_iff.2 ⟨Value.form_eq_of_outline_eq hid houtline, hfree⟩

end Store

/-- Identity is an equivalence, not-a-number included. Equality is symmetric and transitive. Among
    the values made in a store, a value is equal to itself exactly if it neither is nor holds
    not-a-number among elements of lists and contents of quotes, however deep; identical values
    without not-a-number are equal; and lists are equal exactly if going through both at once comes
    to the end of both with equal elements, that is, if they have the same length and equal elements
    at each place. -/
theorem identity_and_equality_laws {s : Store} {vs : List Value} (h : s.HasMade vs) :
    (Equivalence fun v w : Value => v.identical w = true) ∧
      (∀ v w : Value, v.equals w = true → w.equals v = true) ∧
      (∀ u v w : Value, u.equals v = true → v.equals w = true → u.equals w = true) ∧
      (∀ v ∈ vs, v.equals v = true ↔ ∀ x, (Value.number x).Inside v → x.isNaN = false) ∧
      (∀ v ∈ vs, ∀ w ∈ vs, v.identical w = true →
        (∀ x, (Value.number x).Inside v → x.isNaN = false) → v.equals w = true) ∧
      ∀ v ∈ vs, ∀ w ∈ vs, v.isList = true → w.isList = true →
        v.equals w = Value.equalInTurn v.items w.items ∧
          (Value.equalInTurn v.items w.items = true ↔ v.length = w.length ∧
            ∀ i (hi : i < v.items.length) (hi' : i < w.items.length),
              v.items[i].equals w.items[i] = true) := by
  have hsettled := h.settled
  -- In proper lists, not-a-number is found by going into elements and contents.
  have hself : ∀ v ∈ vs, v.equals v = true ↔
      ∀ x, (Value.number x).Inside v → x.isNaN = false := fun v hv =>
    Value.equals_self_iff.trans (Value.nanFree_iff (hsettled.proper v hv))
  refine ⟨?_, fun _ _ => Value.equals_symm, fun _ _ _ => Value.equals_trans, hself, ?_, ?_⟩
  · simp only [Value.identical_iff]
    exact ⟨fun _ => rfl, Eq.symm, Eq.trans⟩
  · intro v hv w hw hsame hfree
    exact hsettled.equals_of_identical hv hw hsame
      ((Value.nanFree_iff (hsettled.proper v hv)).2 hfree)
  · intro v hv w hw hlist hlist'
    exact ⟨Value.equals_eq_equalInTurn (hsettled.proper v hv) (hsettled.proper w hw) hlist hlist',
      Value.equalInTurn_iff⟩

/-- A list of not-a-number, and two lists that share their only element. -/
def sharingValues : List Value :=
  [.pair 3 (.string 1 "a") .nil, .pair 2 (.string 1 "a") .nil, .string 1 "a",
    .pair 0 (.number .nan) .nil, .nil, .number .nan]

/-- The values are made one after the other, from the last to the first. -/
private theorem hasMade_sharingValues : (⟨#[], 4⟩ : Store).HasMade sharingValues := by
  have hatoms : Store.empty.HasMade [.nil, .number .nan] := .plain (.plain .start rfl) rfl
  have hlist : (⟨#[], 1⟩ : Store).HasMade [.pair 0 (.number .nan) .nil, .nil, .number .nan] :=
    hatoms.pair (by decide) (by decide) rfl
  have hfirst : (⟨#[], 3⟩ : Store).HasMade sharingValues.tail :=
    (hlist.string "a").pair (by decide) (by decide) rfl
  exact hfirst.pair (by decide) (by decide) rfl

/-- The list of not-a-number is identical but not equal to itself; the lists that share their
    element are equal but not identical. -/
theorem laws_of_sharingValues :
    let list : Value := .pair 0 (.number .nan) .nil
    let first : Value := .pair 2 (.string 1 "a") .nil
    let second : Value := .pair 3 (.string 1 "a") .nil
    (⟨#[], 4⟩ : Store).HasMade sharingValues ∧ list.identical list = true ∧
      ¬ list.equals list = true ∧ first.equals second = true ∧ first.identical second = false := by
  obtain ⟨hidentical, -, -, hself, -, hlists⟩ := identity_and_equality_laws hasMade_sharingValues
  refine ⟨hasMade_sharingValues, hidentical.refl _, ?_, ?_, rfl⟩
  -- Equality with itself would rule out the number in the list.
  · intro hequal
    have hnan := (hself _ (by decide)).1 hequal .nan (.element List.mem_cons_self .self)
    exact absurd hnan (by decide)
  · obtain ⟨hturn, -⟩ := hlists (.pair 2 (.string 1 "a") .nil) (by decide)
      (.pair 3 (.string 1 "a") .nil) (by decide) rfl rfl
    exact hturn.trans (by decide)

end ScopeLisp
