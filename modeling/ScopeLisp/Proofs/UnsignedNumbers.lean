import ScopeLisp.Proofs.ExpressionListing

/-!
# Numbers without a sign

No program makes a number that is negative or not a number. Numbers come from literals, which have
no sign, and from sums, which start at zero and count booleans as zero or one; a sum of numbers
without a sign has none, also where it is rounded or overflows to infinity. All other steps only
move numbers around, so a session that starts without a signed number never gets one.

The values that come up inside a run are covered by a watch that raises an alarm at a signed number:
whatever the alarm does, the run is the same.

## Key results

- `Double.IsUnsigned.add`: sums of unsigned numbers are unsigned
- `Double.IsUnsigned.equals_eq`, `Double.IsUnsigned.render_number`: equal unsigned numbers are the
  same, and unsigned numbers are written without a sign
- `Invariant.lawful_unsigned`: evaluation keeps numbers unsigned
- `session_numbers_unsigned`: all numbers of a session are unsigned
-/

namespace ScopeLisp

/-! ## Unsigned numbers -/

namespace Double

/-- A number with its sign bit clear: zero, a positive number or infinity. -/
def IsUnsigned (x : Double) : Prop :=
  x.isNaN = false ∧ x.negative = false

instance : DecidablePred IsUnsigned := fun x =>
  inferInstanceAs (Decidable (x.isNaN = false ∧ x.negative = false))

private theorem isUnsigned_zero : zero.IsUnsigned := by
  decide

private theorem isUnsigned_one : one.IsUnsigned := by
  decide

/-- A fraction without a sign is unsigned, however it is rounded. -/
private theorem isUnsigned_ofRatio (num den : Nat) : (ofRatio false num den).IsUnsigned :=
  ⟨isNaN_ofRatio false num den, rfl⟩

namespace IsUnsigned

variable {x y : Double}

/-- Without a sign, the exact value is not negative. -/
private theorem signedUnits_eq (h : x.IsUnsigned) : x.signedUnits = x.units := by
  simp [signedUnits, h.2]

/-- A sum of unsigned numbers is unsigned: there are no opposite infinities, and the exact sum that
    is rounded is not negative. -/
theorem add (hx : x.IsUnsigned) (hy : y.IsUnsigned) : (x.add y).IsUnsigned := by
  have hnan : (x.isNaN || y.isNaN) = false := by rw [hx.1, hy.1]; rfl
  have hopposite : (y.isInfinite && x.negative != y.negative) = false := by
    rw [hx.2, hy.2]
    simp
  have hsum : ¬ x.signedUnits + y.signedUnits < 0 := by
    rw [hx.signedUnits_eq, hy.signedUnits_eq]
    omega
  -- The cases of an addition: an infinite summand, an exact sum of zero, or a sum to be rounded.
  unfold Double.add
  simp only [hnan, hopposite, Bool.false_eq_true, if_false]
  split
  · exact hx
  · split
    · exact hy
    · split
      · rw [hx.2]
        exact isUnsigned_zero
      · rw [decide_eq_false hsum]
        exact isUnsigned_ofRatio _ _

end IsUnsigned

/-- Only zero counts no units. -/
private theorem isZero_of_units_eq_zero {x : Double} (h : x.units = 0) : x.isZero = true := by
  obtain ⟨q, hunits, hmagnitude⟩ := x.exists_units_eq
  have hlog : Nat.log2 0 - 52 = 0 := by decide
  rw [h, hlog, twoPow_zero, Nat.mul_one] at hunits
  rw [h, hlog, Nat.zero_mul, Nat.zero_add, ← hunits] at hmagnitude
  exact decide_eq_true hmagnitude.symm

/-- Unsigned numbers are zero, the positive numbers and infinity. -/
theorem isUnsigned_iff {x : Double} :
    x.IsUnsigned ↔ x = zero ∨ (x.isFinite = true ∧ 0 < x.signedUnits) ∨ x = infinity := by
  constructor
  · intro h
    -- An unsigned number is infinite, zero or positive.
    by_cases hinfinite : x.isInfinite = true
    · refine .inr (.inr ?_)
      have hmagnitude : x.magnitude = infinity.magnitude := Fin.ext (of_decide_eq_true hinfinite)
      exact congrArg₂ Double.mk h.2 hmagnitude
    · by_cases hunits : x.units = 0
      · have hmagnitude : x.magnitude = zero.magnitude :=
          Fin.ext (of_decide_eq_true (isZero_of_units_eq_zero hunits))
        exact .inl (congrArg₂ Double.mk h.2 hmagnitude)
      · refine .inr (.inl ⟨isFinite_of_not (Bool.eq_false_iff.1 h.1) hinfinite, ?_⟩)
        rw [h.signedUnits_eq]
        omega
  · rintro (rfl | ⟨hfinite, hpositive⟩ | rfl)
    · exact isUnsigned_zero
    · constructor
      · simp only [isFinite, isNaN, decide_eq_true_eq, decide_eq_false_iff_not] at hfinite ⊢
        omega
      · rw [Bool.eq_false_iff]
        intro hnegative
        rw [signedUnits, if_pos hnegative] at hpositive
        omega
    · decide

/-- Equal numbers without a sign are the same: there is one zero, and every number equals itself. -/
theorem IsUnsigned.equals_eq {x y : Double} (hx : x.IsUnsigned) (hy : y.IsUnsigned) :
    x.equals y = decide (x = y) := by
  by_cases hxy : x = y
  · subst hxy
    simp [equals, hx.1]
  -- Numbers that are equal but not the same would be zeros of different signs.
  · rw [decide_eq_false hxy, Bool.eq_false_iff]
    exact fun hequal => hxy (eq_of_equals hequal (hx.2.trans hy.2.symm))

end Double

/-- A decimal is written with digits and a point. -/
private theorem Decimal.mem_positional {d : Decimal} {c : Char} (h : c ∈ d.positional.toList) :
    c.isDigit = true ∨ c = '.' := by
  obtain ⟨-, hwhole, hfraction⟩ := d.isDigit_split
  unfold positional at h
  -- Without a fraction there is no point.
  split at h
  · next whole hsplit =>
    rw [String.toList_ofList] at h
    exact .inl (hwhole c (by rwa [hsplit]))
  · next whole fraction _ hsplit =>
    rw [String.toList_ofList] at h
    rcases List.mem_append.1 h with h | h
    · exact .inl (hwhole c (by rwa [hsplit]))
    · rcases List.mem_cons.1 h with h | h
      · exact .inr h
      · exact .inl (hfraction c (by rwa [hsplit]))

/-- An unsigned number is written with digits and a point, or as the word for infinity. -/
theorem Double.IsUnsigned.mem_text {x : Double} (h : x.IsUnsigned) {word : String} {c : Char}
    (hc : c ∈ (x.text word).toList) : c ∈ word.toList ∨ c.isDigit = true ∨ c = '.' := by
  simp only [text, h.1, h.2, Bool.false_eq_true, if_false, String.empty_append] at hc
  split at hc
  · exact .inl hc
  · exact .inr (Decimal.mem_positional hc)

/-- Wherever an unsigned number is written in a value, it is neither not-a-number nor has it a minus
    sign. -/
theorem Double.IsUnsigned.render_number {x : Double} (h : x.IsUnsigned)
    (scopeText : ScopeId → String) :
    (Value.number x).render scopeText ≠ "NaN" ∧
      '-' ∉ ((Value.number x).render scopeText).toList := by
  have hchar : ∀ c ∈ ((Value.number x).render scopeText).toList,
      c ∈ "Infinity".toList ∨ c.isDigit = true ∨ c = '.' := fun c hc => h.mem_text hc
  constructor
  · intro hnan
    rw [hnan] at hchar
    exact absurd (hchar 'N' (by decide)) (by decide)
  · exact fun hminus => absurd (hchar '-' hminus) (by decide)

/-! ## Values with unsigned numbers -/

namespace Value

/-- A number is unsigned; nothing is demanded of other parts of values. -/
def NumberUnsigned : Value → Prop
  | number x => x.IsUnsigned
  | _ => True

instance : DecidablePred NumberUnsigned
  | number x => inferInstanceAs (Decidable x.IsUnsigned)
  | nil | bool _ | string .. | symbol _ | pair .. | quoted .. | native _ | lambda ..
  | environment _ => inferInstanceAs (Decidable True)

/-- All numbers in the value are unsigned: in lists, in quotes and in the bodies of lambdas. -/
def NumbersUnsigned (v : Value) : Prop :=
  v.All NumberUnsigned

instance (v : Value) : Decidable v.NumbersUnsigned :=
  inferInstanceAs (Decidable (v.All NumberUnsigned))

end Value

/-! ## Evaluation keeps numbers unsigned -/

/-- Every number is unsigned. -/
def Invariant.unsigned : Invariant :=
  ofParts Value.NumberUnsigned

/-- Evaluation keeps numbers unsigned. -/
theorem Invariant.lawful_unsigned : unsigned.Lawful :=
  lawful_ofParts
    { scope_mono := fun _ _ => trivial
      scope_of_succ := fun _ _ => trivial
      part_mono := fun _ h => h
      part_nil := trivial
      part_bool := trivial
      part_string := trivial
      part_zero := Double.isUnsigned_zero
      part_one := Double.isUnsigned_one
      part_add := Double.IsUnsigned.add
      part_pair := fun _ => trivial
      part_echo := fun _ _ => trivial
      part_lambda := Iff.rfl
      part_environment := fun _ => trivial }

/-- A datum whose literals have no sign keeps the invariant. -/
theorem Datum.WellFormed.admitted_unsigned {d : Datum} (h : d.WellFormed)
    (hatoms : ∀ k ∈ d.atoms, k.IsUnsigned) : d.Admitted Invariant.unsigned.alone := by
  -- The literals are divided between the head and the tail.
  induction d with
  | number x => exact fun _ => hatoms (.number x) List.mem_cons_self
  | pair head tail ihh iht =>
    refine ⟨h.1, ihh h.2.1 fun k hk => ?_, iht h.2.2 fun k hk => ?_⟩
    · exact hatoms k (List.mem_append_left _ hk)
    · exact hatoms k (List.mem_append_right _ hk)
  | quoted inner ih => exact ⟨fun _ _ _ => trivial, ih h hatoms⟩
  | symbol name => exact fun _ => trivial
  | nil | string _ => trivial

/-- A datum that can be read has no signed literals. -/
private theorem Datum.Readable.admitted_unsigned {d : Datum} (h : d.Readable) :
    d.Admitted Invariant.unsigned.alone := by
  have hwellFormed := h.wellFormed
  obtain ⟨t, ks, t', hx, hlex⟩ := h
  exact hwellFormed.admitted_unsigned fun k hk => hlex.unsigned k (hx.mem_of_mem_atoms hk)

/-! ## Watching for signed numbers -/

/-- Whether all numbers in the bindings of a store are unsigned. -/
def Store.numbersUnsigned (s : Store) : Bool :=
  s.scopes.all fun scope => scope.bindings.entries.all fun entry => decide entry.2.NumbersUnsigned

/-- Raises an alarm at a value or an argument list with a signed number, and wherever a binding has
    one. -/
def Watch.signAlarmed (alarm : Value → EvalM Unit) : Watch :=
  let check v := do
    unless v.NumbersUnsigned ∧ (← get).store.numbersUnsigned do alarm v
  ⟨check, check⟩

/-- No alarm is raised where all numbers are unsigned. -/
private theorem Invariant.quiet_signAlarmed (alarm : Value → EvalM Unit) :
    unsigned.Quiet (.signAlarmed alarm) := by
  have hstore : ∀ {m : Machine}, unsigned.alone.Closed m.store →
      m.store.numbersUnsigned = true := by
    intro m hc
    refine (Store.all_bindings_iff (q := fun v => decide v.NumbersUnsigned)).2 ?_
    exact fun _ _ _ hv => decide_eq_true (hc.binding trivial hv)
  -- Values and argument lists are checked alike.
  have hquiet : ∀ {m : Machine} {v : Value}, unsigned.alone.Closed m.store → v.NumbersUnsigned →
      m.run ((Watch.signAlarmed alarm).value v) = (.ok (), m) := by
    intro m v hc hv
    simp [Watch.signAlarmed, Machine.run_bind, hv, hstore hc]
  exact ⟨fun _ hc hv => hquiet hc hv, fun _ hc hv _ => hquiet hc hv,
    fun _ hc hv => hquiet hc hv.2.2⟩

/-! ## Sessions -/

/-- A session starts without signed numbers. -/
private theorem Invariant.closed_unsigned_start (config : Config) :
    unsigned.alone.Closed (Machine.start .full config).store := by
  refine closed_ofParts_start config ?_ fun _ _ => trivial
  intro entry hentry
  simp only [Registry.constants, List.mem_cons, List.not_mem_nil, or_false] at hentry
  rcases hentry with rfl | rfl | rfl <;> trivial

/-- A program run on a machine without signed numbers keeps it so, and returns a value without any;
    none comes up on the way. -/
theorem Invariant.unsigned_execute {m : Machine} (hc : unsigned.alone.Closed m.store)
    (source : String) (alarm : Value → EvalM Unit) :
    m.run ((Watch.signAlarmed alarm).execute source) = m.run (execute source) ∧
      unsigned.Kept m.extent unsigned.alone.value (m.run (execute source)) :=
  lawful_unsigned.run_watch_execute (quiet_signAlarmed alarm) (fun _ _ => trivial)
    (fun _ => trivial) (fun _ hd => hd.admitted_unsigned) trivial hc source

/-- In every session with the builtins of the language, every number that is bound in a scope or
    part of the value of a program is unsigned: zero, positive or infinite. So is every number in a
    value that is read, in a value that an evaluation or a call returns and in an argument list
    that a builtin receives while a program runs, along with all bindings at that moment, among
    them the arguments of all other calls: a run that raises an alarm at a signed number is the
    same, whatever the alarm does. Unsigned numbers are written neither as not-a-number nor with a
    minus sign, and two of them are one and the same exactly if they are equal. -/
theorem session_numbers_unsigned (config : Config) (sources : List String) :
    let m := session .full config sources
    (∀ e name v, (m.store.bindings e).find? name = some v → v.NumbersUnsigned) ∧
      (∀ source v, (m.run (execute source)).1 = .ok v → v.NumbersUnsigned) ∧
      (∀ source (alarm : Value → EvalM Unit),
        m.run ((Watch.signAlarmed alarm).execute source) = m.run (execute source)) ∧
      (∀ x : Double, x.IsUnsigned ↔
        x = .zero ∨ (x.isFinite = true ∧ 0 < x.signedUnits) ∨ x = .infinity) ∧
      (∀ x : Double, x.IsUnsigned → ∀ scopeText,
        (Value.number x).render scopeText ≠ "NaN" ∧
          '-' ∉ ((Value.number x).render scopeText).toList) ∧
      ∀ x y : Double, x.IsUnsigned → y.IsUnsigned →
        (Value.number x).identical (.number y) = (Value.number x).equals (.number y) := by
  intro m
  have hclosed : Invariant.unsigned.alone.Closed m.store :=
    Invariant.closed_ofParts_after Invariant.lawful_unsigned
      (fun _ hd => hd.admitted_unsigned) (Invariant.closed_unsigned_start config) sources
  refine ⟨?_, ?_, ?_, ?_, ?_, ?_⟩
  · exact fun e name v hv => hclosed.binding trivial hv
  · intro source v hv
    exact (Invariant.unsigned_execute hclosed source fun _ => return).2.result v hv
  · exact fun source alarm => (Invariant.unsigned_execute hclosed source alarm).1
  · exact fun x => Double.isUnsigned_iff
  · exact fun x hx => hx.render_number
  · exact fun x y hx hy => (hx.equals_eq hy).symm

end ScopeLisp
