import ScopeLisp.Json.Reader
import ScopeLisp.Json.Number
import ScopeLisp.Proofs.Decimals

/-!
# The range of numbers in JSON

A number that is read is finite: the digits are collected in a word, a product that is too large is
refused, and a quotient is no larger than what is divided. The last holds also with rounding, since
rounding keeps the order (`Double.magnitude_ofRatio_le`).

## Key results

- `Double.magnitude_ofRatio_le`: a fraction that is at most a double is rounded to at most that
  double
- `Numeral.isFinite_of_toDouble?`: a number that is read is finite
-/

namespace ScopeLisp

attribute [local irreducible] twoPow fivePow tenPow

/-! ## Rounding keeps the order -/

/-- Rounding does not pass a natural number that bounds the fraction. -/
private theorem roundHalfEven_le {num den k : Nat} (hden : 0 < den) (h : num ≤ k * den) :
    roundHalfEven num den ≤ k := by
  have hlow : num / den ≤ k := Nat.div_le_of_le_mul (by rwa [Nat.mul_comm])
  by_cases heq : num / den = k
  -- All of the bound is reached, so nothing is left to round up.
  · have hsplit := Nat.div_add_mod num den
    rw [heq, Nat.mul_comm] at hsplit
    have hrest : 2 * (num % den) < den := by omega
    simp only [roundHalfEven, if_pos hrest]
    exact hlow
  · simp only [roundHalfEven]
    split
    · omega
    · split
      · omega
      · omega

private theorem twoPow_le_twoPow {m n : Nat} (h : m ≤ n) : twoPow m ≤ twoPow n := by
  unfold twoPow
  exact Nat.pow_le_pow_right (by decide) h

private theorem lt_twoPow_log2_succ (n : Nat) : n < twoPow (n.log2 + 1) := by
  unfold twoPow
  exact Nat.lt_log2_self

/-- Binary logarithms grow with the number. -/
private theorem log2_le_log2 {m n : Nat} (h : m ≤ n) : m.log2 ≤ n.log2 := by
  by_cases hm : m = 0
  · rw [hm]
    exact Nat.zero_le _
  · exact le_log2_of_twoPow_le (Nat.le_trans (twoPow_log2_le hm) h)

namespace Double

/-- A significand has 53 bits, or is the power of two behind them if it is rounded up. -/
theorem roundHalfEven_le_twoPow (num : Nat) {den : Nat} (hden : 0 < den) :
    roundHalfEven num (den * twoPow ((num / den).log2 - 52)) ≤ twoPow 53 := by
  refine roundHalfEven_le (Nat.mul_pos hden (twoPow_pos _)) ?_
  have hlow : num / den < twoPow ((num / den).log2 + 1) := lt_twoPow_log2_succ _
  have hbits : twoPow ((num / den).log2 + 1) ≤ twoPow (53 + ((num / den).log2 - 52)) :=
    twoPow_le_twoPow (by omega)
  calc num ≤ den * (num / den + 1) := Nat.le_of_lt (Nat.lt_mul_div_succ num hden)
    _ ≤ den * twoPow (53 + ((num / den).log2 - 52)) := Nat.mul_le_mul_left _ (by omega)
    _ = twoPow 53 * (den * twoPow ((num / den).log2 - 52)) := by
      rw [twoPow_add, Nat.mul_left_comm]

/-- A fraction that is at most a double is rounded to at most that double. -/
theorem magnitude_ofRatio_le (x : Double) (negative : Bool) {num den : Nat} (hden : 0 < den)
    (h : num * twoPow 1074 ≤ x.units * den) :
    (ofRatio negative num den).magnitude.val ≤ x.magnitude.val := by
  obtain ⟨q, hunits, hmagnitude⟩ := x.exists_units_eq
  refine Nat.le_trans (Nat.min_le_left _ _) ?_
  rw [← hmagnitude]
  generalize num * twoPow 1074 = scaled at h ⊢
  have hquotient : scaled / den ≤ x.units := Nat.div_le_of_le_mul (by rwa [Nat.mul_comm])
  have hlog := Nat.sub_le_sub_right (log2_le_log2 hquotient) 52
  rcases Nat.eq_or_lt_of_le hlog with heq | hlt
  -- With the same exponent field the significands are compared.
  · have hround : roundHalfEven scaled (den * twoPow (x.units.log2 - 52)) ≤ q := by
      refine roundHalfEven_le (Nat.mul_pos hden (twoPow_pos _)) ?_
      calc scaled ≤ x.units * den := h
        _ = q * (den * twoPow (x.units.log2 - 52)) := by
          rw [Nat.mul_comm den, ← Nat.mul_assoc, ← hunits]
    rw [heq]
    omega
  -- With a smaller one even the largest significand stays below.
  · have hround := roundHalfEven_le_twoPow scaled hden
    have hne : x.units ≠ 0 := by
      rintro hzero
      rw [hzero] at hlt
      exact absurd hlt (Nat.not_lt_zero _)
    have hsignificand : twoPow 52 ≤ q := by
      have hlow := twoPow_log2_le hne
      have hsum : x.units.log2 = 52 + (x.units.log2 - 52) := by omega
      rw [hsum, twoPow_add] at hlow
      exact Nat.le_of_mul_le_mul_right (Nat.le_trans hlow (Nat.le_of_eq hunits)) (twoPow_pos _)
    have hfield : ((scaled / den).log2 - 52 + 1) * twoPow 52 ≤ (x.units.log2 - 52) * twoPow 52 :=
      Nat.mul_le_mul_right _ hlt
    have hdouble : twoPow 53 = twoPow 52 + twoPow 52 := twoPow_succ 52
    rw [Nat.succ_mul] at hfield
    omega

/-! ## Numbers in range -/

/-- A fraction that is at most a finite double is rounded to a finite one. -/
private theorem isFinite_ofRatio_of_le {x : Double} (hx : x.isFinite = true) (negative : Bool)
    {num den : Nat} (hden : 0 < den) (h : num * twoPow 1074 ≤ x.units * den) :
    (ofRatio negative num den).isFinite = true :=
  decide_eq_true (Nat.lt_of_le_of_lt (magnitude_ofRatio_le x negative hden h)
    (of_decide_eq_true hx))

/-- A product that is not too large is finite. -/
theorem isFinite_ofRatio_of_not_isInfinite {negative : Bool} {num den : Nat}
    (h : (ofRatio negative num den).isInfinite = false) :
    (ofRatio negative num den).isFinite = true := by
  have hle : (ofRatio negative num den).magnitude.val ≤ infinityMagnitude := Nat.min_le_right _ _
  exact decide_eq_true (Nat.lt_of_le_of_ne hle (of_decide_eq_false h))

/-- A word is at most `2 ^ 64`, which is a double. -/
theorem isFinite_ofNat {word : Nat} (h : word ≤ maxWord) : (ofNat word).isFinite = true := by
  have hbound : maxWord * twoPow 1074 ≤ (ofMagnitude false (1087 * twoPow 52)).units := by
    decide +kernel
  refine isFinite_ofRatio_of_le (x := ofMagnitude false (1087 * twoPow 52)) (by decide +kernel) _
    Nat.one_pos ?_
  rw [Nat.mul_one]
  exact Nat.le_trans (Nat.mul_le_mul_right _ h) hbound

/-- An integer other than zero is at least one after rounding, too. -/
theorem twoPow_le_units_ofRatio {num : Nat} (h : num ≠ 0) :
    twoPow 1074 ≤ (ofRatio false num 1).units := by
  have hscaled : twoPow 1074 ≤ num * twoPow 1074 :=
    Nat.le_mul_of_pos_left _ (Nat.pos_of_ne_zero h)
  -- Counted in the smallest doubles, one is the power 1074 of two.
  have hlog : 1074 ≤ (num * twoPow 1074).log2 := le_log2_of_twoPow_le hscaled
  have hround := twoPow_le_roundHalfEven
    (Nat.ne_of_gt (Nat.lt_of_lt_of_le (twoPow_pos _) hscaled)) (by omega)
  -- The exponent field is at least that of one.
  have hmagnitude : 1023 * twoPow 52 ≤ (ofRatio false num 1).magnitude.val := by
    have hfield : 1022 * twoPow 52 ≤ ((num * twoPow 1074).log2 - 52) * twoPow 52 :=
      Nat.mul_le_mul_right _ (by omega)
    simp only [ofRatio, ofMagnitude, Nat.div_one]
    refine Nat.le_min.2 ⟨?_, Nat.mul_le_mul_right _ (by decide)⟩
    omega
  have hexponent : 1023 ≤ (ofRatio false num 1).magnitude.val / twoPow 52 :=
    (Nat.le_div_iff_mul_le (twoPow_pos 52)).2 hmagnitude
  rw [units, if_neg (by omega)]
  calc twoPow 1074 = twoPow 52 * twoPow 1022 := twoPow_add 52 1022
    _ ≤ _ := Nat.mul_le_mul (Nat.le_add_right _ _) (twoPow_le_twoPow (by omega))

/-- A power of ten is at least one. -/
theorem twoPow_le_units_tenPow (n : Nat) : twoPow 1074 ≤ (ofDecimal ⟨1, (n : Int)⟩).units := by
  rw [ofDecimal_natCast, Nat.one_mul]
  exact twoPow_le_units_ofRatio (Nat.ne_of_gt (tenPow_pos n))

/-- A finite double over a power of ten is finite. -/
private theorem isFinite_overTenPow {x : Double} (hx : x.isFinite = true) (n : Nat) :
    (x.overTenPow n).isFinite = true := by
  have hpower := twoPow_le_units_tenPow n
  exact isFinite_ofRatio_of_le hx _ (Nat.lt_of_lt_of_le (twoPow_pos _) hpower)
    (Nat.mul_le_mul_left _ hpower)

/-- Dividing by a power of ten step by step stays finite. -/
private theorem isFinite_overTenPowStepwise {x : Double} (hx : x.isFinite = true) (fuel n : Nat) :
    (x.overTenPowStepwise fuel n).isFinite = true := by
  -- Each step divides by as large a power as there is; no quotient is larger than its dividend.
  induction fuel generalizing x n with
  | zero => exact hx
  | succ fuel ih =>
    rw [overTenPowStepwise]
    split
    · exact isFinite_overTenPow hx n
    · split
      · exact hx
      · exact ih (isFinite_overTenPow hx _) _

/-- What a finite double is scaled to is finite, if anything. -/
private theorem isFinite_of_scaleTen? {x y : Double} {e : Int} (hx : x.isFinite = true)
    (h : x.scaleTen? e = some y) : y.isFinite = true := by
  -- Upward the product is checked, downward there is nothing to check.
  cases e with
  | ofNat n =>
    simp only [scaleTen?] at h
    split at h
    · split at h
      · exact nomatch h
      · next hinfinite =>
        obtain rfl := Option.some.inj h
        exact isFinite_ofRatio_of_not_isInfinite (Bool.eq_false_iff.2 hinfinite)
    · split at h
      · obtain rfl := Option.some.inj h
        exact hx
      · exact nomatch h
  | negSucc n =>
    obtain rfl := Option.some.inj h
    exact isFinite_overTenPowStepwise hx _ _

end Double

namespace Json

/-- A digit is appended only if the word holds the result. -/
private theorem le_maxWord_of_appendDigit? {word word' : Nat} {d : Char}
    (h : appendDigit? word d = some word') : word' ≤ maxWord := by
  simp only [appendDigit?] at h
  split at h
  · next hle =>
    obtain rfl := Option.some.inj h
    exact hle
  · exact nomatch h

/-- The digits before the point are collected in a word. -/
private theorem word_collectWhole_le (ds : List Char) {word : Nat} (h : word ≤ maxWord) :
    (collectWhole word ds).word ≤ maxWord := by
  -- The first digit for which there is no room ends the collecting.
  induction ds generalizing word with
  | nil => exact h
  | cons d ds ih =>
    cases hd : appendDigit? word d with
    | some word' =>
      rw [collectWhole_of_some hd]
      exact ih (le_maxWord_of_appendDigit? hd)
    | none => rwa [collectWhole_of_none hd]

/-- The digits behind the point are collected in a word. -/
private theorem word_collectFraction_le (ds : List Char) {c : Collected} (h : c.word ≤ maxWord) :
    (collectFraction c ds).word ≤ maxWord := by
  induction ds generalizing c with
  | nil => exact h
  | cons d ds ih =>
    cases hd : appendDigit? c.word d with
    | some word' =>
      rw [collectFraction_of_some hd]
      exact ih (le_maxWord_of_appendDigit? hd)
    | none => rwa [collectFraction_of_none hd]

/-- What the exponent makes of a word is finite. -/
private theorem isFinite_of_applyExponent {c : Collected} {negative : Bool} {ds : List Char}
    {x : Double}
    (hc : c.word ≤ maxWord) (h : applyExponent c negative ds = some x) : x.isFinite = true := by
  simp only [applyExponent] at h
  split at h
  -- An exponent too large for the word gives zero or nothing.
  · split at h
    · obtain rfl := Option.some.inj h
      decide +kernel
    · exact nomatch h
  · exact Double.isFinite_of_scaleTen? (Double.isFinite_ofNat hc) h

/-- A number that is read is finite. -/
theorem Numeral.isFinite_of_toDouble? {n : Numeral} {x : Double} (h : n.toDouble? = some x) :
    x.isFinite = true := by
  have hword : (collectFraction (collectWhole 0 n.whole) (n.fraction.getD [])).word ≤ maxWord :=
    word_collectFraction_le _ (word_collectWhole_le _ (Nat.zero_le _))
  obtain ⟨y, hy, rfl⟩ : ∃ y, n.magnitude? = some y ∧ (if n.negative then y.neg else y) = x := by
    simpa [toDouble?, Option.bind_eq_some_iff] using h
  have hfinite : y.isFinite = true := by
    -- An exponent is applied to the word; without one, the digits behind the point divide it.
    simp only [magnitude?] at hy
    split at hy
    · exact isFinite_of_applyExponent hword hy
    · split at hy
      · obtain rfl := Option.some.inj hy
        exact Double.isFinite_ofNat hword
      · exact Double.isFinite_of_scaleTen? (Double.isFinite_ofNat hword) hy
  split
  · exact hfinite
  · exact hfinite

end Json

end ScopeLisp
