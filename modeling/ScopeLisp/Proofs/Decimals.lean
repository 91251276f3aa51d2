import Mathlib.Data.Nat.Prime.Basic
import ScopeLisp.Double.Text
import ScopeLisp.Proofs.LexemeEnds

/-!
# Numbers read back what was written

The text of a finite number is a numeral that reads as that number again, its sign aside. The
shortest decimal is chosen among those that read back, or is the exact expansion of the number,
which does; moving zeros into the exponent and writing all digits out do not change what is read.

All of this rests on two facts about rounding: a common factor of a fraction does not matter, and
a fraction that is a double needs no rounding.

## Key results

- `Double.ofRatio_mul`, `Double.magnitude_ofRatio_of_exact`: the two facts about rounding
- `Double.ofDecimal_shortest`: the shortest decimal of a finite number reads back
- `Decimal.scan?_numeral`, `Decimal.value_numeral`: a decimal written out is a numeral of the same
  value
-/

namespace ScopeLisp

/-! ## Rounding -/

theorem twoPow_pos (n : Nat) : 0 < twoPow n :=
  Nat.pow_pos (by decide)

theorem tenPow_pos (n : Nat) : 0 < tenPow n :=
  Nat.pow_pos (by decide)

theorem twoPow_zero : twoPow 0 = 1 := rfl

theorem twoPow_add (m n : Nat) : twoPow (m + n) = twoPow m * twoPow n :=
  Nat.pow_add 2 m n

/-- The next power of two is twice as large. -/
theorem twoPow_succ (n : Nat) : twoPow (n + 1) = twoPow n + twoPow n := by
  rw [twoPow_add]
  exact Nat.mul_two _

/-- A number below a power of two has a smaller logarithm. -/
private theorem log2_lt_of_lt_twoPow {n k : Nat} (hn : n ≠ 0) (h : n < twoPow k) : n.log2 < k :=
  (Nat.log2_lt hn).2 h

/-- A number between two powers of two has the lower one's exponent as its logarithm. -/
private theorem log2_eq_of_twoPow_le {n k : Nat} (hlow : twoPow k ≤ n)
    (hhigh : n < twoPow (k + 1)) :
    n.log2 = k :=
  (Nat.log2_eq_iff (Nat.ne_of_gt (Nat.lt_of_lt_of_le (twoPow_pos k) hlow))).2 ⟨hlow, hhigh⟩

/-- A number not below a power of two has a logarithm not below its exponent. -/
theorem le_log2_of_twoPow_le {n k : Nat} (h : twoPow k ≤ n) : k ≤ n.log2 :=
  (Nat.le_log2 (Nat.ne_of_gt (Nat.lt_of_lt_of_le (twoPow_pos k) h))).2 h

/-- A number is not below the power of two of its logarithm. -/
theorem twoPow_log2_le {n : Nat} (hn : n ≠ 0) : twoPow n.log2 ≤ n :=
  Nat.log2_self_le hn

private theorem log2_twoPow (n : Nat) : (twoPow n).log2 = n :=
  Nat.log2_two_pow

private theorem tenPow_zero : tenPow 0 = 1 := rfl

private theorem tenPow_succ (n : Nat) : tenPow (n + 1) = tenPow n * 10 := rfl

private theorem tenPow_le_tenPow {m n : Nat} (h : m ≤ n) : tenPow m ≤ tenPow n :=
  Nat.pow_le_pow_right (by decide) h

/-- A power of ten, as a product of a power of two and a power of five. -/
private theorem tenPow_eq (n : Nat) : tenPow n = twoPow n * fivePow n :=
  Nat.mul_pow 2 5 n

/-- The divisors of a power of two are powers of two. -/
private theorem exists_eq_twoPow_of_dvd {d n : Nat} (h : d ∣ twoPow n) : ∃ k, d = twoPow k := by
  obtain ⟨k, -, hk⟩ := (Nat.dvd_prime_pow Nat.prime_two).1 h
  exact ⟨k, hk⟩

/-- The largest finite number is less than `10 ^ 309`. -/
theorem twoPow_le_tenPow : twoPow 1024 ≤ tenPow 309 := by
  decide +kernel

attribute [local irreducible] twoPow fivePow tenPow

/-- A common factor does not change to which integer a fraction is rounded. -/
theorem roundHalfEven_mul (num den : Nat) {c : Nat} (hc : 0 < c) :
    roundHalfEven (num * c) (den * c) = roundHalfEven num den := by
  have hrest : 2 * (num * c % (den * c)) = 2 * (num % den) * c := by
    rw [Nat.mul_mod_mul_right, Nat.mul_assoc]
  simp only [roundHalfEven, Nat.mul_div_mul_right _ _ hc, hrest, Nat.mul_lt_mul_right hc]

/-- An integer is rounded to itself. -/
theorem roundHalfEven_self_mul (q : Nat) {den : Nat} (hden : 0 < den) :
    roundHalfEven (q * den) den = q := by
  simp [roundHalfEven, Nat.mul_div_cancel q hden, hden]

/-- Rounding does not go below the integer part. -/
private theorem div_le_roundHalfEven (num den : Nat) : num / den ≤ roundHalfEven num den := by
  simp only [roundHalfEven]
  -- It rounds down to that part or up from it.
  split
  · omega
  · split
    · omega
    · omega

namespace Double

/-- A common factor does not change to which double a fraction is rounded. -/
theorem ofRatio_mul (negative : Bool) (num den : Nat) {c : Nat} (hc : 0 < c) :
    ofRatio negative (num * c) (den * c) = ofRatio negative num den := by
  have hscaled : num * c * twoPow 1074 = num * twoPow 1074 * c := Nat.mul_right_comm ..
  have hden : ∀ shift, den * c * twoPow shift = den * twoPow shift * c :=
    fun shift => Nat.mul_right_comm ..
  simp only [ofRatio, hscaled, hden, Nat.mul_div_mul_right _ _ hc, roundHalfEven_mul _ _ hc]

/-- Nothing divided by something is zero. -/
private theorem ofRatio_zero {den : Nat} (hden : 0 < den) : ofRatio false 0 den = zero := by
  have hround : ∀ shift, roundHalfEven 0 (den * twoPow shift) = 0 := by
    intro shift
    have h := roundHalfEven_self_mul 0 (Nat.mul_pos hden (twoPow_pos shift))
    rwa [Nat.zero_mul] at h
  have hlog : Nat.log2 0 - 52 = 0 := by decide
  simp only [ofRatio, Nat.zero_mul, Nat.zero_div, hround, hlog, Nat.add_zero, ofMagnitude,
    zero, Nat.zero_min]

/-- The units of a number, taken apart as rounding does it: a significand and the exponent field
    that it is written below. -/
theorem exists_units_eq (x : Double) :
    ∃ q, x.units = q * twoPow (x.units.log2 - 52) ∧
      (x.units.log2 - 52) * twoPow 52 + q = x.magnitude.val := by
  have hsplit := Nat.div_add_mod x.magnitude.val (twoPow 52)
  have hfraction : x.magnitude.val % twoPow 52 < twoPow 52 := Nat.mod_lt _ (twoPow_pos 52)
  by_cases hzero : x.magnitude.val / twoPow 52 = 0
  · -- Below the first exponent there are only fraction bits.
    have hunits : x.units = x.magnitude.val % twoPow 52 := by
      simp only [units, hzero, if_true]
    have hshift : x.units.log2 - 52 = 0 := by
      by_cases hnil : x.units = 0
      · rw [hnil]
        rfl
      · have hlt : x.units.log2 < 52 := log2_lt_of_lt_twoPow hnil (hunits ▸ hfraction)
        omega
    rw [hzero, Nat.mul_zero, Nat.zero_add] at hsplit
    refine ⟨x.units, ?_, ?_⟩
    · rw [hshift, twoPow_zero, Nat.mul_one]
    · rw [hshift, Nat.zero_mul, Nat.zero_add, hunits, hsplit]
  · -- Above, the significand has one more bit, which is not written.
    obtain ⟨e, he⟩ := Nat.exists_eq_succ_of_ne_zero hzero
    have hunits : x.units = (twoPow 52 + x.magnitude.val % twoPow 52) * twoPow e := by
      simp only [units, he, if_neg (Nat.succ_ne_zero e)]
      rfl
    have hlow : twoPow (52 + e) ≤ x.units := by
      rw [hunits, twoPow_add]
      exact Nat.mul_le_mul_right _ (Nat.le_add_right _ _)
    have hhigh : x.units < twoPow (53 + e) := by
      rw [hunits, twoPow_add 53 e]
      refine Nat.mul_lt_mul_of_pos_right ?_ (twoPow_pos e)
      rw [twoPow_succ 52]
      omega
    have hlog := log2_eq_of_twoPow_le hlow (by rw [Nat.add_right_comm]; exact hhigh)
    have hshift : x.units.log2 - 52 = e := by omega
    rw [he, Nat.mul_comm, Nat.succ_mul, Nat.add_assoc] at hsplit
    rw [hshift]
    exact ⟨_, hunits, hsplit⟩

/-- A fraction that is a finite double needs no rounding. -/
theorem magnitude_ofRatio_of_exact {x : Double} (hx : x.isFinite = true) (negative : Bool)
    {num den : Nat} (hden : 0 < den) (h : num * twoPow 1074 = x.units * den) :
    (ofRatio negative num den).magnitude = x.magnitude := by
  obtain ⟨q, hunits, hmagnitude⟩ := x.exists_units_eq
  have hquotient : num * twoPow 1074 / den = x.units := by
    rw [h, Nat.mul_div_cancel _ hden]
  -- At this exponent the units are a whole number of steps, so nothing is rounded.
  have hround : roundHalfEven (num * twoPow 1074) (den * twoPow (x.units.log2 - 52)) = q := by
    have hexact : num * twoPow 1074 = q * (den * twoPow (x.units.log2 - 52)) := by
      rw [h, Nat.mul_comm den, ← Nat.mul_assoc, ← hunits]
    rw [hexact]
    exact roundHalfEven_self_mul q (Nat.mul_pos hden (twoPow_pos _))
  have hfinite : x.magnitude.val < infinityMagnitude := of_decide_eq_true hx
  apply Fin.ext
  simp only [ofRatio, ofMagnitude, hquotient, hround, hmagnitude]
  exact Nat.min_eq_left (Nat.le_of_lt hfinite)

/-- The significand of an integer has 53 bits if the integer has as many. -/
theorem twoPow_le_roundHalfEven {scaled : Nat} (hne : scaled ≠ 0) (hlog : 52 ≤ scaled.log2) :
    twoPow 52 ≤ roundHalfEven scaled (1 * twoPow (scaled.log2 - 52)) := by
  refine Nat.le_trans ?_ (div_le_roundHalfEven _ _)
  rw [Nat.one_mul, Nat.le_div_iff_mul_le (twoPow_pos _), ← twoPow_add]
  have hsum : 52 + (scaled.log2 - 52) = scaled.log2 := by omega
  rw [hsum]
  exact twoPow_log2_le hne

/-- Past the largest finite number lies infinity. -/
theorem ofRatio_eq_infinity {num : Nat} (h : twoPow 1024 ≤ num) :
    ofRatio false num 1 = infinity := by
  have hscaled : twoPow (1024 + 1074) ≤ num * twoPow 1074 := by
    rw [twoPow_add]
    exact Nat.mul_le_mul_right _ h
  generalize hs : num * twoPow 1074 = scaled at hscaled
  have hne : scaled ≠ 0 := Nat.ne_of_gt (Nat.lt_of_lt_of_le (twoPow_pos _) hscaled)
  have hlog : 1024 + 1074 ≤ scaled.log2 := le_log2_of_twoPow_le hscaled
  -- The significand keeps 53 bits, below an exponent field of at least 2046.
  have hround := twoPow_le_roundHalfEven hne (by omega)
  have hfield : 2046 * twoPow 52 ≤ (scaled.log2 - 52) * twoPow 52 :=
    Nat.mul_le_mul_right _ (by omega)
  simp only [ofRatio, infinity, ofMagnitude, hs, Nat.div_one, Nat.min_self, mk.injEq, true_and]
  apply Fin.ext
  refine Nat.min_eq_right ?_
  rw [infinityMagnitude, Nat.succ_mul 2046]
  omega

/-! ## Reading decimals -/

/-- A decimal without places behind the point is an integer, also where it is read as infinity
    without being multiplied out. -/
theorem ofDecimal_natCast (digits n : Nat) :
    ofDecimal ⟨digits, n⟩ = ofRatio false (digits * tenPow n) 1 := by
  show (if digits = 0 then zero else if 308 < n then infinity
    else ofRatio false (digits * tenPow n) 1) = _
  by_cases hzero : digits = 0
  · rw [if_pos hzero, hzero, Nat.zero_mul, ofRatio_zero Nat.one_pos]
  · rw [if_neg hzero]
    -- Beyond the largest exponent the number is infinite, and so would the product be.
    by_cases hlarge : 308 < n
    · rw [if_pos hlarge]
      have hpower : tenPow 309 ≤ tenPow n := tenPow_le_tenPow hlarge
      have hnum : tenPow n ≤ digits * tenPow n :=
        Nat.le_mul_of_pos_left _ (Nat.pos_of_ne_zero hzero)
      exact (ofRatio_eq_infinity (Nat.le_trans twoPow_le_tenPow (Nat.le_trans hpower hnum))).symm
    · rw [if_neg hlarge]

/-- A decimal with places behind the point is a fraction of a power of ten. -/
private theorem ofDecimal_neg (digits places : Nat) :
    ofDecimal ⟨digits, -(places : Int)⟩ = ofRatio false digits (tenPow places) := by
  cases places with
  | zero => exact (ofDecimal_natCast digits 0).trans (by rw [tenPow_zero, Nat.mul_one])
  | succ n => rfl

/-- A decimal has no sign. -/
@[simp] theorem negative_ofDecimal (d : Decimal) : (ofDecimal d).negative = false := by
  unfold ofDecimal
  split
  · split
    · rfl
    · split
      · rfl
      · rfl
  · rfl

/-- A zero at the end of the digits may go into the exponent. -/
theorem ofDecimal_mul_ten (digits : Nat) (exponent : Int) :
    ofDecimal ⟨digits * 10, exponent⟩ = ofDecimal ⟨digits, exponent + 1⟩ := by
  -- Before the point the zero is a factor of the integer; behind it, of numerator and denominator.
  cases exponent with
  | ofNat n =>
    show ofDecimal ⟨digits * 10, (n : Int)⟩ = ofDecimal ⟨digits, ((n + 1 : Nat) : Int)⟩
    rw [ofDecimal_natCast, ofDecimal_natCast, tenPow_succ, Nat.mul_assoc, Nat.mul_comm 10]
  | negSucc n =>
    have hexponent : Int.negSucc n + 1 = -(n : Int) := by omega
    rw [hexponent, ofDecimal_neg, show Int.negSucc n = -((n + 1 : Nat) : Int) from rfl,
      ofDecimal_neg, tenPow_succ, ofRatio_mul _ _ _ (by decide)]

/-- Moving zeros into the exponent does not change the value. -/
private theorem ofDecimal_trimUpTo (fuel : Nat) (d : Decimal) :
    ofDecimal (d.trimUpTo fuel) = ofDecimal d := by
  induction fuel generalizing d with
  | zero => rfl
  | succ fuel ih =>
    rw [Decimal.trimUpTo]
    split
    · next hten =>
      have hdigits : d.digits / 10 * 10 = d.digits := by omega
      rw [ih, ← ofDecimal_mul_ten, hdigits]
    · rfl

/-- Zeros at the end of the digits do not matter. -/
theorem ofDecimal_trim (d : Decimal) : ofDecimal d.trim = ofDecimal d := by
  unfold Decimal.trim
  -- Without digits the number is zero; otherwise zeros are taken off one by one.
  split
  · next hzero =>
    obtain ⟨digits, exponent⟩ := d
    obtain rfl : digits = 0 := hzero
    have hzero : ofDecimal ⟨0, 0⟩ = zero := rfl
    rw [hzero]
    cases exponent with
    | ofNat n => rfl
    | negSucc n => exact (ofRatio_zero (tenPow_pos (n + 1))).symm
  · exact ofDecimal_trimUpTo _ d

/-! ## The shortest decimal -/

/-- The absolute value of a number. -/
def abs (x : Double) : Double :=
  { x with negative := false }

/-- The expansion of a finite number has all its digits, so it reads back. -/
theorem readsBack_expansion {x : Double} (hx : x.isFinite = true) :
    x.readsBack x.expansion = true := by
  have hdvd := Nat.gcd_dvd_left x.units (twoPow 1074)
  have hdvd' := Nat.gcd_dvd_right x.units (twoPow 1074)
  generalize hg : Nat.gcd x.units (twoPow 1074) = g at hdvd hdvd'
  -- A divisor of a power of two is one, so the denominator is.
  obtain ⟨p, hden⟩ := exists_eq_twoPow_of_dvd (Nat.div_dvd_of_dvd hdvd')
  have hexpansion : x.expansion = ⟨x.units / g * fivePow p, -(p : Int)⟩ := by
    simp only [expansion, lowestTerms, hg, hden, log2_twoPow]
  rw [hexpansion]
  unfold readsBack
  rw [ofDecimal_neg]
  refine decide_eq_true (magnitude_ofRatio_of_exact hx false (tenPow_pos p) ?_)
  calc x.units / g * fivePow p * twoPow 1074
      = x.units / g * fivePow p * (twoPow p * g) := by rw [← hden, Nat.div_mul_cancel hdvd']
    _ = x.units / g * g * (twoPow p * fivePow p) := by
      rw [Nat.mul_comm (twoPow p) g, ← Nat.mul_assoc, Nat.mul_right_comm _ (fivePow p) g,
        Nat.mul_assoc, Nat.mul_comm (fivePow p)]
    _ = x.units * tenPow p := by rw [Nat.div_mul_cancel hdvd, tenPow_eq]

/-- A decimal is taken off the grid only if it reads back. -/
private theorem readsBack_of_onGrid? {tie : Tie} {x : Double} {e d : Decimal} {place : Nat}
    (h : x.onGrid? tie e place = some d) : x.readsBack d = true := by
  simp only [onGrid?] at h
  -- The neighbour below is looked at first; the one above is taken only if it reads back too.
  split at h
  · next hlow =>
    split at h
    · next hhigh =>
      obtain rfl := Option.some.inj h
      exact (Bool.and_eq_true_iff.1 hhigh).2
    · obtain rfl := Option.some.inj h
      exact hlow
  · split at h
    · next hhigh =>
      obtain rfl := Option.some.inj h
      exact hhigh
    · exact nomatch h

/-- The shortest decimal of a finite number reads back, its sign aside. -/
theorem ofDecimal_shortest (tie : Tie) {x : Double} (hx : x.isFinite = true) :
    ofDecimal (x.shortest tie) = x.abs := by
  have hreads : x.readsBack (x.shortest tie) = true := by
    unfold shortest
    dsimp only
    unfold readsBack
    rw [ofDecimal_trim]
    -- Either some number of digits is enough, or all of them are taken.
    cases hhit : (List.range x.expansion.length).findSome? fun count =>
        x.onGrid? tie x.expansion (x.expansion.length - 1 - count) with
    | none => exact readsBack_expansion hx
    | some d =>
      obtain ⟨count, -, hgrid⟩ := List.exists_of_findSome?_eq_some hhit
      exact readsBack_of_onGrid? hgrid
  have hmagnitude : (ofDecimal (x.shortest tie)).magnitude = x.magnitude :=
    of_decide_eq_true hreads
  calc ofDecimal (x.shortest tie)
      = ⟨(ofDecimal (x.shortest tie)).negative, (ofDecimal (x.shortest tie)).magnitude⟩ := rfl
    _ = x.abs := by rw [negative_ofDecimal, hmagnitude]; rfl

end Double

/-! ## Digits -/

namespace Numeral

/-- The digits of a number stand for it. -/
theorem ofDigits_toDigits (n : Nat) : ofDigits (Nat.toDigits 10 n) = n :=
  Nat.ofDigitChars_toDigits (by decide) (by decide)

/-- Zeros behind digits are factors of ten. -/
private theorem ofDigits_append_zeros (digits : List Char) (n : Nat) :
    ofDigits (digits ++ List.replicate n '0') = ofDigits digits * tenPow n := by
  induction n with
  | zero => rw [List.replicate_zero, List.append_nil, tenPow_zero, Nat.mul_one]
  | succ n ih =>
    have hlast : ∀ l : List Char, ofDigits (l ++ ['0']) = ofDigits l * 10 := by
      intro l
      simp only [ofDigits, Nat.ofDigitChars_append, Nat.ofDigitChars_cons, Nat.ofDigitChars_nil]
      omega
    rw [List.replicate_succ', ← List.append_assoc, hlast, ih, tenPow_succ, Nat.mul_assoc]

/-- Zeros in front of digits do not matter. -/
private theorem ofDigits_zeros_append (n : Nat) (digits : List Char) :
    ofDigits (List.replicate n '0' ++ digits) = ofDigits digits := by
  induction n with
  | zero => rfl
  | succ n ih => exact ih

/-- The digits of a number are digits. -/
theorem isDigit_toDigits (n : Nat) : ∀ c ∈ Nat.toDigits 10 n, c.isDigit = true :=
  fun _ hc => Nat.isDigit_of_mem_toDigits (by decide) (by decide) hc

/-- Digits alone are a numeral. -/
theorem scan?_digits {digits : List Char} (hne : digits ≠ [])
    (h : ∀ c ∈ digits, c.isDigit = true) :
    scan? digits = some (⟨digits, none, none⟩, []) := by
  obtain ⟨htake, hdrop⟩ := takeWhile_of_forall h
  simp [scan?, htake, hdrop, scanFraction, scanExponent, hne]

/-- Digits, a point and more digits are a numeral. -/
theorem scan?_fraction {whole fraction : List Char} (hne : whole ≠ [])
    (hwhole : ∀ c ∈ whole, c.isDigit = true) (hfraction : ∀ c ∈ fraction, c.isDigit = true) :
    scan? (whole ++ '.' :: fraction) = some (⟨whole, some fraction, none⟩, []) := by
  obtain ⟨htake, hdrop⟩ := takeWhile_of_forall hfraction
  have hpoint : ('.' : Char).isDigit = false := by decide
  simp [scan?, List.takeWhile_append_of_pos hwhole, List.dropWhile_append_of_pos hwhole, hpoint,
    scanFraction, htake, hdrop, scanExponent, hne]

end Numeral

/-! ## Writing decimals -/

namespace Decimal

/-- Digits before and after the point, as they are written. -/
theorem split_cases (d : Decimal) :
    (∃ n : Nat, d.exponent = n ∧
        d.split = (Nat.toDigits 10 d.digits ++ List.replicate n '0', [])) ∨
      ∃ (n zeros : Nat) (whole fraction : List Char), d.exponent = -((n + 1 : Nat) : Int) ∧
        d.split = (whole, fraction) ∧ whole ≠ [] ∧ fraction.length = n + 1 ∧
        whole ++ fraction = List.replicate zeros '0' ++ Nat.toDigits 10 d.digits := by
  cases hexponent : d.exponent with
  | ofNat n =>
    refine .inl ⟨n, rfl, ?_⟩
    unfold split
    rw [hexponent]
  | negSucc n =>
    -- Zeros are put in front until there is a digit before the point.
    let zeros := n + 2 - (Nat.toDigits 10 d.digits).length
    let padded := List.replicate zeros '0' ++ Nat.toDigits 10 d.digits
    have hlength : n + 2 ≤ padded.length := by
      simp only [padded, zeros, List.length_append, List.length_replicate]
      omega
    have hsplit : d.split = (padded.take (padded.length - (n + 1)),
        padded.drop (padded.length - (n + 1))) := by
      simp only [split, hexponent]
      exact List.splitAt_eq ..
    refine .inr ⟨n, zeros, _, _, rfl, hsplit, ?_, ?_, List.take_append_drop _ _⟩
    · apply List.ne_nil_of_length_pos
      rw [List.length_take]
      omega
    · rw [List.length_drop]
      omega

/-- The numeral that a decimal is written as. -/
def numeral (d : Decimal) : Numeral :=
  ⟨d.split.1, if d.split.2 = [] then none else some d.split.2, none⟩

/-- A decimal is written as the text of its numeral. -/
theorem toList_positional (d : Decimal) : d.positional.toList = d.numeral.text := by
  unfold positional numeral
  split
  · next whole hsplit => simp [hsplit, Numeral.text]
  · next whole fraction hne hsplit =>
    have hne : fraction ≠ [] := fun hnil => hne (by rw [hnil])
    simp [hsplit, Numeral.text, hne]

/-- Both sides of the point are digits, and there is at least one in front of it. -/
theorem isDigit_split (d : Decimal) :
    d.split.1 ≠ [] ∧ (∀ c ∈ d.split.1, c.isDigit = true) ∧
      ∀ c ∈ d.split.2, c.isDigit = true := by
  have hzeros : ∀ n, ∀ c ∈ List.replicate n '0', c.isDigit = true := by
    intro n c hc
    rw [List.eq_of_mem_replicate hc]
    decide
  have hdigits := Numeral.isDigit_toDigits d.digits
  -- An integer with zeros behind it, or digits on both sides with zeros before them.
  obtain ⟨n, -, hsplit⟩ | ⟨n, zeros, whole, fraction, -, hsplit, hne, -, happ⟩ := d.split_cases
  · rw [hsplit]
    refine ⟨?_, ?_, nofun⟩
    · simp [Nat.toDigits_ne_nil]
    · intro c hc
      rcases List.mem_append.1 hc with hc | hc
      · exact hdigits c hc
      · exact hzeros n c hc
  · have hall : ∀ c ∈ whole ++ fraction, c.isDigit = true := by
      intro c hc
      rw [happ] at hc
      rcases List.mem_append.1 hc with hc | hc
      · exact hzeros zeros c hc
      · exact hdigits c hc
    rw [hsplit]
    exact ⟨hne, fun c hc => hall c (List.mem_append_left _ hc),
      fun c hc => hall c (List.mem_append_right _ hc)⟩

/-- A decimal written out is a numeral to its end. -/
theorem scan?_numeral (d : Decimal) : Numeral.scan? d.numeral.text = some (d.numeral, []) := by
  obtain ⟨hne, hwhole, hfraction⟩ := d.isDigit_split
  unfold numeral
  split
  · simpa [Numeral.text] using Numeral.scan?_digits hne hwhole
  · simpa [Numeral.text] using Numeral.scan?_fraction hne hwhole hfraction

/-- Writing a decimal out does not change its value. -/
theorem value_numeral (d : Decimal) : d.numeral.value = Double.ofDecimal d := by
  obtain ⟨n, hexponent, hsplit⟩ |
      ⟨n, zeros, whole, fraction, hexponent, hsplit, -, hlength, happ⟩ :=
    d.split_cases
  · have hdecimal : d.numeral.decimal = ⟨d.digits * tenPow n, (0 : Nat)⟩ := by
      simp only [numeral, hsplit, Numeral.decimal, if_true, Option.getD_none, List.append_nil,
        Numeral.ofDigits_append_zeros, Numeral.ofDigits_toDigits]
      rfl
    rw [Numeral.value, hdecimal, Double.ofDecimal_natCast, tenPow_zero, Nat.mul_one,
      ← Double.ofDecimal_natCast, ← hexponent]
  -- As many places stand behind the point as the exponent is below zero.
  · have hne : fraction ≠ [] := List.ne_nil_of_length_pos (by omega)
    have hdecimal : d.numeral.decimal = ⟨d.digits, d.exponent⟩ := by
      simp only [numeral, hsplit, Numeral.decimal, if_neg hne, Option.getD_some, happ, hlength,
        Numeral.ofDigits_zeros_append, Numeral.ofDigits_toDigits, hexponent]
      rfl
    rw [Numeral.value, hdecimal]

end Decimal

end ScopeLisp
