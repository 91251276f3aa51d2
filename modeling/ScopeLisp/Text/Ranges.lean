/-!
# Ranges of code points

Properties of characters as tables of inclusive code point ranges. A table is in ascending order
and its ranges do not overlap, so that a search may end at the first range that begins too high;
`covers_iff` says that nothing is missed by that.
-/

namespace ScopeLisp.Text

/-- Whether inclusive ranges follow each other upwards, the first of them at `least` or above. -/
def ascendsFrom (least : Nat) : List (Nat × Nat) → Bool
  | [] => true
  | (low, high) :: rest => least ≤ low && low ≤ high && ascendsFrom (high + 1) rest

/-- Whether a number lies in one of the ranges, looking no further than the first range that begins
    above it. -/
def liesIn (n : Nat) : List (Nat × Nat) → Bool
  | [] => false
  | (low, high) :: rest => low ≤ n && (n ≤ high || liesIn n rest)

/-- No range of an ascending table begins below its start. -/
theorem le_of_ascendsFrom {least : Nat} {ranges : List (Nat × Nat)}
    (h : ascendsFrom least ranges = true) {r : Nat × Nat} (hr : r ∈ ranges) : least ≤ r.1 := by
  induction ranges generalizing least with
  | nil => cases hr
  | cons first rest ih =>
    simp only [ascendsFrom, Bool.and_eq_true, decide_eq_true_eq] at h
    rcases List.mem_cons.1 hr with rfl | hr
    · exact h.1.1
    · have := ih h.2 hr
      omega

/-- On ascending ranges the early end of the search misses nothing. -/
theorem liesIn_iff {least : Nat} {ranges : List (Nat × Nat)}
    (h : ascendsFrom least ranges = true) (n : Nat) :
    liesIn n ranges = true ↔ ∃ r ∈ ranges, r.1 ≤ n ∧ n ≤ r.2 := by
  induction ranges generalizing least with
  | nil => simp [liesIn]
  | cons first rest ih =>
    simp only [ascendsFrom, Bool.and_eq_true, decide_eq_true_eq] at h
    simp only [liesIn, Bool.and_eq_true, Bool.or_eq_true, decide_eq_true_eq, ih h.2,
      List.mem_cons, or_and_right, exists_or, exists_eq_left]
    -- A number below the first range is below all others, as these ascend.
    constructor
    · rintro ⟨hlow, hhigh | hrest⟩
      · exact .inl ⟨hlow, hhigh⟩
      · exact .inr hrest
    · rintro (⟨hlow, hhigh⟩ | ⟨r, hr, hlow, hhigh⟩)
      · exact ⟨hlow, .inl hhigh⟩
      · have := le_of_ascendsFrom h.2 hr
        exact ⟨by omega, .inr ⟨r, hr, hlow, hhigh⟩⟩

/-- A set of code points as inclusive ranges in ascending order. -/
structure CodePoints where
  /-- The lowest and the highest code point of each range. -/
  ranges : List (Nat × Nat)
  /-- Each range begins above the one before it. -/
  ascending : ascendsFrom 0 ranges = true := by decide +kernel

/-- Whether a character is in a set of code points. -/
def CodePoints.covers (points : CodePoints) (c : Char) : Bool :=
  liesIn c.toNat points.ranges

/-- The covered characters are those of the ranges. -/
theorem CodePoints.covers_iff (points : CodePoints) (c : Char) :
    points.covers c = true ↔ ∃ r ∈ points.ranges, r.1 ≤ c.toNat ∧ c.toNat ≤ r.2 :=
  liesIn_iff points.ascending c.toNat

end ScopeLisp.Text
