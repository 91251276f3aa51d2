import ScopeLisp.Store.Basic

/-!
# Parts of values

`Value.All p v` says that `p` holds of `v` and of every value inside it: list elements and tails,
quoted values and the bodies of lambdas. What is demanded of values in a run is always of this
form, so taking a value apart keeps it and putting one together only asks about the new node.
-/

namespace ScopeLisp

namespace Value

variable {p q : Value → Prop}

/-- The condition holds of the value and of every value inside it. -/
def All (p : Value → Prop) : Value → Prop
  | pair id head tail => p (pair id head tail) ∧ head.All p ∧ tail.All p
  | quoted id inner => p (quoted id inner) ∧ inner.All p
  | lambda kind id params body scope => p (lambda kind id params body scope) ∧ body.All p
  | v => p v

instance decidableAll [DecidablePred p] : (v : Value) → Decidable (v.All p)
  | pair id head tail =>
    have := decidableAll head
    have := decidableAll tail
    inferInstanceAs (Decidable (p (pair id head tail) ∧ head.All p ∧ tail.All p))
  | quoted id inner =>
    have := decidableAll inner
    inferInstanceAs (Decidable (p (quoted id inner) ∧ inner.All p))
  | lambda kind id params body scope =>
    have := decidableAll body
    inferInstanceAs (Decidable (p (lambda kind id params body scope) ∧ body.All p))
  | nil => inferInstanceAs (Decidable (p nil))
  | bool b => inferInstanceAs (Decidable (p (bool b)))
  | number x => inferInstanceAs (Decidable (p (number x)))
  | string id text => inferInstanceAs (Decidable (p (string id text)))
  | symbol name => inferInstanceAs (Decidable (p (symbol name)))
  | native b => inferInstanceAs (Decidable (p (native b)))
  | environment e => inferInstanceAs (Decidable (p (environment e)))

/-- A condition everywhere in a value may be replaced by a weaker one. -/
theorem All.imp {v : Value} (h : v.All p) (hpq : ∀ w, p w → q w) : v.All q := by
  induction v with
  | pair id head tail ihh iht => exact ⟨hpq _ h.1, ihh h.2.1, iht h.2.2⟩
  | quoted id inner ih => exact ⟨hpq _ h.1, ih h.2⟩
  | lambda kind id params body scope ih => exact ⟨hpq _ h.1, ih h.2⟩
  | _ => exact hpq _ h

/-- What holds of all values holds everywhere in each of them. -/
theorem all_of_forall (h : ∀ w, p w) (v : Value) : v.All p := by
  induction v with
  | pair id head tail ihh iht => exact ⟨h _, ihh, iht⟩
  | quoted id inner ih => exact ⟨h _, ih⟩
  | lambda kind id params body scope ih => exact ⟨h _, ih⟩
  | _ => exact h _

/-- A condition everywhere in a list holds everywhere in its elements. -/
theorem All.of_mem_items {v w : Value} (h : v.All p) (hw : w ∈ v.items) : w.All p := by
  induction v with
  -- Only cells have elements: the head, and those of the tail.
  | pair id head tail ihh iht =>
    rcases List.mem_cons.1 hw with rfl | hw
    · exact h.2.1
    · exact iht h.2.2 hw
  | _ => exact nomatch hw

/-- The arguments that a callee receives are elements of its argument list. -/
theorem mem_items_of_expectArgs {n : Nat} {callee : String} {args : Value} {vs : Vector Value n}
    (h : args.expectArgs n callee = .ok vs) (i : Fin n) : vs.get i ∈ args.items := by
  unfold expectArgs at h
  dsimp only at h
  split at h
  -- The vector that the callee gets is made of the elements themselves.
  · obtain rfl := Except.ok.inj h
    rw [← List.mem_toArray]
    exact Array.getElem_mem _
  · exact nomatch h

end Value

end ScopeLisp
