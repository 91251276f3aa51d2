/-!
# Maps from names

A map from names keeps its entries in ascending order of the names, by code points, so that
whatever is listed from it comes in a fixed order. Its view is `NameMap.find?`: two maps that find
the same are equal (`NameMap.ext_find?`), and `NameMap.find?_insert` says what insertion does
to it.
-/

namespace ScopeLisp

/-- A finite map from names, in ascending order of the names. -/
structure NameMap (α : Type) where
  entries : List (String × α)
  ordered : entries.Pairwise (·.1 < ·.1)

namespace NameMap

variable {α : Type}

/-- The map that binds nothing. -/
def empty : NameMap α := ⟨[], .nil⟩

/-- What is bound to a name. -/
def find? (m : NameMap α) (name : String) : Option α :=
  m.entries.lookup name

/-- Whether a name is bound. -/
def contains (m : NameMap α) (name : String) : Bool :=
  (m.find? name).isSome

/-- The bound names, in ascending order. -/
def names (m : NameMap α) : List String :=
  m.entries.map (·.1)

/-- The number of bound names. -/
def size (m : NameMap α) : Nat :=
  m.entries.length

/-- Puts an entry at its place, over any entry of the same name. -/
def insertEntry (name : String) (a : α) : List (String × α) → List (String × α)
  | [] => [(name, a)]
  | (other, b) :: rest =>
    if name < other then (name, a) :: (other, b) :: rest
    else if name = other then (name, a) :: rest
    else (other, b) :: insertEntry name a rest

/-- The order of names is total. -/
theorem lt_of_not_lt_of_ne {s t : String} (h : ¬ s < t) (hne : s ≠ t) : t < s := by
  refine Decidable.byContradiction fun h' => hne ?_
  exact String.le_antisymm (String.not_lt.1 h') (String.not_lt.1 h)

/-- An entry of the new list is the inserted one or an old one. -/
theorem mem_insertEntry {name : String} {a : α} {e : String × α} {l : List (String × α)}
    (h : e ∈ insertEntry name a l) : e = (name, a) ∨ e ∈ l := by
  induction l with
  | nil => simpa [insertEntry] using h
  | cons hd tl ih =>
    unfold insertEntry at h
    split at h
    -- Before the first entry, in the place of one with the name, or further back.
    · simpa using h
    · split at h
      · rcases List.mem_cons.1 h with h | h
        · exact .inl h
        · exact .inr (List.mem_cons_of_mem _ h)
      · rcases List.mem_cons.1 h with h | h
        · exact .inr (h ▸ List.mem_cons_self)
        · exact (ih h).imp_right (List.mem_cons_of_mem _)

/-- Insertion keeps the names in ascending order. -/
theorem ordered_insertEntry (name : String) (a : α) {l : List (String × α)}
    (h : l.Pairwise (·.1 < ·.1)) : (insertEntry name a l).Pairwise (·.1 < ·.1) := by
  induction l with
  | nil => simp [insertEntry]
  | cons hd tl ih =>
    obtain ⟨hhd, htl⟩ := List.pairwise_cons.1 h
    unfold insertEntry
    split
    -- The new name comes before the first one, and so before all of them.
    · next hlt =>
      refine List.pairwise_cons.2 ⟨fun e he => ?_, h⟩
      rcases List.mem_cons.1 he with rfl | he
      · exact hlt
      · exact String.lt_trans hlt (hhd e he)
    · split
      · next heq =>
        subst heq
        exact List.pairwise_cons.2 ⟨hhd, htl⟩
      -- It goes further back: the first name stays below everything behind it.
      · next hlt hne =>
        refine List.pairwise_cons.2 ⟨fun e he => ?_, ih htl⟩
        rcases mem_insertEntry he with rfl | he
        · exact lt_of_not_lt_of_ne hlt hne
        · exact hhd e he

/-- Binds a name, over what it was bound to before. -/
def insert (m : NameMap α) (name : String) (a : α) : NameMap α :=
  ⟨insertEntry name a m.entries, ordered_insertEntry name a m.ordered⟩

/-! ## Laws -/

/-- The empty map finds nothing. -/
@[simp] theorem find?_empty (name : String) : (empty : NameMap α).find? name = none := rfl

/-- A look-up takes the first entry of the name. -/
theorem lookup_cons_eq_ite (name key : String) (a : α) (l : List (String × α)) :
    ((key, a) :: l).lookup name = if name = key then some a else l.lookup name := by
  by_cases h : name = key
  · simp [h]
  · simp [List.lookup_cons, beq_eq_false_iff_ne.2 h, h]

/-- Insertion into a list of entries changes what is found under one name. -/
theorem lookup_insertEntry (name name' : String) (a : α) (l : List (String × α)) :
    (insertEntry name a l).lookup name' = if name' = name then some a else l.lookup name' := by
  induction l with
  | nil => simp [insertEntry, lookup_cons_eq_ite]
  | cons hd tl ih =>
    unfold insertEntry
    grind [lookup_cons_eq_ite]

/-- Insertion changes what is found under one name. -/
@[simp] theorem find?_insert (m : NameMap α) (name name' : String) (a : α) :
    (m.insert name a).find? name' = if name' = name then some a else m.find? name' :=
  lookup_insertEntry name name' a m.entries

/-- Insertion leaves the other names alone. -/
theorem find?_insert_of_ne (m : NameMap α) {name name' : String} (h : name' ≠ name) (a : α) :
    (m.insert name a).find? name' = m.find? name' := by
  simp [h]

/-- A name below all keys is not found. -/
theorem lookup_eq_none_of_forall_lt {name : String} {l : List (String × α)}
    (h : ∀ e ∈ l, name < e.1) : l.lookup name = none := by
  induction l with
  | nil => rfl
  | cons hd tl ih =>
    obtain ⟨key, a⟩ := hd
    have hne : name ≠ key := fun heq =>
      String.lt_irrefl name (heq ▸ h (key, a) List.mem_cons_self)
    rw [lookup_cons_eq_ite, if_neg hne]
    exact ih fun e he => h e (List.mem_cons_of_mem _ he)

/-- In an ordered list of entries, what is found under a name is the one entry of that name. -/
theorem lookup_eq_some_iff_mem {l : List (String × α)} (h : l.Pairwise (·.1 < ·.1))
    {name : String} {a : α} : l.lookup name = some a ↔ (name, a) ∈ l := by
  induction l with
  | nil => simp
  | cons hd tl ih =>
    obtain ⟨key, b⟩ := hd
    obtain ⟨hhd, htl⟩ := List.pairwise_cons.1 h
    rw [lookup_cons_eq_ite, List.mem_cons, ← ih htl]
    by_cases hname : name = key
    -- No later entry has the first name, because all of them are above it.
    · subst hname
      simp [lookup_eq_none_of_forall_lt hhd, eq_comm]
    · simp [hname]

/-- The entries are what is found. -/
theorem find?_eq_some_iff_mem {m : NameMap α} {name : String} {a : α} :
    m.find? name = some a ↔ (name, a) ∈ m.entries :=
  lookup_eq_some_iff_mem m.ordered

/-- The least key of one list of entries is not below that of another that finds the same. -/
theorem not_lt_of_lookup_eq {key key' : String} {a b : α} {l l' : List (String × α)}
    (hord : ((key', b) :: l').Pairwise (·.1 < ·.1))
    (h : ((key, a) :: l).lookup key = ((key', b) :: l').lookup key) : ¬ key < key' := by
  intro hlt
  have hnone : ((key', b) :: l').lookup key = none :=
    lookup_eq_none_of_forall_lt fun e he => by
      rcases List.mem_cons.1 he with rfl | he
      · exact hlt
      · exact String.lt_trans hlt ((List.pairwise_cons.1 hord).1 e he)
  rw [hnone, lookup_cons_eq_ite, if_pos rfl] at h
  exact nomatch h

/-- Two ordered lists of entries that find the same are equal. -/
theorem eq_of_lookup_eq {l l' : List (String × α)} (hl : l.Pairwise (·.1 < ·.1))
    (hl' : l'.Pairwise (·.1 < ·.1)) (h : ∀ name, l.lookup name = l'.lookup name) : l = l' := by
  induction l generalizing l' with
  | nil =>
    cases l' with
    | nil => rfl
    | cons hd tl =>
      obtain ⟨key, a⟩ := hd
      simpa using h key
  | cons hd tl ih =>
    obtain ⟨key, a⟩ := hd
    cases l' with
    | nil => simpa using h key
    | cons hd' tl' =>
      obtain ⟨key', b⟩ := hd'
      -- Each list finds the first name of the other, so neither of the two is below the other.
      have hkey : key = key' :=
        String.le_antisymm (String.not_lt.1 (not_lt_of_lookup_eq hl (h key').symm))
          (String.not_lt.1 (not_lt_of_lookup_eq hl' (h key)))
      subst hkey
      obtain ⟨hhd, htl⟩ := List.pairwise_cons.1 hl
      obtain ⟨hhd', htl'⟩ := List.pairwise_cons.1 hl'
      have hab : a = b := by simpa using h key
      subst hab
      -- The first entries agree, and their name is found in neither of the two tails.
      congr 1
      refine ih htl htl' fun name => ?_
      by_cases hname : name = key
      · subst hname
        rw [lookup_eq_none_of_forall_lt hhd, lookup_eq_none_of_forall_lt hhd']
      · simpa [lookup_cons_eq_ite, hname] using h name

/-- Maps that find the same are equal. -/
theorem ext_find? {m m' : NameMap α} (h : ∀ name, m.find? name = m'.find? name) : m = m' := by
  obtain ⟨l, hl⟩ := m
  obtain ⟨l', hl'⟩ := m'
  obtain rfl : l = l' := eq_of_lookup_eq hl hl' h
  rfl

end NameMap

end ScopeLisp
