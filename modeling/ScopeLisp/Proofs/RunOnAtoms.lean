import ScopeLisp.Proofs.Parsing

/-!
# Atoms that run into each other

Two atoms may follow each other without white space between them, as in `a"b"`. Inside a list such
a text is refused, since only white space lets a further element begin. Outside of all lists nothing
is demanded between two expressions, so there the text is read as if white space stood between the
atoms.

`balance` counts the lists that are open. `Walled` says of tokens inside a list that no atom runs
into another, and `Sealed` of an expression that outside of its lists an atom is its end.

## Key results

- `Expr.isSealed`: what comes before and after an atom of an expression
- `Program.runOn_iff`: atoms that run into each other, in terms of the same tokens set apart
- `parseAll_runOn_iff`: texts with atoms that run into each other
-/

namespace ScopeLisp

namespace Grammar

/-! ## Open lists -/

/-- How many more lists are opened than closed. -/
def balance : List Token.Kind → Int
  | [] => 0
  | .leftParen :: ks => 1 + balance ks
  | .rightParen :: ks => balance ks - 1
  | _ :: ks => balance ks

/-- Nothing opens no list. -/
@[simp] theorem balance_nil : balance [] = 0 := rfl

/-- An opening parenthesis opens a list. -/
@[simp] theorem balance_leftParen (ks : List Token.Kind) :
    balance (.leftParen :: ks) = 1 + balance ks := rfl

/-- A closing parenthesis closes a list. -/
@[simp] theorem balance_rightParen (ks : List Token.Kind) :
    balance (.rightParen :: ks) = balance ks - 1 := rfl

/-- A quote mark opens and closes nothing. -/
@[simp] theorem balance_quote (ks : List Token.Kind) : balance (.quote :: ks) = balance ks := rfl

/-- White space opens and closes nothing. -/
@[simp] theorem balance_blank (ks : List Token.Kind) : balance (.blank :: ks) = balance ks := rfl

/-- An atom opens and closes nothing. -/
private theorem balance_atom {a : Token.Kind} (ha : a.isAtom = true) (ks : List Token.Kind) :
    balance (a :: ks) = balance ks := by
  cases a with
  | string | number | symbol => rfl
  | _ => exact nomatch ha

/-- Lists opened in two stretches of tokens add up. -/
@[simp] theorem balance_append (ks ks' : List Token.Kind) :
    balance (ks ++ ks') = balance ks + balance ks' := by
  induction ks with
  | nil => simp
  | cons k ks ih =>
    cases k with
    | leftParen => simp only [List.cons_append, balance_leftParen, ih]; omega
    | rightParen => simp only [List.cons_append, balance_rightParen, ih]; omega
    | _ => exact ih

private theorem OptBlank.balance_eq {ws : List Token.Kind} (h : OptBlank ws) : balance ws = 0 := by
  cases h <;> rfl

/-- Further elements that close what they open. -/
private theorem balance_separated {items : List (List Token.Kind × Datum)}
    (h : ∀ item ∈ items, balance item.1 = 0) : balance (separated items) = 0 := by
  induction items with
  | nil => rfl
  | cons item items ih =>
    rw [separated_cons, balance_blank, balance_append, h item List.mem_cons_self,
      ih fun i hi => h i (List.mem_cons_of_mem _ hi), Int.add_zero]

/-- An expression closes all lists that it opens. -/
theorem Expr.balance_eq {n : Nat} {ks : List Token.Kind} {d : Datum} (h : Expr n ks d) :
    balance ks = 0 := by
  induction h with
  | number | string | symbol => rfl
  | quoted hw _ ih => simp [hw.balance_eq, ih]
  | empty hw => simp [hw.balance_eq]
  | list hw _ _ hw' ih ihs =>
    simp [hw.balance_eq, ih, balance_separated ihs, hw'.balance_eq]

/-! ## What stands beside an atom -/

/-- No atom is at the start. -/
def StartsApart (ks : List Token.Kind) : Prop :=
  ∀ b ∈ ks.head?, b.isAtom = false

/-- The start of two stretches is that of the first, or of the second if the first is empty. -/
private theorem StartsApart.append {ks ks' : List Token.Kind} (h : StartsApart ks)
    (h' : StartsApart ks') : StartsApart (ks ++ ks') := by
  cases ks with
  | nil => exact h'
  | cons k ks => exact h

/-- No atom is followed by another, and none comes when more lists are closed than opened. -/
def Walled (ks : List Token.Kind) : Prop :=
  ∀ p a t, ks = p ++ a :: t → a.isAtom = true → 0 ≤ balance p ∧ StartsApart t

/-- An atom comes behind a token that is none. -/
theorem eq_cons_of_cons_eq {k a : Token.Kind} {ks p t : List Token.Kind}
    (hk : k.isAtom = false) (ha : a.isAtom = true) (heq : k :: ks = p ++ a :: t) :
    ∃ p', p = k :: p' ∧ ks = p' ++ a :: t := by
  rcases List.cons_eq_append_iff.1 heq with ⟨-, hat⟩ | ⟨p', rfl, hks⟩
  · obtain ⟨rfl, -⟩ := List.cons.inj hat
    exact absurd ha (by simp [hk])
  · exact ⟨p', rfl, hks⟩

/-- A token other than an atom in front, if it does not close a list. -/
private theorem Walled.cons {k : Token.Kind} {ks : List Token.Kind} (h : Walled ks)
    (hk : k.isAtom = false) (hbalance : 0 ≤ balance [k]) : Walled (k :: ks) := by
  intro p a t heq ha
  obtain ⟨p', rfl, hks⟩ := eq_cons_of_cons_eq hk ha heq
  obtain ⟨hp, ht⟩ := h p' a t hks ha
  have happ := balance_append [k] p'
  rw [List.singleton_append] at happ
  exact ⟨by omega, ht⟩

/-- Two stretches, the second of which does not start with an atom. -/
private theorem Walled.append {ks ks' : List Token.Kind} (h : Walled ks) (h' : Walled ks')
    (hbalance : balance ks = 0) (hapart : StartsApart ks') : Walled (ks ++ ks') := by
  intro p a t heq ha
  rcases List.append_eq_append_iff.1 heq with ⟨p', rfl, hks'⟩ | ⟨q, rfl, hq⟩
  -- The atom stands in the second part, or at its end in the first.
  · obtain ⟨hp, ht⟩ := h' p' a t hks' ha
    rw [balance_append, hbalance]
    exact ⟨by omega, ht⟩
  · cases q with
    | nil =>
      obtain ⟨hp, ht⟩ := h' [] a t (by simpa using hq.symm) ha
      rw [List.append_nil] at hbalance
      exact ⟨by omega, ht⟩
    | cons k q =>
      obtain ⟨rfl, rfl⟩ := List.cons.inj hq
      obtain ⟨hp, ht⟩ := h p a q rfl ha
      exact ⟨hp, ht.append hapart⟩

/-- White space in front. -/
private theorem OptBlank.walled {ws ks : List Token.Kind} (h : OptBlank ws) (hks : Walled ks) :
    Walled (ws ++ ks) := by
  cases h with
  | absent => exact hks
  | present => exact hks.cons rfl (Int.le_refl 0)

/-- The end of a list holds no atom and does not start with one. -/
private theorem walled_close {ws : List Token.Kind} (h : OptBlank ws) :
    Walled (ws ++ [.rightParen]) ∧ StartsApart (ws ++ [.rightParen]) := by
  refine ⟨h.walled ?_, ?_⟩
  · intro p a t heq ha
    obtain ⟨p', -, hnil⟩ := eq_cons_of_cons_eq rfl ha heq
    exact absurd hnil (by simp)
  · cases h <;> simp [StartsApart, Token.Kind.isAtom]

/-- Further elements, and what closes the list behind them. -/
theorem walled_separated {items : List (List Token.Kind × Datum)} {ws : List Token.Kind}
    (hitems : ∀ item ∈ items, Walled item.1 ∧ balance item.1 = 0) (hw : OptBlank ws) :
    Walled (separated items ++ (ws ++ [.rightParen])) ∧
      StartsApart (separated items ++ (ws ++ [.rightParen])) := by
  -- Each element stands behind white space, so the one before it does not run into it.
  induction items with
  | nil => exact walled_close hw
  | cons item items ih =>
    obtain ⟨hwalled, hapart⟩ := ih fun i hi => hitems i (List.mem_cons_of_mem _ hi)
    obtain ⟨hitem, hbalance⟩ := hitems item List.mem_cons_self
    rw [separated_cons, List.cons_append, List.append_assoc]
    exact ⟨(hitem.append hwalled hbalance hapart).cons rfl (Int.le_refl 0), by
      simp [StartsApart, Token.Kind.isAtom]⟩

/-- An atom is the last token, with no list open, or it stands in a list and is not followed by an
    atom. -/
def Sealed (ks : List Token.Kind) : Prop :=
  ∀ p a t, ks = p ++ a :: t → a.isAtom = true →
    (t = [] ∧ balance p = 0) ∨ (0 < balance p ∧ StartsApart t)

/-- An expression holds no atoms that run into each other. -/
private theorem Sealed.walled {ks : List Token.Kind} (h : Sealed ks) : Walled ks := by
  intro p a t heq ha
  rcases h p a t heq ha with ⟨rfl, hp⟩ | ⟨hp, ht⟩
  · exact ⟨by omega, nofun⟩
  · exact ⟨by omega, ht⟩

/-- A single token is sealed: nothing comes after it. -/
private theorem sealed_singleton (k : Token.Kind) : Sealed [k] := by
  intro p a t heq _
  rcases List.append_eq_singleton_iff.1 heq.symm with ⟨rfl, ht⟩ | ⟨-, ht⟩
  · exact .inl ⟨(List.cons.inj ht).2, rfl⟩
  · exact nomatch ht

/-- A quote mark or white space in front. -/
private theorem Sealed.cons {k : Token.Kind} {ks : List Token.Kind} (h : Sealed ks)
    (hk : k.isAtom = false) (hbalance : balance [k] = 0) : Sealed (k :: ks) := by
  intro p a t heq ha
  obtain ⟨p', rfl, hks⟩ := eq_cons_of_cons_eq hk ha heq
  have happ := balance_append [k] p'
  rw [List.singleton_append, hbalance, Int.zero_add] at happ
  rw [happ]
  exact h p' a t hks ha

/-- Between the parentheses of a list every atom stands in a list. -/
private theorem Walled.sealed_list {ks : List Token.Kind} (h : Walled ks) :
    Sealed (.leftParen :: ks) := by
  intro p a t heq ha
  obtain ⟨p', rfl, hks⟩ := eq_cons_of_cons_eq rfl ha heq
  obtain ⟨hp, ht⟩ := h p' a t hks ha
  rw [balance_leftParen]
  exact .inr ⟨by omega, ht⟩

/-- An atom of an expression is its last token or stands in a list. -/
theorem Expr.isSealed {n : Nat} {ks : List Token.Kind} {d : Datum} (h : Expr n ks d) :
    Sealed ks := by
  -- Outside of lists an atom is the whole expression, behind quote marks perhaps.
  induction h with
  | number | string | symbol => exact sealed_singleton _
  | quoted hw _ ih =>
    cases hw with
    | absent => exact ih.cons rfl rfl
    | present => exact (ih.cons rfl rfl).cons rfl rfl
  | empty hw => exact (walled_close hw).1.sealed_list
  | list hw hx hs hw' ih ihs =>
    obtain ⟨hrest, hapart⟩ := walled_separated
      (fun item hi => ⟨(ihs item hi).walled, (hs item hi).balance_eq⟩) hw'
    exact (hw.walled (ih.walled.append hrest hx.balance_eq hapart)).sealed_list

/-! ## Atoms side by side -/

/-- An atom behind optional white space is none of that white space. -/
private theorem OptBlank.eq_append_of_append_eq {ws r p t : List Token.Kind} {a : Token.Kind}
    (h : OptBlank ws) (ha : a.isAtom = true) (heq : ws ++ r = p ++ a :: t) :
    ∃ p', p = ws ++ p' ∧ r = p' ++ a :: t := by
  cases h with
  | absent => exact ⟨p, rfl, heq⟩
  | present => exact eq_cons_of_cons_eq rfl ha heq

/-- Where an atom stands there is no white space. -/
private theorem head?_ne_blank_of_atom {b : Token.Kind} (hb : b.isAtom = true)
    (q : List Token.Kind) :
    (b :: q).head? ≠ some .blank := by
  rintro heq
  obtain rfl : b = .blank := by simpa using heq
  exact nomatch hb

/-- Outside of lists the white space between two atoms does not matter. Inside a list there is
    some. -/
theorem Sequence.between_atoms {ks p ws q : List Token.Kind} {ds : List Datum} {a b : Token.Kind}
    (h : Sequence ks ds) (ha : a.isAtom = true) (hb : b.isAtom = true) (hw : OptBlank ws)
    (heq : ks = p ++ a :: (ws ++ b :: q)) (hside : ws = [] ∨ balance p = 0) :
    balance p = 0 ∧ ∀ {ws'}, OptBlank ws' → Sequence (p ++ a :: (ws' ++ b :: q)) ds := by
  induction h generalizing p with
  | nil => simp at heq
  | @cons ks ws₁ rest d ds hx hw₁ hrest ih =>
    -- Behind the first expression the white space is skipped and the rest holds the atoms.
    have hlater : ∀ p', p = ks ++ p' → ws₁ ++ rest = p' ++ a :: (ws ++ b :: q) →
        balance p = 0 ∧ ∀ {ws'}, OptBlank ws' →
          Sequence (p ++ a :: (ws' ++ b :: q)) (d :: ds) := by
      rintro p' rfl heq'
      obtain ⟨p'', rfl, hrest'⟩ := hw₁.eq_append_of_append_eq ha heq'
      have hbalance : balance (ks ++ (ws₁ ++ p'')) = balance p'' := by
        rw [balance_append, balance_append, hx.balance_eq, hw₁.balance_eq, Int.zero_add,
          Int.zero_add]
      rw [hbalance] at hside ⊢
      obtain ⟨hp, hseq⟩ := ih hrest' hside
      refine ⟨hp, fun hw' => ?_⟩
      rw [List.append_assoc, List.append_assoc]
      exact .cons hx hw₁ (hseq hw')
    rcases List.append_eq_append_iff.1 heq with ⟨p', hp, heq'⟩ | ⟨t, rfl, ht⟩
    · exact hlater p' hp heq'
    · rcases List.cons_eq_append_iff.1 ht with ⟨rfl, heq'⟩ | ⟨t, rfl, ht'⟩
      · exact hlater [] (by simp) heq'
      -- The first expression holds the first atom, so it ends there or goes on without an atom.
      · rcases hx.isSealed p a t rfl ha with ⟨rfl, hp⟩ | ⟨hp, hapart⟩
        · obtain ⟨-, rfl⟩ := hw₁.eq_of_append_eq hw hrest.head?_ne_blank
            (head?_ne_blank_of_atom hb q) ht'.symm
          refine ⟨hp, fun hw' => ?_⟩
          simpa using Sequence.cons hx hw' hrest
        · obtain rfl : ws = [] := hside.resolve_right (by omega)
          cases t with
          | nil =>
            have hclosed := hx.balance_eq
            rw [balance_append, balance_atom ha, balance_nil] at hclosed
            omega
          | cons b' t =>
            obtain ⟨rfl, -⟩ := List.cons.inj ht'
            exact absurd hb (by simp [hapart b rfl])

/-- Atoms that run into each other are those of the same program with white space between them, if
    no list is open there. If one is, there is no such program. -/
theorem Program.runOn_iff {p q : List Token.Kind} {ds : List Datum} {a b : Token.Kind}
    (ha : a.isAtom = true) (hb : b.isAtom = true) :
    Program (p ++ a :: b :: q) ds ↔ balance p = 0 ∧ Program (p ++ a :: .blank :: b :: q) ds := by
  constructor
  -- No white space is between the atoms, so some may be put there.
  · rintro ⟨ws, rest, hw, hrest, heq⟩
    obtain ⟨p', rfl, hrest'⟩ := hw.eq_append_of_append_eq ha heq.symm
    obtain ⟨hp, hseq⟩ := hrest.between_atoms ha hb .absent hrest' (.inl rfl)
    rw [balance_append, hw.balance_eq, hp]
    exact ⟨rfl, ws, _, hw, hseq .present, by simp⟩
  · rintro ⟨hp, ws, rest, hw, hrest, heq⟩
    obtain ⟨p', rfl, hrest'⟩ := hw.eq_append_of_append_eq ha heq.symm
    rw [balance_append, hw.balance_eq, Int.zero_add] at hp
    obtain ⟨-, hseq⟩ := hrest.between_atoms ha hb .present hrest' (.inr hp)
    exact ⟨ws, _, hw, hseq .absent, by simp⟩

end Grammar

open Grammar

/-- The tokens of a text are those that the scanner delivers before the end of input. -/
theorem split_of_kinds {source : String} {ks p q : List Token.Kind} {a b : Token.Kind}
    (hkinds : (Scanner.ofSource source).remainder.tokens.map (·.kind) = p ++ a :: b :: q)
    (hb : b.isAtom = true) (hlex : Lexes source.toList ks []) :
    ∃ q', ks = p ++ a :: b :: q' ∧ q = q' ++ [.endOfInput] := by
  obtain ⟨tokens, last, hok, rfl, hlast⟩ := (Scanner.scanTokens_eq_ok_iff source ks).2 hlex
  -- The scanner delivers the tokenization with the end of input behind it.
  have heq : tokens.map (·.kind) ++ [.endOfInput] = p ++ a :: b :: q := by
    rw [← hkinds, (Scanner.scanTokens_fst_eq_ok_iff.1 hok).2, List.map_append, ← hlast]
    rfl
  rcases List.eq_nil_or_concat q with rfl | ⟨q', k, rfl⟩
  -- The last token is the end of input and no atom.
  · have hend := List.append_inj' (heq.trans (List.append_cons ..)) rfl
    obtain ⟨rfl⟩ : Token.Kind.endOfInput = b := by simpa using hend.2
    exact nomatch hb
  · rw [List.concat_eq_append] at heq ⊢
    have hend := List.append_inj' (heq.trans (List.append_assoc p (a :: b :: q') [k]).symm) rfl
    exact ⟨q', hend.1, by rw [hend.2]⟩

/-- A text with an atom that runs into another is refused where a list is open. Outside of all lists
    it is read as if white space stood between the two. -/
theorem parseAll_runOn_iff (source : String) {p q : List Token.Kind} {a b : Token.Kind}
    (hkinds : (Scanner.ofSource source).remainder.tokens.map (·.kind) = p ++ a :: b :: q)
    (ha : a.isAtom = true) (hb : b.isAtom = true) :
    (balance p ≠ 0 → ∃ fault, parseAll source = .error fault) ∧
      ∀ ds, parseAll source = .ok ds ↔
        balance p = 0 ∧ ∃ q', q = q' ++ [.endOfInput] ∧
          Program (p ++ a :: .blank :: b :: q') ds := by
  have hiff : ∀ ds, parseAll source = .ok ds ↔
      balance p = 0 ∧ ∃ q', q = q' ++ [.endOfInput] ∧
        Program (p ++ a :: .blank :: b :: q') ds := by
    intro ds
    rw [parseAll_eq_ok_iff_lexes]
    constructor
    -- The tokens of the text are a program, so they are one with white space put in.
    · rintro ⟨ks, hprogram, hlex⟩
      obtain ⟨q', rfl, rfl⟩ := split_of_kinds hkinds hb hlex
      obtain ⟨hbalance, hprogram⟩ := (Program.runOn_iff ha hb).1 hprogram
      exact ⟨hbalance, q', rfl, hprogram⟩
    -- The other way round, white space is taken out of a program.
    · rintro ⟨hbalance, q', rfl, hprogram⟩
      refine ⟨p ++ a :: b :: q', (Program.runOn_iff ha hb).2 ⟨hbalance, hprogram⟩, ?_⟩
      exact Scanner.lexes_of_kinds_takeUpTo (s := Scanner.ofSource source) rfl
        (hkinds.trans (by simp))
  refine ⟨fun hopen => ?_, hiff⟩
  cases hparse : parseAll source with
  | error fault => exact ⟨fault, rfl⟩
  | ok ds => exact absurd ((hiff ds).1 hparse).1 hopen

/-- In `(a"b")` the string runs into the symbol inside a list. -/
theorem parseAll_runOn_list : ∃ fault, parseAll "(a\"b\")" = .error fault :=
  (parseAll_runOn_iff "(a\"b\")" (p := [.leftParen]) (a := .symbol "a") (b := .string "b")
    (q := [.rightParen, .endOfInput]) (by decide +kernel) rfl rfl).1 (by decide)

/-- In `a"b"` the string runs into the symbol outside of all lists, and both are read. -/
theorem parseAll_runOn_top :
    (Scanner.ofSource "a\"b\"").remainder.tokens.map (·.kind) =
        [.symbol "a", .string "b", .endOfInput] ∧
      parseAll "a\"b\"" = .ok [.symbol "a", .string "b"] :=
  ⟨by decide +kernel, rfl⟩

end ScopeLisp
