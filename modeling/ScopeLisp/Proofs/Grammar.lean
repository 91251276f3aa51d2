import ScopeLisp.Datum
import ScopeLisp.SyntaxError

/-!
# The grammar of source texts

The grammar over token kinds, with the data that its phrases denote:

    program := WS? (expr WS?)*
    expr    := number | string | symbol | "'" WS? expr
             | "(" WS? ")" | "(" WS? expr (WS expr)* WS? ")"

`Expr n` derives the expressions that have at most `n` lists and quotes open at once; an empty list
counts as one.

## Key results

- `Expr.eq_of_append_eq`: no expression is a proper prefix of another, and its datum is unique
- `Program.unique`: a sequence of tokens denotes at most one sequence of data
-/

namespace ScopeLisp.Grammar

/-- White space where it may be left out. -/
inductive OptBlank : List Token.Kind → Prop where
  | absent : OptBlank []
  | present : OptBlank [.blank]

/-- Further list elements, each after white space. -/
def separated (items : List (List Token.Kind × Datum)) : List Token.Kind :=
  items.flatMap fun item => .blank :: item.1

/-- The tokens of one expression, with the datum that it denotes and at most `n` lists and quotes
    open at once. -/
inductive Expr : (n : Nat) → List Token.Kind → Datum → Prop where
  | number {n : Nat} (x : Double) : Expr n [.number x] (.number x)
  | string {n : Nat} (text : String) : Expr n [.string text] (.string text)
  | symbol {n : Nat} (name : String) : Expr n [.symbol name] (.symbol name)
  | quoted {n : Nat} {ws ks : List Token.Kind} {d : Datum} :
      OptBlank ws → Expr n ks d → Expr (n + 1) (.quote :: (ws ++ ks)) (.quoted d)
  | empty {n : Nat} {ws : List Token.Kind} :
      OptBlank ws → Expr (n + 1) (.leftParen :: (ws ++ [.rightParen])) .nil
  | list {n : Nat} {ws ks ws' : List Token.Kind} {d : Datum}
      {items : List (List Token.Kind × Datum)} :
      OptBlank ws → Expr n ks d → (∀ item ∈ items, Expr n item.1 item.2) → OptBlank ws' →
      Expr (n + 1) (.leftParen :: (ws ++ (ks ++ (separated items ++ (ws' ++ [.rightParen])))))
        (.ofList (d :: items.map (·.2)))

/-- Expressions with optional white space after each, and their data. -/
inductive Sequence : List Token.Kind → List Datum → Prop where
  | nil : Sequence [] []
  | cons {ks ws rest : List Token.Kind} {d : Datum} {ds : List Datum} :
      Expr maxNesting ks d → OptBlank ws → Sequence rest ds →
      Sequence (ks ++ (ws ++ rest)) (d :: ds)

/-- The tokens of a whole source text, without the end of input, and its data. -/
def Program (ks : List Token.Kind) (ds : List Datum) : Prop :=
  ∃ ws rest, OptBlank ws ∧ Sequence rest ds ∧ ks = ws ++ rest

/-! ## Where an expression starts -/

/-- The kinds of tokens that an expression can start with. -/
def Starts (k : Token.Kind) : Prop :=
  k ≠ .blank ∧ k ≠ .rightParen ∧ k ≠ .endOfInput

/-- No further elements, no tokens. -/
@[simp] theorem separated_nil : separated [] = [] := rfl

/-- A further element stands behind a blank token. -/
@[simp] theorem separated_cons (item : List Token.Kind × Datum)
    (items : List (List Token.Kind × Datum)) :
    separated (item :: items) = .blank :: (item.1 ++ separated items) := by
  simp [separated]

/-- Each further element takes at least one token. -/
theorem length_le_separated (items : List (List Token.Kind × Datum)) :
    items.length ≤ (separated items).length := by
  induction items with
  | nil => exact Nat.le_refl _
  | cons item items ih =>
    rw [separated_cons, List.length_cons, List.length_cons, List.length_append]
    omega

/-- An expression is not empty, and its first token is one that expressions can start with. -/
theorem Expr.starts {n : Nat} {ks : List Token.Kind} {d : Datum} (h : Expr n ks d) :
    ∃ k rest, ks = k :: rest ∧ Starts k := by
  cases h <;> exact ⟨_, _, rfl, by simp [Starts]⟩

/-- Where an expression starts, no other kind of token stands. -/
private theorem Expr.head?_append_ne {n : Nat} {ks r : List Token.Kind} {d : Datum} {k : Token.Kind}
    (h : Expr n ks d) (hk : ¬ Starts k) : (ks ++ r).head? ≠ some k := by
  obtain ⟨k', rest, rfl, hstarts⟩ := h.starts
  intro heq
  obtain rfl : k' = k := by simpa using heq
  exact hk hstarts

private theorem not_starts_blank : ¬ Starts .blank := fun h => h.1 rfl

private theorem not_starts_rightParen : ¬ Starts .rightParen := fun h => h.2.1 rfl

/-- White space stands only behind the expressions of a sequence, so none starts it. -/
theorem Sequence.head?_ne_blank {ks : List Token.Kind} {ds : List Datum} (h : Sequence ks ds) :
    ks.head? ≠ some .blank := by
  cases h with
  | nil => simp
  | cons hx hw hrest => exact hx.head?_append_ne not_starts_blank

/-- Optional white space ends where no blank token follows. -/
theorem OptBlank.eq_of_append_eq {ws ws' t t' : List Token.Kind} (h : OptBlank ws)
    (h' : OptBlank ws') (ht : t.head? ≠ some .blank) (ht' : t'.head? ≠ some .blank)
    (heq : ws ++ t = ws' ++ t') : ws = ws' ∧ t = t' := by
  -- If only one side has white space, the other continues with a blank token.
  cases h with
  | absent =>
    cases h' with
    | absent => exact ⟨rfl, heq⟩
    | present => exact absurd (congrArg List.head? heq) ht
  | present =>
    cases h' with
    | absent => exact absurd (congrArg List.head? heq).symm ht'
    | present => exact ⟨rfl, (List.cons.inj heq).2⟩

/-! ## Unambiguity -/

/-- After the first element of a list, the elements up to the closing parenthesis are determined,
    provided that each of them is determined where it starts. -/
private theorem separated_inj {n : Nat} {items items' : List (List Token.Kind × Datum)}
    {ws ws' r r' : List Token.Kind}
    (ih : ∀ item ∈ items, ∀ {ks' : List Token.Kind} {d' : Datum} {s s' : List Token.Kind},
      Expr n ks' d' → item.1 ++ s = ks' ++ s' → item.1 = ks' ∧ item.2 = d')
    (hs : ∀ item ∈ items, Expr n item.1 item.2) (hs' : ∀ item ∈ items', Expr n item.1 item.2)
    (hw : OptBlank ws) (hw' : OptBlank ws')
    (heq : separated items ++ (ws ++ .rightParen :: r) =
      separated items' ++ (ws' ++ .rightParen :: r')) :
    items = items' ∧ ws = ws' := by
  -- A closing parenthesis cannot stand where a further element starts.
  have clash : ∀ {v t s : List Token.Kind} {item : List Token.Kind × Datum}, OptBlank v →
      Expr n item.1 item.2 → v ++ .rightParen :: t ≠ .blank :: (item.1 ++ s) := by
    intro v t s item hv hitem hclash
    cases hv with
    | absent => simp at hclash
    | present =>
      refine hitem.head?_append_ne (r := s) not_starts_rightParen ?_
      rw [← (List.cons.inj hclash).2]
      rfl
  -- Along both sequences; if one ends before the other, its parenthesis would start an element.
  induction items generalizing items' with
  | nil =>
    cases items' with
    | nil => exact ⟨rfl, (hw.eq_of_append_eq hw' (by simp) (by simp) heq).1⟩
    | cons item' items' =>
      rw [separated_cons, List.cons_append, List.append_assoc] at heq
      exact absurd heq (clash hw (hs' item' List.mem_cons_self))
  | cons item items iht =>
    cases items' with
    | nil =>
      rw [separated_cons, List.cons_append, List.append_assoc] at heq
      exact absurd heq.symm (clash hw' (hs item List.mem_cons_self))
    | cons item' items' =>
      simp only [separated_cons, List.cons_append, List.cons.injEq, true_and,
        List.append_assoc] at heq
      obtain ⟨hks, hd⟩ := ih item List.mem_cons_self (hs' item' List.mem_cons_self) heq
      rw [hks, List.append_cancel_left_eq] at heq
      obtain ⟨htail, hws⟩ := iht (fun i hi => ih i (List.mem_cons_of_mem _ hi))
        (fun i hi => hs i (List.mem_cons_of_mem _ hi))
        (fun i hi => hs' i (List.mem_cons_of_mem _ hi)) heq
      exact ⟨by rw [htail, Prod.ext hks hd], hws⟩

/-- No expression is a proper prefix of another, and its tokens determine its datum. -/
theorem Expr.eq_of_append_eq {n : Nat} {ks ks' : List Token.Kind} {d d' : Datum}
    {r r' : List Token.Kind} (h : Expr n ks d) (h' : Expr n ks' d')
    (heq : ks ++ r = ks' ++ r') : ks = ks' ∧ d = d' := by
  induction h generalizing ks' d' r r' with
  | number x => cases h' <;> simp_all
  | string text => cases h' <;> simp_all
  | symbol name => cases h' <;> simp_all
  -- The first token settles which kind of expression both are; then the parts are compared from
  -- left to right.
  | quoted hw hx ih =>
    cases h' with
    | quoted hw' hx' =>
      simp only [List.cons_append, List.append_assoc, List.cons.injEq, true_and] at heq
      obtain ⟨rfl, hrest⟩ := hw.eq_of_append_eq hw' (hx.head?_append_ne not_starts_blank)
        (hx'.head?_append_ne not_starts_blank) heq
      obtain ⟨rfl, rfl⟩ := ih hx' hrest
      exact ⟨rfl, rfl⟩
    | _ => simp at heq
  | empty hw =>
    cases h' with
    | empty hw' =>
      simp only [List.cons_append, List.append_assoc, List.cons.injEq, true_and] at heq
      obtain ⟨rfl, -⟩ := hw.eq_of_append_eq hw' (by simp) (by simp) heq
      exact ⟨rfl, rfl⟩
    | list hw' hx' =>
      simp only [List.cons_append, List.append_assoc, List.cons.injEq, true_and] at heq
      obtain ⟨-, hrest⟩ := hw.eq_of_append_eq hw' (by simp)
        (hx'.head?_append_ne not_starts_blank) heq
      -- The empty list closes where the other one has its first element.
      exact absurd (by rw [← hrest]; rfl) (hx'.head?_append_ne not_starts_rightParen)
    | _ => simp at heq
  | list hw hx hs hw₂ ih ihs =>
    cases h' with
    | empty hw' =>
      simp only [List.cons_append, List.append_assoc, List.cons.injEq, true_and] at heq
      obtain ⟨-, hrest⟩ := hw.eq_of_append_eq hw' (hx.head?_append_ne not_starts_blank)
        (by simp) heq
      exact absurd (by rw [hrest]; rfl) (hx.head?_append_ne not_starts_rightParen)
    | list hw' hx' hs' hw₂' =>
      simp only [List.cons_append, List.append_assoc, List.nil_append, List.cons.injEq,
        true_and] at heq
      obtain ⟨rfl, hfirst⟩ := hw.eq_of_append_eq hw' (hx.head?_append_ne not_starts_blank)
        (hx'.head?_append_ne not_starts_blank) heq
      obtain ⟨rfl, rfl⟩ := ih hx' hfirst
      rw [List.append_cancel_left_eq] at hfirst
      -- The first elements agree, so the same tokens follow them.
      obtain ⟨rfl, rfl⟩ := separated_inj ihs hs hs' hw₂ hw₂' hfirst
      exact ⟨rfl, rfl⟩
    | _ => simp at heq

/-- The tokens of a sequence of expressions determine its data. -/
theorem Sequence.unique {ks : List Token.Kind} {ds ds' : List Datum} (h : Sequence ks ds)
    (h' : Sequence ks ds') : ds = ds' := by
  induction h generalizing ds' with
  | nil =>
    generalize hks : ([] : List Token.Kind) = ks at h'
    cases h' with
    | nil => rfl
    | cons hx hw hrest =>
      obtain ⟨k, s, rfl, -⟩ := hx.starts
      exact nomatch hks
  | @cons ks ws rest d ds hx hw hrest ih =>
    generalize hall : ks ++ (ws ++ rest) = all at h'
    cases h' with
    | nil =>
      obtain ⟨k, s, rfl, -⟩ := hx.starts
      exact nomatch hall
    | cons hx' hw' hrest' =>
      -- Both start with the same expression, then with the same white space.
      obtain ⟨rfl, rfl⟩ := hx.eq_of_append_eq hx' hall
      rw [List.append_cancel_left_eq] at hall
      obtain ⟨rfl, rfl⟩ := hw.eq_of_append_eq hw' hrest.head?_ne_blank hrest'.head?_ne_blank hall
      rw [ih hrest']

/-- A sequence of tokens denotes at most one sequence of data. -/
theorem Program.unique {ks : List Token.Kind} {ds ds' : List Datum} (h : Program ks ds)
    (h' : Program ks ds') : ds = ds' := by
  obtain ⟨ws, rest, hw, hrest, rfl⟩ := h
  obtain ⟨ws', rest', hw', hrest', heq⟩ := h'
  obtain ⟨-, rfl⟩ := hw.eq_of_append_eq hw' hrest.head?_ne_blank hrest'.head?_ne_blank heq
  exact hrest.unique hrest'

end ScopeLisp.Grammar
