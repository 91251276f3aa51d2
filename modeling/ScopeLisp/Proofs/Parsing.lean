import ScopeLisp.Proofs.Grammar
import ScopeLisp.Proofs.Reading

/-!
# Parsing accepts the grammar

A parser reads exactly the token sequences that the grammar derives, and gives the data that they
denote. Both directions go through the text that is left: an expression takes the tokens of one
derivation off it.

## Key results

- `expressionWithin_yields`: whatever is read as an expression is derived by the grammar
- `expressionWithin_succeeds`: whatever the grammar derives is read
- `parseAll_eq_ok_iff_lexes`, `parseSingle_eq_ok_iff_lexes`: the same for whole source texts
-/

namespace ScopeLisp

open Grammar

namespace ParseM

variable {n m : Nat} {t : List Char}

/-! ## What is read is derived -/

/-- An expression after optional white space takes `t` to `t'` and denotes `d`. -/
def ReadsExpr (m : Nat) (t : List Char) (d : Datum) (t' : List Char) : Prop :=
  ∃ ws ks, OptBlank ws ∧ Expr m ks d ∧ Lexes t (ws ++ ks) t'

/-- Where white space was skipped already, none is left before the expression. -/
theorem ReadsExpr.of_solid {d : Datum} {t' : List Char} (h : ReadsExpr m t d t')
    (hsolid : Solid t) : ∃ ks, Expr m ks d ∧ Lexes t ks t' := by
  obtain ⟨ws, ks, hw, hx, hlex⟩ := h
  cases hw with
  | absent => exact ⟨ks, hx, hlex⟩
  | present =>
    obtain ⟨mid, hnext, -⟩ := Next.of_lexes hlex
    -- A blank token would be next, against what was skipped.
    exact absurd hnext (hsolid mid)

/-- What was skipped is optional white space of the grammar. -/
theorem skipBlank_yields_optBlank :
    skipBlank.Yields n t fun skipped t' =>
      Solid t' ∧ ∃ ws, OptBlank ws ∧ Lexes t ws t' ∧ (skipped = true → ws = [.blank]) := by
  intro p hp skipped p' hrun
  obtain ⟨t', hp', hsolid, ⟨rfl, hnext⟩ | ⟨rfl, rfl⟩⟩ := skipBlank_yields p hp skipped p' hrun
  · exact ⟨t', hp', hsolid, _, .present, hnext.lexes nofun, fun _ => rfl⟩
  · exact ⟨t', hp', hsolid, _, .absent, .done _, nofun⟩

/-- What is read as the further elements of a list is a separated sequence of expressions up to the
    closing parenthesis. -/
private theorem elements_yields {inner : ParseM Datum} {opened : Position}
    (hinner : ∀ t, inner.Yields n t (ReadsExpr m t)) (fuel : Nat) :
    (elements inner opened fuel).Yields n t fun ds t' =>
      ∃ items ws, (∀ item ∈ items, Expr m item.1 item.2) ∧ OptBlank ws ∧
        ds = items.map (·.2) ∧ Lexes t (separated items ++ (ws ++ [.rightParen])) t' := by
  -- By induction on the fuel, over the texts that are left after each element.
  induction fuel generalizing t with
  | zero => exact .failAtLast
  | succ fuel ih =>
    unfold elements
    refine skipBlank_yields_optBlank.bind fun skipped t₁ hskip => ?_
    obtain ⟨hsolid, ws, hw, hws, hskipped⟩ := hskip
    refine peek_yields.bind fun token t₂ hpeek => ?_
    obtain ⟨rfl, rest, hnext⟩ := hpeek
    split
    · next hparen =>
      refine advance_yields.bind fun token' t₃ hadvance => .pure ?_
      obtain ⟨-, rfl⟩ := hadvance.unique hnext
      rw [hparen] at hnext
      exact ⟨[], ws, nofun, hw, rfl, hws.append (hnext.lexes nofun)⟩
    · exact .failAtLast
    · split
      · next hsep =>
        -- White space was skipped before this element, so it is the separator in front of it.
        refine (hinner _).bind fun d t₃ hread => ?_
        obtain ⟨ks, hx, hks⟩ := hread.of_solid hsolid
        refine ih.bind fun ds t₄ hrest => .pure ?_
        obtain ⟨items, ws', hitems, hw', rfl, hlex⟩ := hrest
        refine ⟨(ks, d) :: items, ws', ?_, hw', rfl, ?_⟩
        · intro item hitem
          rcases List.mem_cons.1 hitem with rfl | hitem
          · exact hx
          · exact hitems item hitem
        · rw [hskipped hsep] at hws
          simpa using hws.append (hks.append hlex)
      · exact .failAt

/-- What is read as a list is derived with one more level than its elements. -/
private theorem list_yields {inner : ParseM Datum} {rest : List Char}
    (hinner : ∀ t, inner.Yields n t (ReadsExpr m t)) (hnext : Next t .leftParen rest) :
    (list inner).Yields n t (ReadsExpr (m + 1) t) := by
  unfold list
  refine advance_yields.bind fun opened t₁ hopen => ?_
  obtain ⟨-, rfl⟩ := hopen.unique hnext
  have hopen := hnext.lexes nofun
  refine skipBlank_yields_optBlank.bind fun _ t₂ hskip => ?_
  obtain ⟨hsolid, ws, hw, hws, -⟩ := hskip
  refine peek_yields.bind fun token t₃ hpeek => ?_
  obtain ⟨rfl, rest', hnext'⟩ := hpeek
  split
  · next hparen =>
    refine advance_yields.bind fun token' t₄ hadvance => .pure ?_
    obtain ⟨-, rfl⟩ := hadvance.unique hnext'
    rw [hparen] at hnext'
    exact ⟨[], _, .absent, .empty hw, hopen.append (hws.append (hnext'.lexes nofun))⟩
  -- Something else than the closing parenthesis is next, so the list has a first element.
  · refine (hinner _).bind fun d t₄ hread => ?_
    obtain ⟨ks, hx, hks⟩ := hread.of_solid hsolid
    -- The fuel for the other elements only matters for completeness.
    refine pending_yields.bind fun size t₅ hsize => ?_
    obtain ⟨rfl, -⟩ := hsize
    refine (elements_yields hinner (size + 1)).bind fun ds t₆ hrest => .pure ?_
    obtain ⟨items, ws', hitems, hw', rfl, hlex⟩ := hrest
    exact ⟨[], _, .absent, .list hw hx hitems hw',
      hopen.append (hws.append (hks.append hlex))⟩

/-- One level: if the expressions one level deeper are derived with nesting at most `m`, those of
    this level are with nesting at most `m + 1`. -/
theorem form_yields {inner : Option (ParseM Datum)}
    (hinner : ∀ act, inner = some act →
      ∃ m', m = m' + 1 ∧ ∀ t, act.Yields (n + 1) t (ReadsExpr m' t)) :
    (form inner).Yields n t (ReadsExpr m t) := by
  unfold form
  refine skipBlank_yields_optBlank.bind fun _ t₁ hskip => ?_
  obtain ⟨hsolid, ws, hw, hws, -⟩ := hskip
  refine peek_yields.bind fun token t₂ hpeek => ?_
  obtain ⟨rfl, rest, hnext⟩ := hpeek
  -- An atom is its token; the white space before it stays in front.
  have atom : ∀ {k : Token.Kind} {d : Datum}, token.kind = k → k ≠ .endOfInput →
      Expr m [k] d → (do let _ ← advance; return d : ParseM Datum).Yields n t₂
        (ReadsExpr m t) := by
    intro k d hk hend hx
    refine advance_yields.bind fun token' t₃ hadvance => .pure ?_
    obtain ⟨-, rfl⟩ := hadvance.unique hnext
    rw [hk] at hnext
    exact ⟨ws, [k], hw, hx, hws.append (hnext.lexes hend)⟩
  split
  -- A quote and a list go down one level, if there is one to go down to.
  · next hquote =>
    unfold descend
    split
    · exact .failAt
    · next act =>
      obtain ⟨m', rfl, hact⟩ := hinner act rfl
      refine .nested (advance_yields.bind fun token' t₃ hadvance => ?_)
      obtain ⟨-, rfl⟩ := hadvance.unique hnext
      rw [hquote] at hnext
      refine (hact _).bind fun d t₄ hread => .pure ?_
      obtain ⟨ws', ks, hw', hx, hks⟩ := hread
      exact ⟨ws, _, hw, .quoted hw' hx, hws.append ((hnext.lexes nofun).append hks)⟩
  · next x hk => exact atom hk nofun (.number x)
  · next text hk => exact atom hk nofun (.string text)
  · next name hk => exact atom hk nofun (.symbol name)
  · next hparen =>
    unfold descend
    split
    · exact .failAt
    · next act =>
      obtain ⟨m', rfl, hact⟩ := hinner act rfl
      rw [hparen] at hnext
      refine .nested ?_
      intro p hp d p' hrun
      -- No white space is left in front of the list, so all of it is in `ws`.
      obtain ⟨t', hp', hread⟩ := list_yields hact hnext p hp d p' hrun
      obtain ⟨ks, hx, hks⟩ := hread.of_solid hsolid
      exact ⟨t', hp', ws, ks, hw, hx, hws.append hks⟩
  · exact .failAt
  · exact .failAtLast
  · exact .failAt

/-- What an expression that may open `m` levels takes off the text is derived with nesting at most
    `m`. -/
theorem expressionWithin_yields (m : Nat) :
    ∀ n t, (expressionWithin m).Yields n t (ReadsExpr m t) := by
  induction m with
  | zero => exact fun n t => form_yields nofun
  | succ m ih =>
    intro n t
    refine form_yields fun act hact => ⟨m, rfl, ?_⟩
    obtain rfl := Option.some.inj hact
    exact ih (n + 1)

/-- An expression that is read at the outermost level is derived with nesting at most the bound. -/
theorem expression_yields : expression.Yields 0 t (ReadsExpr maxNesting t) := by
  intro p hp d p' hrun
  unfold expression at hrun
  rw [Parser.run_bind, Parser.run_get] at hrun
  dsimp only at hrun
  rw [hp.depth_eq] at hrun
  exact expressionWithin_yields maxNesting 0 t p hp d p' hrun

/-- Asking for the end takes white space only; if the answer is yes, no text is left. -/
theorem isDone_yields :
    isDone.Yields n t fun done t' =>
      Solid t' ∧ (∃ ws, OptBlank ws ∧ Lexes t ws t') ∧ (done = true → t' = []) := by
  refine skipBlank_yields_optBlank.bind fun _ t₁ hskip => ?_
  obtain ⟨hsolid, ws, hw, hws, -⟩ := hskip
  refine peek_yields.bind fun token t₂ hpeek => .pure ?_
  obtain ⟨rfl, rest, hnext⟩ := hpeek
  refine ⟨hsolid, ⟨ws, hw, hws⟩, fun hdone => ?_⟩
  rw [of_decide_eq_true hdone] at hnext
  exact hnext.eq_nil_of_endOfInput

/-- All expressions of a text. The fuel outlasts the text, so the reading only ends at its end. -/
theorem expressionsUpTo_yields {fuel : Nat} (hfuel : t.length < fuel) :
    (expressionsUpTo fuel).Yields 0 t fun ds _ => ∃ ks, Program ks ds ∧ Lexes t ks [] := by
  induction fuel generalizing t with
  | zero => omega
  | succ fuel ih =>
    unfold expressionsUpTo
    refine isDone_yields.bind fun done t₁ hdone => ?_
    obtain ⟨hsolid, ⟨ws, hw, hws⟩, hend⟩ := hdone
    split
    · next hd =>
      obtain rfl := hend hd
      exact .pure ⟨ws ++ [], ⟨ws, [], hw, .nil, rfl⟩, by simpa using hws⟩
    · refine expression_yields.bind fun d t₂ hread => ?_
      obtain ⟨ks, hx, hks⟩ := hread.of_solid hsolid
      -- Every expression has a token, and every token at least one character.
      have hshorter : t₂.length < fuel := by
        obtain ⟨k, rest, rfl, -⟩ := hx.starts
        have h₁ := hws.length_le
        have h₂ := hks.length_le
        rw [List.length_cons] at h₂
        omega
      refine (ih hshorter).bind fun ds t₃ hrest => .pure ?_
      obtain ⟨_, ⟨ws', rest, hw', hseq, rfl⟩, hlex⟩ := hrest
      exact ⟨ws ++ (ks ++ (ws' ++ rest)), ⟨ws, _, hw, .cons hx hw' hseq, rfl⟩,
        hws.append (hks.append hlex)⟩

/-! ## What is derived is read -/

/-- Optional white space in front of a token that is not blank is skipped. -/
theorem skipBlank_succeeds {ws ks : List Token.Kind} {k : Token.Kind} {t' : List Char}
    (hw : OptBlank ws) (hlex : Lexes t (ws ++ k :: ks) t') (hk : k ≠ .blank) :
    skipBlank.Succeeds n t fun skipped t₁ =>
      (ws = [.blank] → skipped = true) ∧ Lexes t₁ (k :: ks) t' := by
  -- There is white space to skip, or the token is next already.
  cases hw with
  | absent =>
    obtain ⟨mid, hnext, -⟩ := Next.of_lexes hlex
    intro p hp
    obtain ⟨skipped, p', t₁, hrun, hp', rfl, rfl⟩ := skipBlank_succeeds_of_ne hnext hk p hp
    exact ⟨_, p', t₁, hrun, hp', nofun, hlex⟩
  | present =>
    obtain ⟨mid, hnext, hrest⟩ := Next.of_lexes hlex
    intro p hp
    obtain ⟨skipped, p', t₁, hrun, hp', rfl, rfl⟩ := skipBlank_succeeds_of_blank hnext p hp
    exact ⟨_, p', t₁, hrun, hp', fun _ => rfl, hrest⟩

/-- The step reads the expression `ks` as `d`, whatever white space is in front of it. -/
def Accepts (act : ParseM Datum) (n : Nat) (ks : List Token.Kind) (d : Datum) : Prop :=
  ∀ (ws : List Token.Kind) (t t' : List Char), OptBlank ws → Lexes t (ws ++ ks) t' →
    act.Succeeds n t fun a t'' => a = d ∧ t'' = t'

/-- The further elements of a list are read up to its closing parenthesis. -/
private theorem elements_succeeds {inner : ParseM Datum} {opened : Position}
    {items : List (List Token.Kind × Datum)} {ws : List Token.Kind} {t' : List Char} {fuel : Nat}
    (hitems : ∀ item ∈ items, Expr m item.1 item.2)
    (hinner : ∀ item ∈ items, inner.Accepts n item.1 item.2) (hw : OptBlank ws)
    (hlex : Lexes t (separated items ++ (ws ++ [.rightParen])) t')
    (hfuel : items.length < fuel) :
    (elements inner opened fuel).Succeeds n t fun ds t'' => ds = items.map (·.2) ∧ t'' = t' := by
  -- Each element uses up one unit of fuel, and the closing parenthesis the last one.
  induction items generalizing t fuel with
  | nil =>
    obtain ⟨fuel, rfl⟩ : ∃ f, fuel = f + 1 := ⟨fuel - 1, by omega⟩
    unfold elements
    refine (skipBlank_succeeds (k := .rightParen) hw hlex nofun).bind fun _ t₁ hskip => ?_
    obtain ⟨rest, hnext, hrest⟩ := Next.of_lexes hskip.2
    refine (peek_succeeds hnext).bind fun token t₂ hpeek => ?_
    obtain ⟨rfl, hkind⟩ := hpeek
    simp only [hkind]
    refine (advance_succeeds hnext).bind fun _ t₃ hadvance => .pure ⟨rfl, ?_⟩
    rw [hadvance.2, hrest.eq_of_nil]
  | cons item items ih =>
    obtain ⟨fuel, rfl⟩ : ∃ f, fuel = f + 1 := ⟨fuel - 1, by omega⟩
    -- The next element starts after its separator with a token that cannot end the list.
    obtain ⟨k, ks, hks, hne, hparen, hend⟩ := (hitems item List.mem_cons_self).starts
    have hlex' :
        Lexes t ([.blank] ++ k :: (ks ++ (separated items ++ (ws ++ [.rightParen])))) t' := by
      simpa [hks] using hlex
    unfold elements
    refine (skipBlank_succeeds .present hlex' hne).bind fun skipped t₁ hskip => ?_
    obtain ⟨hskipped, hlex₁⟩ := hskip
    obtain ⟨rest, hnext, -⟩ := Next.of_lexes hlex₁
    refine (peek_succeeds hnext).bind fun token t₂ hpeek => ?_
    obtain ⟨rfl, rfl⟩ := hpeek
    obtain ⟨mid, hfirst, hmore⟩ := Lexes.append_inv item.1 (by simpa [hks] using hlex₁)
    split
    · next hk => exact absurd hk hparen
    · next hk => exact absurd hk hend
    · rw [if_pos (hskipped rfl)]
      refine (hinner item List.mem_cons_self [] t₂ mid .absent hfirst).bind fun d t₃ hread => ?_
      obtain ⟨rfl, rfl⟩ := hread
      have hfuel' : items.length < fuel := by rw [List.length_cons] at hfuel; omega
      have hrest := ih (fun i hi => hitems i (List.mem_cons_of_mem _ hi))
        (fun i hi => hinner i (List.mem_cons_of_mem _ hi)) hmore hfuel'
      refine hrest.bind fun ds t₄ hread => .pure ?_
      obtain ⟨rfl, rfl⟩ := hread
      exact ⟨rfl, rfl⟩

/-- A list is read once its opening parenthesis is next, provided that its elements are. -/
theorem list_succeeds {inner : ParseM Datum} {ws ks ws' : List Token.Kind} {d : Datum}
    {items : List (List Token.Kind × Datum)} {t' : List Char} (hw : OptBlank ws)
    (hx : Expr m ks d) (hitems : ∀ item ∈ items, Expr m item.1 item.2) (hw' : OptBlank ws')
    (hfirst : inner.Accepts n ks d) (hinner : ∀ item ∈ items, inner.Accepts n item.1 item.2)
    (hlex : Lexes t
      (.leftParen :: (ws ++ (ks ++ (separated items ++ (ws' ++ [.rightParen]))))) t') :
    (list inner).Succeeds n t fun a t'' =>
      a = .ofList (d :: items.map (·.2)) ∧ t'' = t' := by
  obtain ⟨t₁, hopen, hlex₁⟩ := Next.of_lexes hlex
  obtain ⟨k, rest, rfl, hne, hparen, -⟩ := hx.starts
  unfold list
  refine (advance_succeeds hopen).bind fun opened t₂ hadvance => ?_
  obtain ⟨-, rfl⟩ := hadvance
  refine (skipBlank_succeeds hw hlex₁ hne).bind fun _ t₃ hskip => ?_
  obtain ⟨-, hlex₃⟩ := hskip
  obtain ⟨mid, hnext, -⟩ := Next.of_lexes hlex₃
  refine (peek_succeeds hnext).bind fun token t₄ hpeek => ?_
  obtain ⟨rfl, rfl⟩ := hpeek
  -- An element can start with this token, so the list does not close yet.
  rw [if_neg hparen]
  obtain ⟨t₅, hks, hmore⟩ := Lexes.append_inv (token.kind :: rest) hlex₃
  refine (hfirst [] t₄ t₅ .absent hks).bind fun a t₆ hread => ?_
  obtain ⟨rfl, rfl⟩ := hread
  refine pending_succeeds.bind fun size t₇ hsize => ?_
  obtain ⟨rfl, rfl⟩ := hsize
  -- Each further element takes at least one token, and each token at least one character.
  have hfuel : items.length < t₇.length + 1 := by
    have h₁ := hmore.length_le
    have h₂ := length_le_separated items
    rw [List.length_append] at h₁
    omega
  refine (elements_succeeds hitems hinner hw' hmore hfuel).bind fun ds t₈ hread => .pure ?_
  obtain ⟨rfl, rfl⟩ := hread
  exact ⟨rfl, rfl⟩

/-- Steps that depend on the next token after white space. -/
theorem succeeds_at_token {α : Type} {f : Token → ParseM α} {ws ks : List Token.Kind}
    {k : Token.Kind} {t' : List Char} {Q : α → List Char → Prop} (hw : OptBlank ws)
    (hlex : Lexes t (ws ++ k :: ks) t') (hk : k ≠ .blank)
    (hf : ∀ token t₁, token.kind = k → Lexes t₁ (k :: ks) t' → (f token).Succeeds n t₁ Q) :
    (do let _ ← skipBlank; let token ← peek; f token : ParseM α).Succeeds n t Q := by
  refine (skipBlank_succeeds hw hlex hk).bind fun _ t₁ hskip => ?_
  obtain ⟨-, hlex₁⟩ := hskip
  obtain ⟨mid, hnext, -⟩ := Next.of_lexes hlex₁
  refine (peek_succeeds hnext).bind fun token t₂ hpeek => ?_
  obtain ⟨rfl, hkind⟩ := hpeek
  exact hf token t₂ hkind hlex₁

/-- Consuming a last token. -/
theorem advance_succeeds_last {k : Token.Kind} {t' : List Char} {d : Datum}
    (hlex : Lexes t [k] t') :
    (do let _ ← advance; return d : ParseM Datum).Succeeds n t fun a t'' => a = d ∧ t'' = t' := by
  obtain ⟨mid, hnext, hrest⟩ := Next.of_lexes hlex
  refine (advance_succeeds hnext).bind fun _ t₁ hadvance => .pure ⟨rfl, ?_⟩
  rw [hadvance.2, hrest.eq_of_nil]

/-- An atom is read by consuming its token. -/
theorem accepts_atom {act : ParseM Datum} {f : Token → ParseM Datum} {k : Token.Kind} {d : Datum}
    (hact : act = do let _ ← skipBlank; let token ← peek; f token) (hk : k ≠ .blank)
    (hf : ∀ token : Token, token.kind = k → f token = do let _ ← advance; return d) :
    act.Accepts n [k] d := by
  intro ws t t' hw hlex
  rw [hact]
  refine succeeds_at_token hw hlex hk fun token t₁ hkind hlex₁ => ?_
  rw [hf token hkind]
  exact advance_succeeds_last hlex₁

/-- Whatever may be opened, an expression is read in the same way at its own level. -/
theorem expressionWithin_eq_form (m : Nat) : ∃ inner, expressionWithin m = form inner := by
  cases m with
  | zero => exact ⟨none, rfl⟩
  | succ m => exact ⟨some (expressionWithin m), rfl⟩

/-- What is derived with nesting at most `m` is read by an expression that may open `m` levels. -/
theorem expressionWithin_succeeds {ks : List Token.Kind} {d : Datum} (h : Expr m ks d) :
    ∀ n, (expressionWithin m).Accepts n ks d := by
  -- The level that the expression stands on does not matter, so the induction is for all levels.
  induction h with
  | @number m x =>
    intro n
    obtain ⟨inner, heq⟩ := expressionWithin_eq_form m
    exact accepts_atom (k := .number x) heq nofun fun token hkind => by simp only [hkind]
  | @string m text =>
    intro n
    obtain ⟨inner, heq⟩ := expressionWithin_eq_form m
    exact accepts_atom (k := .string text) heq nofun fun token hkind => by simp only [hkind]
  | @symbol m name =>
    intro n
    obtain ⟨inner, heq⟩ := expressionWithin_eq_form m
    exact accepts_atom (k := .symbol name) heq nofun fun token hkind => by simp only [hkind]
  | quoted hw' hx ih =>
    intro n ws t t' hw hlex
    refine succeeds_at_token hw hlex nofun fun token t₁ hkind hlex₁ => ?_
    simp only [hkind, descend]
    obtain ⟨t₂, hnext, hlex₂⟩ := Next.of_lexes hlex₁
    refine .nested ((advance_succeeds hnext).bind fun _ t₃ hadvance => ?_)
    obtain ⟨-, rfl⟩ := hadvance
    refine (ih _ _ _ _ hw' hlex₂).bind fun a t₄ hread => .pure ?_
    obtain ⟨rfl, rfl⟩ := hread
    exact ⟨rfl, rfl⟩
  | @empty m ws' hw' =>
    intro n ws t t' hw hlex
    refine succeeds_at_token hw hlex nofun fun token t₁ hkind hlex₁ => ?_
    simp only [hkind, descend]
    obtain ⟨t₂, hnext, hlex₂⟩ := Next.of_lexes hlex₁
    refine .nested ((advance_succeeds hnext).bind fun _ t₃ hadvance => ?_)
    obtain ⟨-, rfl⟩ := hadvance
    refine succeeds_at_token (k := .rightParen) hw' hlex₂ nofun fun token' t₄ hclose hlex₄ => ?_
    rw [if_pos hclose]
    exact advance_succeeds_last hlex₄
  | list hw₁ hx hitems hw₂ ih ihs =>
    intro n ws t t' hw hlex
    refine succeeds_at_token hw hlex nofun fun token t₁ hkind hlex₁ => ?_
    simp only [hkind, descend]
    -- The elements are one level deeper, where the induction hypotheses apply.
    exact .nested (list_succeeds hw₁ hx hitems hw₂ (ih (n + 1))
      (fun item hitem => ihs item hitem (n + 1)) hlex₁)

/-- An expression derived with nesting at most the bound is read at the outermost level. -/
theorem expression_succeeds {ks : List Token.Kind} {d : Datum} (h : Expr maxNesting ks d) :
    expression.Accepts 0 ks d := by
  intro ws t t' hw hlex p hp
  unfold expression
  rw [Parser.run_bind, Parser.run_get]
  dsimp only
  rw [hp.depth_eq]
  exact expressionWithin_succeeds h 0 ws t t' hw hlex p hp

/-- At the end, and at white space before it, the answer is yes. -/
theorem isDone_succeeds_of_end {ws : List Token.Kind} (hw : OptBlank ws) (hlex : Lexes t ws []) :
    isDone.Succeeds n t fun done _ => done = true := by
  have hskip : skipBlank.Succeeds n t fun _ t' => t' = [] := by
    intro p hp
    -- The text is at its end, or only white space stands before it.
    cases hw with
    | absent =>
      obtain rfl := hlex.eq_of_nil
      obtain ⟨_, p', t', hrun, hp', -, ht'⟩ := skipBlank_succeeds_of_ne .endOfInput nofun p hp
      exact ⟨_, p', t', hrun, hp', ht'⟩
    | present =>
      obtain ⟨mid, hnext, hrest⟩ := Next.of_lexes hlex
      obtain ⟨_, p', t', hrun, hp', -, ht'⟩ := skipBlank_succeeds_of_blank hnext p hp
      exact ⟨_, p', t', hrun, hp', ht'.trans hrest.eq_of_nil⟩
  refine hskip.bind fun _ t₁ ht₁ => ?_
  subst ht₁
  exact (peek_succeeds .endOfInput).bind fun token _ hpeek => .pure (decide_eq_true hpeek.2)

/-- Before a token that is neither blank nor the end the answer is no. -/
theorem isDone_succeeds_of_token {ws ks : List Token.Kind} {k : Token.Kind} {t' : List Char}
    (hw : OptBlank ws) (hlex : Lexes t (ws ++ k :: ks) t') (hk : k ≠ .blank)
    (hend : k ≠ .endOfInput) :
    isDone.Succeeds n t fun done t₁ => done = false ∧ Lexes t₁ (k :: ks) t' := by
  refine succeeds_at_token hw hlex hk fun token t₁ hkind hlex₁ => .pure ⟨?_, hlex₁⟩
  exact decide_eq_false (hkind ▸ hend)

/-- A derived sequence of expressions is read to its end. -/
theorem expressionsUpTo_succeeds {ws rest : List Token.Kind} {ds : List Datum} {fuel : Nat}
    (hseq : Sequence rest ds) (hw : OptBlank ws) (hlex : Lexes t (ws ++ rest) [])
    (hfuel : ds.length < fuel) : (expressionsUpTo fuel).Succeeds 0 t fun a _ => a = ds := by
  induction hseq generalizing ws t fuel with
  | nil =>
    obtain ⟨fuel, rfl⟩ : ∃ f, fuel = f + 1 := ⟨fuel - 1, by omega⟩
    rw [List.append_nil] at hlex
    refine (isDone_succeeds_of_end hw hlex).bind fun done t₁ hdone => ?_
    rw [if_pos hdone]
    exact .pure rfl
  | @cons ks ws' rest d ds hx hw' hrest ih =>
    obtain ⟨fuel, rfl⟩ : ∃ f, fuel = f + 1 := ⟨fuel - 1, by omega⟩
    rw [List.length_cons] at hfuel
    obtain ⟨k, ks, rfl, hne, -, hend⟩ := hx.starts
    refine (isDone_succeeds_of_token hw hlex hne hend).bind fun done t₁ hdone => ?_
    obtain ⟨rfl, hlex₁⟩ := hdone
    rw [if_neg Bool.false_ne_true]
    -- The expression ends at `t₂`, where the next one is read.
    obtain ⟨t₂, hks, hmore⟩ := Lexes.append_inv (k :: ks) hlex₁
    refine (expression_succeeds hx [] t₁ t₂ .absent hks).bind fun a t₃ hread => ?_
    obtain ⟨rfl, rfl⟩ := hread
    refine (ih hw' hmore (by omega)).bind fun ds' _ hds => .pure ?_
    rw [hds]

end ParseM

/-! ## Whole source texts -/

/-- Each expression has at least one token. -/
private theorem Grammar.Sequence.length_le {ks : List Token.Kind} {ds : List Datum}
    (h : Sequence ks ds) :
    ds.length ≤ ks.length := by
  induction h with
  | nil => exact Nat.le_refl _
  | cons hx hw hrest ih =>
    obtain ⟨k, rest, rfl, -⟩ := hx.starts
    simp only [List.length_cons, List.length_append]
    omega

/-- A text is read to its end exactly when the grammar derives its tokenization. -/
theorem parseAll_eq_ok_iff_lexes (source : String) (ds : List Datum) :
    parseAll source = .ok ds ↔ ∃ ks, Program ks ds ∧ Lexes source.toList ks [] := by
  have hstart := Parser.at_ofSource source
  -- The fuel is one more than the length of the text.
  have hrun : (Parser.ofSource source).run ParseM.expressions =
      (Parser.ofSource source).run (ParseM.expressionsUpTo (source.toList.length + 1)) := by
    unfold ParseM.expressions
    rw [Parser.run_bind, ParseM.run_pending, hstart.text_eq]
  unfold parseAll
  rw [hrun]
  constructor
  · intro h
    cases hout : (Parser.ofSource source).run
        (ParseM.expressionsUpTo (source.toList.length + 1)) with
    | mk outcome p =>
      rw [hout] at h
      dsimp only at h
      subst h
      obtain ⟨t', -, hprogram⟩ :=
        ParseM.expressionsUpTo_yields (Nat.lt_succ_self _) _ hstart ds p hout
      exact hprogram
  · rintro ⟨_, ⟨ws, rest, hw, hseq, rfl⟩, hlex⟩
    -- There are no more data than tokens, and no more tokens than characters.
    have hfuel : ds.length < source.toList.length + 1 := by
      have h₁ := hseq.length_le
      have h₂ := hlex.length_le
      rw [List.length_append] at h₂
      omega
    obtain ⟨a, p, t', hout, -, rfl⟩ :=
      ParseM.expressionsUpTo_succeeds hseq hw hlex hfuel _ hstart
    rw [hout]

/-- A text is read as one datum exactly when its tokenization is one expression with optional white
    space around it. -/
theorem parseSingle_eq_ok_iff_lexes (source : String) (d : Datum) :
    parseSingle source = .ok d ↔ ∃ ws ks ws', OptBlank ws ∧ Expr maxNesting ks d ∧ OptBlank ws' ∧
      Lexes source.toList (ws ++ (ks ++ ws')) [] := by
  have hstart := Parser.at_ofSource source
  unfold parseSingle
  constructor
  · intro h
    -- Only white space may follow the expression.
    have hdone : ∀ t, ParseM.assertDone.Yields 0 t fun _ _ =>
        ∃ ws, OptBlank ws ∧ Lexes t ws [] := by
      intro t
      refine ParseM.isDone_yields.bind fun done t₁ hdone => ?_
      obtain ⟨-, ⟨ws, hw, hws⟩, hend⟩ := hdone
      cases done with
      | true => exact .pure ⟨ws, hw, hend rfl ▸ hws⟩
      | false => exact ParseM.peek_yields.bind fun _ _ _ => .failAt
    have hsingle : ParseM.single.Yields 0 source.toList fun d _ => ∃ ws ks ws', OptBlank ws ∧
        Expr maxNesting ks d ∧ OptBlank ws' ∧ Lexes source.toList (ws ++ (ks ++ ws')) [] := by
      refine ParseM.expression_yields.bind fun d t₁ hread => ?_
      obtain ⟨ws, ks, hw, hx, hlex⟩ := hread
      refine (hdone t₁).bind fun _ t₂ hrest => .pure ?_
      obtain ⟨ws', hw', hws'⟩ := hrest
      exact ⟨ws, ks, ws', hw, hx, hw', by simpa using hlex.append hws'⟩
    cases hout : (Parser.ofSource source).run ParseM.single with
    | mk outcome p =>
      rw [hout] at h
      dsimp only at h
      subst h
      obtain ⟨-, -, hread⟩ := hsingle _ hstart d p hout
      exact hread
  -- The text is cut where the expression ends; what follows is optional white space.
  · rintro ⟨ws, ks, ws', hw, hx, hw', hlex⟩
    rw [← List.append_assoc] at hlex
    obtain ⟨t₁, hks, hws'⟩ := Lexes.append_inv (ws ++ ks) hlex
    have hsingle : ParseM.single.Succeeds 0 source.toList fun a _ => a = d := by
      refine (ParseM.expression_succeeds hx ws _ t₁ hw hks).bind fun a t₂ hread => ?_
      obtain ⟨rfl, rfl⟩ := hread
      have hassert : ParseM.assertDone.Succeeds 0 t₂ fun _ _ => True := by
        refine (ParseM.isDone_succeeds_of_end hw' hws').bind fun done _ hdone => ?_
        subst hdone
        exact .pure trivial
      exact hassert.bind fun _ _ _ => .pure rfl
    obtain ⟨a, p, -, hout, -, rfl⟩ := hsingle _ hstart
    rw [hout]

/-- The tokens of a source text, up to the end of input, denote the data `ds`. -/
def Denotes (source : String) (ds : List Datum) : Prop :=
  ∃ tokens last, (Scanner.ofSource source).scanTokens.1 = .ok (tokens ++ [last]) ∧
    last.kind = .endOfInput ∧ Program (tokens.map (·.kind)) ds

/-- Reading a source text succeeds exactly when its tokens are a program of the grammar, and gives
    the one sequence of data that they denote; every other text is refused with a fault. -/
theorem parseAll_eq_ok_iff_denotes (source : String) :
    (∀ ds, parseAll source = .ok ds ↔ Denotes source ds) ∧
      (∀ ds ds', Denotes source ds → Denotes source ds' → ds = ds') ∧
      (∀ ks ds ds', Program ks ds → Program ks ds' → ds = ds') ∧
      ((¬ ∃ ds, Denotes source ds) → ∃ fault, parseAll source = .error fault) := by
  have hiff : ∀ ds, parseAll source = .ok ds ↔ Denotes source ds := by
    intro ds
    rw [parseAll_eq_ok_iff_lexes]
    constructor
    -- What the scanner delivers is the tokenization of the text, with the end of input behind it.
    · rintro ⟨ks, hprogram, hlex⟩
      obtain ⟨tokens, last, hok, rfl, hlast⟩ := (Scanner.scanTokens_eq_ok_iff source ks).2 hlex
      exact ⟨tokens, last, hok, hlast, hprogram⟩
    · rintro ⟨tokens, last, hok, hlast, hprogram⟩
      exact ⟨_, hprogram, (Scanner.scanTokens_eq_ok_iff source _).1 ⟨tokens, last, hok, rfl, hlast⟩⟩
  refine ⟨hiff, ?_, fun ks ds ds' => Program.unique, fun hnone => ?_⟩
  · intro ds ds' h h'
    exact Except.ok.inj (((hiff ds).2 h).symm.trans ((hiff ds').2 h'))
  · cases hparse : parseAll source with
    | error fault => exact ⟨fault, rfl⟩
    | ok ds => exact absurd ⟨ds, (hiff ds).1 hparse⟩ hnone

end ScopeLisp
