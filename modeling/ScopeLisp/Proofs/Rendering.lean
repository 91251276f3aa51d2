import ScopeLisp.Store.Render
import ScopeLisp.Proofs.Atoms
import ScopeLisp.Proofs.Parts

/-!
# Tokens of rendered values

Plain values are made of atoms, proper lists and quotes, without callables and scopes. The text of
such a value is made of the texts of its atoms, with marks and single spaces around them. None of
these makes its neighbour longer, so the tokens of the whole text are known, provided that each
atom has tokens of its own. A number always has some: its sign, and the words for infinity and
not-a-number, are scanned as symbols.

## Key results

- `Double.lexes_text`: the tokens of a number
- `Value.lexes_render`, `Store.lexes_render`: the tokens of a plain value
-/

namespace ScopeLisp

/-! ## Plain values and their tokens -/

/-- The kinds of the tokens of a number. -/
def Double.kinds (x : Double) : List Token.Kind :=
  if x.isNaN then [.symbol "NaN"]
  else
    (if x.negative then [.symbol "-"] else []) ++
      (if x.isInfinite then [.symbol "Infinity"] else [.number x.abs])

namespace Value

/-- No callable and no scope, and the rest of a list is a list. -/
def IsPlain : Value → Prop
  | pair _ _ tail => tail.isList = true
  | native _ | lambda .. | environment _ => False
  | _ => True

/-- The value is built from empty lists, booleans, numbers, strings and symbols, by proper lists and
    quotes. -/
def Plain (v : Value) : Prop :=
  v.All IsPlain

/-- No boolean, no string with a double quote, and no symbol that is neither a name nor an
    operator. -/
def IsLegible : Value → Prop
  | bool _ => False
  | string _ text => '"' ∉ text.toList
  | symbol name => Lexeme.isSymbolName name.toList = true
  | _ => True

instance : DecidablePred IsPlain
  | pair _ _ tail => inferInstanceAs (Decidable (tail.isList = true))
  | native _ | lambda .. | environment _ => inferInstanceAs (Decidable False)
  | nil | bool _ | number _ | string .. | symbol _ | quoted .. => inferInstanceAs (Decidable True)

instance (v : Value) : Decidable v.Plain :=
  inferInstanceAs (Decidable (v.All IsPlain))

instance : DecidablePred IsLegible
  | bool _ => inferInstanceAs (Decidable False)
  | string _ text => inferInstanceAs (Decidable ('"' ∉ text.toList))
  | symbol name => inferInstanceAs (Decidable (Lexeme.isSymbolName name.toList = true))
  | nil | number _ | pair .. | quoted .. | native _ | lambda .. | environment _ =>
    inferInstanceAs (Decidable True)

mutual

/-- The kinds of the tokens of a plain value. Booleans have none, as no token starts like them. -/
def kinds : Value → List Token.Kind
  | nil => [.leftParen, .rightParen]
  | number x => x.kinds
  | string _ text => [.string text]
  | symbol name => [.symbol name]
  | pair _ head tail => .leftParen :: (head.kinds ++ (tail.kindsRest ++ [.rightParen]))
  | quoted _ inner => .quote :: inner.kinds
  | bool _ | native _ | lambda .. | environment _ => []

/-- The kinds of the tokens of the rest of a list. -/
def kindsRest : Value → List Token.Kind
  | pair _ head tail => .blank :: (head.kinds ++ tail.kindsRest)
  | _ => []

end

end Value

/-- A number that is neither infinite nor not-a-number is finite. -/
theorem Double.isFinite_of_not {x : Double} (hnan : ¬ x.isNaN = true)
    (hinf : ¬ x.isInfinite = true) : x.isFinite = true := by
  simp only [isNaN, isInfinite, isFinite, decide_eq_true_eq] at hnan hinf ⊢
  omega

/-- A number has a token, and it is not blank. -/
private theorem Double.exists_kinds_eq_cons (x : Double) :
    ∃ k ks, x.kinds = k :: ks ∧ k ≠ .blank := by
  -- The first token is the word for not-a-number, a sign, the word for infinity or the digits.
  unfold kinds
  by_cases hnan : x.isNaN = true
  · exact ⟨_, _, if_pos hnan, nofun⟩
  · rw [if_neg hnan]
    by_cases hneg : x.negative = true
    · rw [if_pos hneg]
      exact ⟨_, _, rfl, nofun⟩
    · rw [if_neg hneg, List.nil_append]
      by_cases hinf : x.isInfinite = true
      · exact ⟨_, _, if_pos hinf, nofun⟩
      · exact ⟨_, _, if_neg hinf, nofun⟩

/-- A plain value that can be written has a token, and it is not blank. -/
private theorem Value.exists_kinds_eq_cons {v : Value} (hv : v.Plain) (hl : v.All IsLegible) :
    ∃ k ks, v.kinds = k :: ks ∧ k ≠ .blank := by
  cases v with
  | number x => exact x.exists_kinds_eq_cons
  | nil | string _ _ | symbol _ | pair _ _ _ | quoted _ _ => exact ⟨_, _, rfl, nofun⟩
  | bool b => exact hl.elim
  | native b => exact hv.elim
  | lambda kind id params body scope => exact hv.1.elim
  | environment e => exact hv.elim

/-! ## One token in front of a text -/

section

variable {text more rest : List Char} {k : Token.Kind} {ks : List Token.Kind}

/-- A lexeme in front of a text that breaks it. -/
theorem Lexes.of_scan? (h : Lexeme.scan? text = some ⟨k, text, []⟩) (hk : k ≠ .blank)
    (hmore : Lexeme.Breaks more) : Lexes (text ++ more) [k] more :=
  .token (Lexeme.scan?_append h hmore fun hblank => absurd hblank hk) (.done more)

/-- A mark in front of a text. -/
private theorem Lexes.mark {c : Char} (h : Lexeme.mark? (c :: text) = some ⟨k, [c], text⟩)
    (hrest : Lexes text ks rest) : Lexes (c :: text) (k :: ks) rest :=
  .token (Lexeme.scan?_of_mark? h) hrest

/-- A blank character is a token of its own unless more white space follows. -/
theorem Lexes.blank {c : Char} (hc : Text.isBlank c = true) (h : Lexes text (k :: ks) rest)
    (hk : k ≠ .blank) : Lexes (c :: text) (.blank :: k :: ks) rest := by
  have hsolid := h.blankRun_eq_nil hk
  have hrest : (Lexeme.blankRun false text).2 = text := by
    have happ := Lexeme.blankRun_append false text
    rwa [hsolid, List.nil_append] at happ
  have hsemicolon : c ≠ ';' := by
    rintro rfl
    exact absurd hc (by decide)
  -- The run is the one character, since no white space follows and it starts no comment.
  have hrun : Lexeme.blankRun false (c :: text) = ([c], text) := by
    rw [Lexeme.blankRun, if_pos (by simp [hc])]
    simp [hsemicolon, hsolid, hrest]
  have hne : (Lexeme.blankRun false (c :: text)).1 ≠ [] := by
    rw [hrun]
    exact List.cons_ne_nil _ _
  have hscan := Lexeme.scan?_of_blankRun hne
  rw [hrun] at hscan
  exact .token hscan h

/-- A space in front of a text that does not start with white space. -/
private theorem Lexes.space (h : Lexes text (k :: ks) rest) (hk : k ≠ .blank) :
    Lexes (' ' :: text) (.blank :: k :: ks) rest :=
  h.blank (by decide) hk

/-- A minus sign is a symbol of its own unless an operator follows. -/
theorem Lexes.minus (h : Lexes text ks rest)
    (htext : ∀ c, text.head? = some c → Lexeme.isOperatorChar c = false) :
    Lexes ('-' :: text) (.symbol "-" :: ks) rest := by
  have hsymbol : Lexeme.symbolOf Lexeme.isOperatorChar ('-' :: text) =
      ⟨.symbol "-", ['-'], text⟩ := Lexeme.symbolOf_append htext ['-']
  have hscan : Lexeme.scan? ('-' :: text) = some ⟨.symbol "-", ['-'], text⟩ := by
    apply Lexeme.scan?_of_symbol?
    rw [← hsymbol]
    rfl
  exact .token hscan h

/-- A number does not start with an operator. -/
theorem Lexes.head?_of_number {x : Double} (h : Lexes text (.number x :: ks) rest) (c : Char)
    (hc : text.head? = some c) : Lexeme.isOperatorChar c = false := by
  rw [Bool.eq_false_iff]
  intro hoperator
  obtain ⟨tail, rfl⟩ := List.head?_eq_some_iff.1 hc
  -- An operator would have been taken for a symbol.
  have hsymbol : Lexeme.symbol? (c :: tail) =
      some (Lexeme.symbolOf Lexeme.isOperatorChar (c :: tail)) := by
    simp [Lexeme.symbol?, Lexeme.isNameStart_of_isOperatorChar hoperator, hoperator]
  generalize hks : Token.Kind.number x :: ks = kinds at h
  cases h with
  | done => cases hks
  | token hl _ =>
    rw [Lexeme.scan?_of_symbol? hsymbol] at hl
    rw [← Option.some.inj hl] at hks
    cases hks

end

/-- A space breaks every lexeme. -/
private theorem Lexeme.breaks_space (more : List Char) : Breaks (' ' :: more) := by
  intro c hc
  obtain rfl := Option.some.inj hc
  decide

/-! ## Whole values -/

variable {more : List Char}

/-- The text of a number has the tokens of the number. -/
theorem Double.lexes_text (x : Double) (hmore : Lexeme.Breaks more) :
    Lexes ((x.text "Infinity").toList ++ more) x.kinds more := by
  unfold text kinds
  by_cases hnan : x.isNaN = true
  · rw [if_pos hnan, if_pos hnan]
    exact .of_scan? (Lexeme.scan?_symbol (by decide)) nofun hmore
  · rw [if_neg hnan, if_neg hnan]
    -- What follows the sign starts with no operator, so the sign is a symbol of its own.
    have hsign : ∀ {body : String} {ks : List Token.Kind},
        Lexes (body.toList ++ more) ks more →
        (∀ c, (body.toList ++ more).head? = some c → Lexeme.isOperatorChar c = false) →
        Lexes (((if x.negative then "-" else "") ++ body).toList ++ more)
          ((if x.negative then [.symbol "-"] else []) ++ ks) more := by
      intro body ks hbody hhead
      by_cases hneg : x.negative = true
      · rw [if_pos hneg, if_pos hneg, String.toList_append]
        exact hbody.minus hhead
      · rw [if_neg hneg, if_neg hneg, String.toList_append]
        exact hbody
    -- Behind the sign stands a word or a run of digits.
    by_cases hinf : x.isInfinite = true
    · rw [if_pos hinf, if_pos hinf]
      apply hsign
      · exact .of_scan? (Lexeme.scan?_symbol (by decide)) nofun hmore
      · intro c hc
        obtain rfl := Option.some.inj hc
        decide
    · rw [if_neg hinf, if_neg hinf]
      have hfinite := isFinite_of_not hnan hinf
      have hdigits := Lexes.of_scan? (Lexeme.scan?_number hfinite) nofun hmore
      exact hsign hdigits hdigits.head?_of_number

/-- The text of a plain value has the tokens of the value, and so has the rest of a list up to its
    closing parenthesis. -/
theorem Value.lexes_render (scopeText : ScopeId → String) (v : Value) (hv : v.Plain)
    (hl : v.All IsLegible) :
    (∀ more, Lexeme.Breaks more → Lexes ((v.render scopeText).toList ++ more) v.kinds more) ∧
      (v.isList = true → ∀ more,
        Lexes ((v.renderRest scopeText).toList ++ ')' :: more) v.kindsRest (')' :: more)) := by
  induction v with
  | nil =>
    refine ⟨fun more _ => ?_, fun _ more => .done _⟩
    have hclose : Lexes (')' :: more) [.rightParen] more := .mark rfl (.done more)
    simpa [render, kinds] using Lexes.mark (c := '(') rfl hclose
  | bool b => exact hl.elim
  -- A number may be several tokens: a sign, and digits or a word.
  | number x => exact ⟨fun more hmore => x.lexes_text hmore, nofun⟩
  | string id text =>
    refine ⟨fun more hmore => ?_, nofun⟩
    have hlexes := Lexes.of_scan? (Lexeme.scan?_string hl) nofun hmore
    simpa [render, kinds] using hlexes
  | symbol name =>
    exact ⟨fun more hmore => .of_scan? (Lexeme.scan?_symbol hl) nofun hmore, nofun⟩
  | pair id head tail ihh iht =>
    obtain ⟨hhead, -⟩ := ihh hv.2.1 hl.2.1
    obtain ⟨-, htail⟩ := iht hv.2.2 hl.2.2
    -- An element is followed by the next one or by the closing parenthesis; both break it.
    have hitems : ∀ more, Lexes ((head.render scopeText).toList ++
        ((tail.renderRest scopeText).toList ++ ')' :: more)) (head.kinds ++ tail.kindsRest)
          (')' :: more) := by
      intro more
      refine (hhead _ ?_).append (htail hv.1 more)
      cases tail with
      | pair id' head' tail' =>
        simp only [renderRest, String.toList_append, List.append_assoc]
        exact Lexeme.breaks_space _
      | _ => exact Lexeme.breaks_rightParen _
    constructor
    · intro more hmore
      have hclose : Lexes (')' :: more) [.rightParen] more := .mark rfl (.done more)
      have hlist := Lexes.mark (c := '(') rfl ((hitems more).append hclose)
      simpa [render, kinds] using hlist
    -- In the rest of a list the space in front of the element is a token, too.
    · intro _ more
      obtain ⟨k, ks, hkinds, hk⟩ := exists_kinds_eq_cons hv.2.1 hl.2.1
      have hitems' := hitems more
      rw [hkinds, List.cons_append] at hitems'
      simpa [renderRest, kindsRest, hkinds] using hitems'.space hk
  | quoted id inner ih =>
    refine ⟨fun more hmore => ?_, nofun⟩
    have hinner := (ih hv.2 hl.2).1 more hmore
    simpa [render, kinds] using Lexes.mark (c := '\'') rfl hinner
  | native b => exact hv.elim
  | lambda kind id params body scope ih => exact hv.1.elim
  | environment e => exact hv.elim

/-- The text of a plain value, on its own, has the tokens of the value. -/
theorem Store.lexes_render (s : Store) {v : Value} (hv : v.Plain) (hl : v.All Value.IsLegible) :
    Lexes (s.render v).toList v.kinds [] := by
  have hlexes := (v.lexes_render (s.renderScope s.scopes.size []) hv hl).1 [] Lexeme.breaks_nil
  rwa [List.append_nil] at hlexes

end ScopeLisp
