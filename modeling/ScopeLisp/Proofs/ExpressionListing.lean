import ScopeLisp.CommandLine.Shell
import ScopeLisp.Proofs.Decimals
import ScopeLisp.Proofs.ProperLists
import ScopeLisp.Proofs.RoundTrip
import ScopeLisp.Proofs.TokenPatterns

/-!
# Listings of expressions

A listing has one line for each expression of a source text, with the text of the expression. Such
a listing is a source text itself, of as many expressions, and its own listing.

The expressions need not be the same. A literal too large for a double is infinite; it is written
as a word, and the word is read back as a symbol, which is written alike. So each expression is
compared with its respelling, which has symbols in the place of infinite numbers. Respellings are
readable, and numbers read from a text have no sign, so they are read back exactly.

## Key results

- `Lexes.unsigned`: literals have neither sign nor not-a-number
- `Value.render_respelled`, `Value.readable_respelled`: respelling keeps the text and makes it
  readable
- `exists_sequence_datumListing`: lines are tokenized and read back one by one
- `expressionListing_fixed_point`: the listing of a listing
-/

namespace ScopeLisp

open Grammar

/-! ## Literals have no sign -/

/-- A number that is neither negative nor not-a-number; it may be infinite. -/
def Token.Kind.IsUnsigned : Token.Kind → Prop
  | .number x => x.isNaN = false ∧ x.negative = false
  | _ => True

/-- A literal is a number. -/
private theorem Double.isNaN_ofDecimal (d : Decimal) : (ofDecimal d).isNaN = false := by
  unfold ofDecimal
  split
  · split
    · decide
    · split
      · decide
      · exact isNaN_ofRatio ..
  · exact isNaN_ofRatio ..

/-- A lexeme has no sign. -/
private theorem Lexeme.unsigned_of_scan? {text : List Char} {l : Lexeme} (h : scan? text = some l) :
    l.kind.IsUnsigned := by
  simp only [scan?, Option.orElse_eq_orElse, Option.orElse_eq_or, Option.or_eq_some_iff] at h
  -- Only the number scanner gives a number.
  rcases h with h | ⟨-, h | ⟨-, h | ⟨-, h | ⟨-, h⟩⟩⟩⟩
  · rw [kind_of_blank? h]
    trivial
  · obtain ⟨content, hkind⟩ := kind_of_string? h
    rw [hkind]
    trivial
  · obtain ⟨n, -, rfl⟩ := Option.map_eq_some_iff.1 h
    exact ⟨Double.isNaN_ofDecimal _, Double.negative_ofDecimal _⟩
  · unfold mark? at h
    split at h
    case h_4 => cases h
    all_goals
      obtain rfl := Option.some.inj h
      trivial
  · rw [kind_of_symbol? h]
    trivial

/-- Numbers that are read from a text have no sign. -/
theorem Lexes.unsigned {text rest : List Char} {ks : List Token.Kind} (h : Lexes text ks rest) :
    ∀ k ∈ ks, k.IsUnsigned := by
  induction h with
  | done text => exact nofun
  | token hl _ ih => exact List.forall_mem_cons.2 ⟨Lexeme.unsigned_of_scan? hl, ih⟩

/-- Numbers that compare equal and have the same sign are the same double. -/
theorem Double.eq_of_equals {x y : Double} (h : x.equals y = true)
    (hsign : x.negative = y.negative) : x = y := by
  simp only [equals, Bool.and_eq_true, Bool.or_eq_true, decide_eq_true_eq] at h
  -- Doubles that compare equal are the same one, or both zero.
  obtain ⟨-, rfl | ⟨hx, hy⟩⟩ := h
  · rfl
  · -- Both are zero, with the same sign.
    simp only [isZero, decide_eq_true_eq] at hx hy
    obtain ⟨negative, magnitude⟩ := x
    obtain ⟨negative', magnitude'⟩ := y
    obtain rfl : negative = negative' := hsign
    obtain rfl : magnitude = magnitude' := Fin.ext (hx.trans hy.symm)
    rfl

/-! ## Values of expressions -/

namespace Value

/-- A part of a value that a source text denotes. -/
def IsWritten : Value → Prop
  | number x => x.isNaN = false ∧ x.negative = false
  | v => v.IsPlain ∧ v.IsLegible

/-- The value with symbols in the place of infinite numbers. -/
def respelled : Value → Value
  | number x => if x.isInfinite then symbol "Infinity" else number x
  | pair id head tail => pair id head.respelled tail.respelled
  | quoted id inner => quoted id inner.respelled
  | v => v

/-- Respelling turns lists into lists, and nothing else. -/
private theorem isList_respelled (v : Value) : v.respelled.isList = v.isList := by
  cases v with
  | number x =>
    unfold respelled
    split <;> rfl
  | _ => rfl

/-- Respelling keeps the nesting. -/
private theorem nesting_respelled (v : Value) : v.respelled.nesting = v.nesting := by
  induction v with
  | number x =>
    unfold respelled
    split <;> rfl
  | pair id head tail ihh iht => simp only [respelled, nesting, ihh, iht]
  | quoted id inner ih => simp only [respelled, nesting, ih]
  | _ => rfl

/-- Infinite numbers are written like the symbols in their place. -/
theorem render_respelled {v : Value} (hv : v.All IsWritten) (f g : ScopeId → String) :
    v.respelled.render f = v.render g ∧ v.respelled.renderRest f = v.renderRest g := by
  induction v with
  | number x =>
    refine ⟨?_, by unfold respelled; split <;> rfl⟩
    -- With neither sign nor not-a-number, an infinite number is written as the word.
    by_cases hinfinite : x.isInfinite = true
    · have htext : x.text "Infinity" = "Infinity" := by
        simp [Double.text, hinfinite, hv.1, hv.2]
      simp [respelled, render, hinfinite, htext]
    · simp [respelled, render, hinfinite]
  | pair id head tail ihh iht =>
    simp only [respelled, render, renderRest, (ihh hv.2.1).1, (iht hv.2.2).2, and_self]
  | quoted id inner ih => simp only [respelled, render, renderRest, (ih hv.2).1, and_self]
  | nil | bool _ | string _ _ | symbol _ => exact ⟨rfl, rfl⟩
  | native b => exact hv.1.elim
  | lambda kind id params body scope => exact hv.1.1.elim
  | environment e => exact hv.1.elim

/-- Respelling keeps a value plain. -/
private theorem plain_respelled {v : Value} (hv : v.All IsWritten) : v.respelled.Plain := by
  induction v with
  | number x =>
    unfold respelled
    split <;> trivial
  | pair id head tail ihh iht =>
    exact ⟨(isList_respelled tail).trans hv.1.1, ihh hv.2.1, iht hv.2.2⟩
  | quoted id inner ih => exact ⟨trivial, ih hv.2⟩
  | lambda kind id params body scope => exact hv.1.1.elim
  | _ => exact hv.1

/-- A respelled value is legible: the word in the place of an infinite number is a symbol. -/
private theorem legible_respelled {v : Value} (hv : v.All IsWritten) :
    v.respelled.All IsLegible := by
  -- The only new symbol is the word for infinity.
  induction v with
  | number x =>
    unfold respelled
    split
    · show Lexeme.isSymbolName "Infinity".toList = true
      decide
    · trivial
  | pair id head tail ihh iht => exact ⟨trivial, ihh hv.2.1, iht hv.2.2⟩
  | quoted id inner ih => exact ⟨trivial, ih hv.2⟩
  | lambda kind id params body scope => exact hv.1.1.elim
  | _ => exact hv.2

/-- A respelled value has no infinite numbers and no signs. -/
private theorem unsigned_respelled {v : Value} (hv : v.All IsWritten) :
    v.respelled.All IsUnsigned := by
  -- The numbers that are left are finite.
  induction v with
  | number x =>
    unfold respelled
    split
    · trivial
    · next hinfinite =>
      exact ⟨Double.isFinite_of_not (Bool.eq_false_iff.1 hv.1) hinfinite, hv.2⟩
  | pair id head tail ihh iht => exact ⟨trivial, ihh hv.2.1, iht hv.2.2⟩
  | quoted id inner ih => exact ⟨trivial, ih hv.2⟩
  | lambda kind id params body scope => exact hv.1.1.elim
  | _ => trivial

/-- A respelled value is readable. -/
theorem readable_respelled {v : Value} (hv : v.All IsWritten) (hn : v.nesting ≤ maxNesting) :
    v.respelled.Readable where
  legible := legible_respelled hv
  unsigned := unsigned_respelled hv
  nesting_le := (nesting_respelled v).trans_le hn

end Value

namespace Datum

/-- A datum that can be read becomes a value whose parts a source text denotes. -/
theorem written_load {d : Datum} (hd : d.WellFormed)
    (hatoms : ∀ k ∈ d.atoms, Lexeme.Legible k ∧ k.IsUnsigned) (s : Store) :
    (s.load d).1.All Value.IsWritten := by
  -- The atoms are divided between the head and the tail.
  induction d generalizing s with
  | nil => exact ⟨trivial, trivial⟩
  | number x => exact (hatoms (.number x) List.mem_cons_self).2
  | string text => exact ⟨trivial, (hatoms (.string text) List.mem_cons_self).1⟩
  | symbol name => exact ⟨trivial, hd⟩
  | pair head tail ihh iht =>
    have hlist := (hd.2.2.load (s.load head).2).2 hd.1
    refine ⟨⟨hlist, trivial⟩, ihh hd.2.1 (fun k hk => ?_) s, iht hd.2.2 (fun k hk => ?_) _⟩
    · exact hatoms k (List.mem_append_left _ hk)
    · exact hatoms k (List.mem_append_right _ hk)
  | quoted inner ih => exact ⟨⟨trivial, trivial⟩, ih hd hatoms s⟩

/-- A value is nested as deeply as its datum. -/
private theorem nesting_load (d : Datum) (s : Store) : (s.load d).1.nesting = d.nesting := by
  induction d generalizing s with
  | pair head tail ihh iht =>
    show max ((s.load head).1.nesting + 1) ((s.load head).2.load tail).1.nesting = _
    rw [ihh, iht]
    rfl
  | quoted inner ih =>
    show (s.load inner).1.nesting + 1 = _
    rw [ih]
    rfl
  | nil | number _ | string _ | symbol _ => rfl

/-- A datum that denotes a value without signs, and has none itself, is written like the value. -/
theorem Matches.render_load {d : Datum} {v : Value} (h : d.Matches v) (hv : v.All Value.IsUnsigned)
    (hatoms : ∀ k ∈ d.atoms, k.IsUnsigned) (s : Store) (f g : ScopeId → String) :
    (s.load d).1.render f = v.render g ∧ (s.load d).1.renderRest f = v.renderRest g := by
  -- Data match up to the sign of zeros, which neither side has.
  induction h generalizing s with
  | nil | string _ _ | symbol _ => exact ⟨rfl, rfl⟩
  | @number x y heq =>
    have hsign := (hatoms (.number x) List.mem_cons_self).2
    obtain rfl := Double.eq_of_equals heq (hsign.trans hv.2.symm)
    exact ⟨rfl, rfl⟩
  | @pair d ds v vs id hd hds ihd ihds =>
    have hhead := ihd hv.2.1 (fun k hk => hatoms k (List.mem_append_left _ hk)) s
    have htail := ihds hv.2.2 (fun k hk => hatoms k (List.mem_append_right _ hk)) (s.load d).2
    constructor
    · show "(" ++ (s.load d).1.render f ++ ((s.load d).2.load ds).1.renderRest f ++ ")" = _
      rw [hhead.1, htail.2]
      rfl
    · show " " ++ (s.load d).1.render f ++ ((s.load d).2.load ds).1.renderRest f = _
      rw [hhead.1, htail.2]
      rfl
  | @quoted d v id hd ih =>
    refine ⟨?_, rfl⟩
    show "'" ++ (s.load d).1.render f = _
    rw [(ih hv.2 hatoms s).1]
    rfl

end Datum

/-! ## Lines -/

/-- The atoms of a datum are among the tokens that it is read from. -/
theorem Grammar.Expr.mem_of_mem_atoms {n : Nat} {ks : List Token.Kind} {d : Datum}
    (h : Expr n ks d) {k : Token.Kind} (hk : k ∈ d.atoms) : k ∈ ks := by
  rw [← h.filter_isAtom] at hk
  exact (List.mem_filter.1 hk).1

/-- The text of a datum that can be read is an expression again, whose datum has the same text. -/
theorem Datum.Readable.exists_expr {d : Datum} (hd : d.Readable) (s : Store) :
    ∃ ks d', Expr maxNesting ks d' ∧
      (∀ t : Store, (t.load d').2.render (t.load d').1 = (s.load d).2.render (s.load d).1) ∧
      ∀ more, Lexeme.Breaks more →
        Lexes (((s.load d).2.render (s.load d).1).toList ++ more) ks more := by
  have hwellFormed := hd.wellFormed
  obtain ⟨_, ks, _, hx, hlex⟩ := hd
  have hwritten : (s.load d).1.All Value.IsWritten := by
    apply Datum.written_load hwellFormed
    intro k hk
    have hmem := hx.mem_of_mem_atoms hk
    exact ⟨hlex.legible k hmem, hlex.unsigned k hmem⟩
  have hnesting : (s.load d).1.nesting ≤ maxNesting := by
    rw [Datum.nesting_load]
    exact hx.nesting_le
  have hreadable := Value.readable_respelled hwritten hnesting
  have hplain := Value.plain_respelled hwritten
  obtain ⟨d', hx', hd'⟩ := (Value.exists_expr hplain hreadable.legible hreadable.unsigned).1
    maxNesting hreadable.nesting_le
  have hlines : ∀ more, Lexeme.Breaks more →
      Lexes (((s.load d).2.render (s.load d).1).toList ++ more)
        (s.load d).1.respelled.kinds more := by
    intro more hmore
    have hlexes := ((s.load d).1.respelled.lexes_render (fun _ => "") hplain
      hreadable.legible).1 more hmore
    rwa [(Value.render_respelled hwritten _ _).1] at hlexes
  refine ⟨_, d', hx', fun t => ?_, hlines⟩
  -- What is read back has been read from a text as well, so its numbers have no sign.
  have hunsigned := (hlines [] Lexeme.breaks_nil).unsigned
  have hatoms : ∀ k ∈ d'.atoms, k.IsUnsigned := fun k hk => hunsigned k (hx'.mem_of_mem_atoms hk)
  exact (hd'.render_load hreadable.unsigned hatoms t _ _).1.trans
    (Value.render_respelled hwritten (fun _ => "") _).1

/-- The end of a line is a token of its own, as the next line does not start with white space. -/
theorem Lexes.newline {text : List Char} {ks : List Token.Kind} (h : Lexes text ks [])
    (hk : ks.head? ≠ some .blank) : Lexes ('\n' :: text) (.blank :: ks) [] := by
  cases ks with
  | nil =>
    have hscan : Lexeme.scan? ['\n'] = some ⟨.blank, ['\n'], []⟩ := rfl
    rw [h.eq_of_nil]
    exact .token hscan (.done [])
  | cons k ks => exact h.blank (by decide) fun hblank => hk (congrArg some hblank)

/-- The data of a text can be read. -/
private theorem Grammar.Sequence.readable {text : List Char} {ks : List Token.Kind}
    {ds : List Datum}
    (h : Sequence ks ds) (hlex : Lexes text ks []) : ∀ d ∈ ds, d.Readable := by
  induction h generalizing text with
  | nil => exact nofun
  | @cons ks ws rest d ds hx hw hrest ih =>
    obtain ⟨mid, hfirst, hlex⟩ := Lexes.append_inv ks hlex
    obtain ⟨mid', -, hlex⟩ := Lexes.append_inv ws hlex
    exact List.forall_mem_cons.2 ⟨⟨text, ks, mid, hx, hfirst⟩, ih hlex⟩

namespace CommandLine

/-- A listing starts with the line of the first datum. -/
private theorem datumListing_cons (d : Datum) (ds : List Datum) :
    datumListing (d :: ds) =
      (Store.empty.load d).2.render (Store.empty.load d).1 ++ "\n" ++ datumListing ds := by
  simp [datumListing]

/-- The lines of data that can be read are as many expressions, with the same lines. -/
theorem exists_sequence_datumListing {ds : List Datum} (hds : ∀ d ∈ ds, d.Readable) :
    ∃ ks ds', Sequence ks ds' ∧ Lexes (datumListing ds).toList ks [] ∧ ds'.length = ds.length ∧
      datumListing ds' = datumListing ds := by
  -- One line after the other. What follows a line is read as the lines behind it.
  induction ds with
  | nil => exact ⟨[], [], .nil, .done [], rfl, rfl⟩
  | cons d ds ih =>
    obtain ⟨ks, ds', hseq, hlex, hlength, hlisting⟩ :=
      ih fun d' hd' => hds d' (List.mem_cons_of_mem _ hd')
    obtain ⟨ks₁, d', hx, htext, hlex₁⟩ := (hds d List.mem_cons_self).exists_expr .empty
    refine ⟨ks₁ ++ ([.blank] ++ ks), d' :: ds', .cons hx .present hseq, ?_, ?_, ?_⟩
    · -- The end of the line closes the expression.
      have hend := (hlex₁ _ (Lexeme.breaks_newline _)).append (hlex.newline hseq.head?_ne_blank)
      simpa [datumListing_cons] using hend
    · simp [hlength]
    · rw [datumListing_cons, datumListing_cons, htext, hlisting]

end CommandLine

/-- A listing of expressions is a source text of as many expressions, and is its own listing. -/
theorem expressionListing_fixed_point (source listing : String)
    (h : CommandLine.expressionListing source = .ok listing) :
    (∃ ds ds', parseAll source = .ok ds ∧ parseAll listing = .ok ds' ∧ ds'.length = ds.length) ∧
      CommandLine.expressionListing listing = .ok listing := by
  unfold CommandLine.expressionListing at h ⊢
  cases hparse : parseAll source with
  | error fault =>
    rw [hparse] at h
    exact nomatch h
  | ok ds =>
    rw [hparse] at h
    obtain rfl := Except.ok.inj h
    -- The data of the source have been read, so the lines of their listing can be.
    obtain ⟨_, ⟨ws, rest, -, hseq, rfl⟩, hlex⟩ := (parseAll_eq_ok_iff_lexes _ _).1 hparse
    obtain ⟨mid, -, hlex⟩ := Lexes.append_inv ws hlex
    obtain ⟨ks, ds', hseq', hlex', hlength, hlisting⟩ :=
      CommandLine.exists_sequence_datumListing (hseq.readable hlex)
    have hparse' : parseAll (CommandLine.datumListing ds) = .ok ds' :=
      (parseAll_eq_ok_iff_lexes _ _).2 ⟨ks, ⟨[], ks, .absent, hseq', rfl⟩, hlex'⟩
    refine ⟨⟨ds, ds', rfl, hparse', hlength⟩, ?_⟩
    rw [hparse']
    exact congrArg Except.ok hlisting

/-- Three expressions: a symbol, a string on two lines directly behind it, and a quoted list with a
    literal too large for a double. Where the third line of the listing has a number, the listing
    is read with a symbol. -/
theorem expressionListing_fixed_point_overflow :
    let source := "a\"b\nc\"; note\n'(1e309 x)"
    let listing := "a\n\"b\nc\"\n'(Infinity x)\n"
    CommandLine.expressionListing source = .ok listing ∧
      CommandLine.expressionListing listing = .ok listing ∧
      parseAll source ≠ parseAll listing := by
  intro source listing
  have hlisting : CommandLine.expressionListing source = .ok listing := by decide +kernel
  exact ⟨hlisting, (expressionListing_fixed_point source listing hlisting).2, by decide +kernel⟩

end ScopeLisp
