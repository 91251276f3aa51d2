import ScopeLisp.Proofs.Atoms

/-!
# Texts cut off behind a lexeme

A lexeme is the longest one at the start of a text, so it could depend on all the text behind it.
It does not: a text that is cut off somewhere behind its first lexeme still starts with that lexeme.
Cutting only takes characters away, and a run that ended before the cut ended at a character, or at
the cut itself.

## Key results

- `Lexeme.scan?_of_append`: a lexeme is found without the text behind it
- `Lexes.of_append`: so is a tokenization
- `Lexes.append_newline`: a tokenization goes on behind a line feed, with which white space at its
  end merges
-/

namespace ScopeLisp

/-! ## Runs of characters -/

/-- Nothing can be taken off a text that leaves the text itself. -/
theorem eq_nil_of_append_append {taken left text : List Char}
    (h : taken ++ (left ++ text) = text) : taken = [] ∧ left = [] := by
  have hlen := congrArg List.length h
  simp only [List.length_append] at hlen
  exact ⟨List.length_eq_zero_iff.1 (by omega), List.length_eq_zero_iff.1 (by omega)⟩

/-- A run that leaves the text behind the cut is the same without that text. -/
theorem takeWhile_of_append {p : Char → Bool} {text cut left : List Char}
    (h : (text ++ cut).dropWhile p = left ++ cut) :
    text.takeWhile p = (text ++ cut).takeWhile p ∧ text.dropWhile p = left := by
  -- If the run passed the text, it would leave less than what is cut off.
  induction text with
  | nil =>
    have happ : cut.takeWhile p ++ (left ++ cut) = cut := by
      rw [← h, List.nil_append, List.takeWhile_append_dropWhile]
    obtain ⟨hrun, rfl⟩ := eq_nil_of_append_append happ
    exact ⟨hrun.symm, rfl⟩
  | cons c text ih =>
    by_cases hc : p c = true
    · simp only [List.cons_append, List.dropWhile_cons_of_pos hc, List.takeWhile_cons_of_pos hc]
        at h ⊢
      exact ⟨by rw [(ih h).1], (ih h).2⟩
    · rw [List.cons_append, List.dropWhile_cons_of_neg hc, ← List.cons_append,
        List.append_cancel_right_eq] at h
      subst h
      simp [hc]

/-- A cut leaves a run empty that was empty before. -/
theorem takeWhile_eq_nil_of_append {p : Char → Bool} {text cut : List Char}
    (h : (text ++ cut).takeWhile p = []) : text.takeWhile p = [] := by
  cases text with
  | nil => rfl
  | cons c text =>
    by_cases hc : p c = true
    · rw [List.cons_append, List.takeWhile_cons_of_pos hc] at h
      exact nomatch h
    · exact List.takeWhile_cons_of_neg hc

namespace Lexeme

variable {text cut left : List Char} {l : Lexeme}

/-- A blank run that leaves the text behind the cut is the same without that text. -/
private theorem blankRun_of_append {inComment : Bool}
    (h : (blankRun inComment (text ++ cut)).2 = left ++ cut) :
    blankRun inComment text = ((blankRun inComment (text ++ cut)).1, left) := by
  induction text generalizing inComment with
  -- The cut stands at the start, so nothing was taken.
  | nil =>
    have happ := blankRun_append inComment cut
    rw [List.nil_append] at h ⊢
    rw [h] at happ
    obtain ⟨hrun, rfl⟩ := eq_nil_of_append_append happ
    rw [hrun]
    rfl
  | cons c text ih =>
    rw [List.cons_append] at h ⊢
    by_cases hc : (Text.isBlank c || c = ';' || inComment) = true
    · simp only [blankRun, if_pos hc] at h ⊢
      rw [ih h]
    · simp only [blankRun, if_neg hc] at h ⊢
      rw [← List.cons_append, List.append_cancel_right_eq] at h
      rw [h]

/-! ## Numerals -/

/-- A fraction is found without the text behind it. -/
private theorem scanFraction_of_append (h : (Numeral.scanFraction (text ++ cut)).2 = left ++ cut) :
    Numeral.scanFraction text = ((Numeral.scanFraction (text ++ cut)).1, left) := by
  cases text with
  | nil =>
    have happ := Numeral.scanFraction_append cut
    rw [List.nil_append] at h ⊢
    rw [h] at happ
    obtain ⟨hpoint, rfl⟩ := eq_nil_of_append_append happ
    -- A fraction would have taken its point off the text.
    cases hf : (Numeral.scanFraction cut).1 with
    | none => rfl
    | some ds => simp [hf] at hpoint
  | cons c text =>
    by_cases hc : c = '.'
    · subst hc
      simp only [List.cons_append, Numeral.scanFraction] at h ⊢
      obtain ⟨hdigits, hdrop⟩ := takeWhile_of_append h
      rw [hdigits, hdrop]
    · have hnone : ∀ rest, Numeral.scanFraction (c :: rest) = (none, c :: rest) := by
        simp [Numeral.scanFraction, hc]
      rw [List.cons_append, hnone, ← List.cons_append, List.append_cancel_right_eq] at h
      rw [List.cons_append, hnone, hnone, h]

/-- An exponent is found without the text behind it. -/
private theorem scanExponent_of_append (h : (Numeral.scanExponent (text ++ cut)).2 = left ++ cut) :
    Numeral.scanExponent text = ((Numeral.scanExponent (text ++ cut)).1, left) := by
  cases text with
  | nil =>
    have happ := Numeral.scanExponent_append cut
    rw [List.nil_append] at h ⊢
    rw [h] at happ
    obtain ⟨hmark, rfl⟩ := eq_nil_of_append_append happ
    -- An exponent would have taken its mark off the text.
    cases he : (Numeral.scanExponent cut).1 with
    | none => rfl
    | some e => simp [he] at hmark
  | cons mark text =>
    simp only [List.cons_append, Numeral.scanExponent] at h ⊢
    by_cases hc : (mark = 'e' ∨ mark = 'E') ∧ (text ++ cut).takeWhile Char.isDigit ≠ []
    · rw [if_pos hc] at h ⊢
      obtain ⟨hdigits, hdrop⟩ := takeWhile_of_append h
      rw [hdigits, if_pos hc, hdrop]
    -- What is no exponent in the whole text is none in a shorter one.
    · rw [if_neg hc] at h ⊢
      rw [← List.cons_append, List.append_cancel_right_eq] at h
      have hc' : ¬ ((mark = 'e' ∨ mark = 'E') ∧ text.takeWhile Char.isDigit ≠ []) := by
        rintro ⟨hmark, hdigits⟩
        exact hc ⟨hmark, fun hnil => hdigits (takeWhile_eq_nil_of_append hnil)⟩
      rw [if_neg hc', h]

/-- A numeral is found without the text behind it. -/
private theorem numeral_scan?_of_append {n : Numeral}
    (h : Numeral.scan? (text ++ cut) = some (n, left ++ cut)) :
    Numeral.scan? text = some (n, left) := by
  simp only [Numeral.scan?] at h ⊢
  split at h
  · cases h
  · next hne =>
    simp only [Option.some.injEq, Prod.mk.injEq] at h
    obtain ⟨rfl, hrest⟩ := h
    -- The exponent leaves the text behind the cut, so the fraction before it does, and the digits
    -- before that.
    have hexponent := Numeral.scanExponent_append
      (Numeral.scanFraction ((text ++ cut).dropWhile Char.isDigit)).2
    rw [hrest, ← List.append_assoc] at hexponent
    have hfraction := Numeral.scanFraction_append ((text ++ cut).dropWhile Char.isDigit)
    rw [← hexponent, ← List.append_assoc] at hfraction
    obtain ⟨hdigits, hdrop⟩ := takeWhile_of_append hfraction.symm
    rw [← hfraction] at hexponent hrest hne ⊢
    have hcut := scanFraction_of_append hexponent.symm
    rw [← hexponent] at hrest ⊢
    rw [hdigits, hdrop, hcut, if_neg hne, scanExponent_of_append hrest]

/-! ## All classes -/

/-- A blank lexeme is found without the text behind it. -/
private theorem blank?_of_append (h : blank? (text ++ cut) = some (l.extend cut)) :
    blank? text = some l := by
  unfold blank? at h
  split at h
  · exact nomatch h
  · next run rest hne hrun =>
    obtain ⟨kind, run', left⟩ := l
    simp only [extend, Option.some.injEq, mk.injEq] at h
    obtain ⟨rfl, rfl, hrest⟩ := h
    -- The run leaves what is cut off, so it ends inside the text.
    have hleft : (blankRun false (text ++ cut)).2 = left ++ cut := by
      rw [hrun]
      exact hrest
    have hcut := blankRun_of_append hleft
    rw [hrun] at hcut
    unfold blank?
    rw [hcut]
    split
    · next heq => exact absurd (congrArg Prod.fst heq) hne
    · next heq =>
      obtain ⟨rfl, rfl⟩ := Prod.mk.inj heq
      rfl

/-- A string literal is found without the text behind it. -/
private theorem string?_of_append (hne : text ≠ [])
    (h : string? (text ++ cut) = some (l.extend cut)) :
    string? text = some l := by
  obtain ⟨c, body, rfl⟩ := List.exists_cons_of_ne_nil hne
  rw [List.cons_append] at h
  obtain rfl := head_of_string? h
  simp only [string?] at h ⊢
  split at h
  · next q rest hdrop =>
    obtain ⟨kind, content, left⟩ := l
    simp only [extend, Option.some.injEq, mk.injEq] at h
    obtain ⟨rfl, rfl, rfl⟩ := h
    rw [← List.cons_append] at hdrop
    -- The closing quote stands before the cut.
    obtain ⟨hcontent, hrest⟩ := takeWhile_of_append hdrop
    rw [hcontent, hrest]
  · cases h

/-- A number literal is found without the text behind it. -/
private theorem number?_of_append (h : number? (text ++ cut) = some (l.extend cut)) :
    number? text = some l := by
  obtain ⟨⟨n, rest⟩, hscan, hl⟩ := Option.map_eq_some_iff.1 h
  obtain ⟨kind, content, left⟩ := l
  simp only [extend, mk.injEq] at hl
  obtain ⟨rfl, rfl, rfl⟩ := hl
  rw [number?, numeral_scan?_of_append hscan, Option.map_some]

/-- A symbol of one class is found without the text behind it. -/
private theorem symbolOf_of_append {isChar : Char → Bool}
    (h : symbolOf isChar (text ++ cut) = l.extend cut) : symbolOf isChar text = l := by
  obtain ⟨kind, content, left⟩ := l
  simp only [symbolOf, extend, mk.injEq] at h
  obtain ⟨rfl, rfl, hrest⟩ := h
  obtain ⟨hname, hdrop⟩ := takeWhile_of_append hrest
  rw [symbolOf, hname, hdrop]

/-- A name or an operator is found without the text behind it. -/
private theorem symbol?_of_append (hne : text ≠ [])
    (h : symbol? (text ++ cut) = some (l.extend cut)) :
    symbol? text = some l := by
  obtain ⟨c, text, rfl⟩ := List.exists_cons_of_ne_nil hne
  rw [List.cons_append] at h
  simp only [symbol?] at h ⊢
  split at h
  -- The first character is the same, so the same class is taken.
  · next hname =>
    rw [← List.cons_append] at h
    rw [if_pos hname, symbolOf_of_append (Option.some.inj h)]
  · next hname =>
    split at h
    · next hoperator =>
      rw [← List.cons_append] at h
      rw [if_neg hname, if_pos hoperator, symbolOf_of_append (Option.some.inj h)]
    · cases h

/-- A lexeme is determined by what it is on a longer text. -/
private theorem extend_injective (cut : List Char) : Function.Injective (extend cut) := by
  rintro ⟨kind, content, left⟩ ⟨kind', content', left'⟩ h
  simp only [extend, mk.injEq, List.append_cancel_right_eq] at h
  obtain ⟨rfl, rfl, rfl⟩ := h
  rfl

/-- A text that is cut off behind its first lexeme still starts with that lexeme. -/
theorem scan?_of_append (hne : text ≠ []) (h : scan? (text ++ cut) = some (l.extend cut)) :
    scan? text = some l := by
  obtain ⟨c, rest, rfl⟩ := List.exists_cons_of_ne_nil hne
  simp only [scan?, Option.orElse_eq_orElse, Option.orElse_eq_or, Option.or_eq_some_iff] at h
  -- The class that found the lexeme finds it again, and then it is the lexeme of the text.
  rcases h with h | ⟨-, h | ⟨-, h | ⟨-, h | ⟨-, h⟩⟩⟩⟩
  · simp [scan?, blank?_of_append h]
  · exact scan?_of_string? (string?_of_append hne h)
  · exact scan?_of_number? (number?_of_append h)
  · rw [mark?_append hne] at h
    obtain ⟨l', hl', heq⟩ := Option.map_eq_some_iff.1 h
    exact scan?_of_mark? (hl'.trans (congrArg some (extend_injective cut heq)))
  · exact scan?_of_symbol? (symbol?_of_append hne h)

end Lexeme

/-! ## Tokenizations -/

/-- What follows the tokens of a text is the end of that text. -/
private theorem Lexes.exists_eq_append {text rest : List Char} {ks : List Token.Kind}
    (h : Lexes text ks rest) : ∃ taken, text = taken ++ rest := by
  induction h with
  | done text => exact ⟨[], rfl⟩
  | token hl _ ih =>
    obtain ⟨taken, heq⟩ := ih
    rw [← (Lexeme.splits_of_scan? hl).1, heq, ← List.append_assoc]
    exact ⟨_, rfl⟩

/-- The tokens that a text starts with are those of the text up to where they end. -/
theorem Lexes.of_append {text cut : List Char} {ks : List Token.Kind}
    (h : Lexes (text ++ cut) ks cut) : Lexes text ks [] := by
  induction ks generalizing text with
  | nil =>
    have htext : text = [] := List.append_left_eq_self.1 h.eq_of_nil
    rw [htext]
    exact .done []
  | cons k ks ih =>
    obtain ⟨l, hl, rfl, hrest⟩ := h.cons_inv
    obtain ⟨left, hleft⟩ := hrest.exists_eq_append
    obtain ⟨happ, hne⟩ := Lexeme.splits_of_scan? hl
    -- The lexeme ends before the cut, so it is found in the text up to there.
    have htext : text = l.text ++ left := by
      rw [hleft, ← List.append_assoc, List.append_cancel_right_eq] at happ
      exact happ.symm
    have hwhole : Lexeme.scan? (text ++ cut) = some (Lexeme.extend cut ⟨l.kind, l.text, left⟩) := by
      rw [hl, Lexeme.extend, ← hleft]
    have hscan : Lexeme.scan? text = some ⟨l.kind, l.text, left⟩ :=
      Lexeme.scan?_of_append (by simp [htext, hne]) hwhole
    rw [hleft] at hrest
    exact .token (l := ⟨l.kind, l.text, left⟩) hscan (ih hrest)

/-- A text of optional white space is one blank run. -/
private theorem Grammar.OptBlank.blankRun_eq_nil {text : List Char} {ws : List Token.Kind}
    (hw : OptBlank ws) (h : Lexes text ws []) : (Lexeme.blankRun false text).2 = [] := by
  cases hw with
  | absent => rw [h.eq_of_nil]; rfl
  | present =>
    obtain ⟨l, hl, hkind, hrest⟩ := h.cons_inv
    rw [← Lexeme.rest_of_blank hl hkind, hrest.eq_of_nil]

/-- A tokenization goes on behind a line feed: the line feed is a blank token, together with the
    white space in front of it. -/
theorem Lexes.append_newline {text more : List Char} {ks ws ks' : List Token.Kind}
    (h : Lexes text (ks ++ ws) []) (hlast : ks.getLast? ≠ some .blank) (hw : Grammar.OptBlank ws)
    (hmore : Lexes more ks' []) (hsolid : (Lexeme.blankRun false more).1 = []) :
    Lexes (text ++ '\n' :: more) (ks ++ .blank :: ks') [] := by
  obtain ⟨mid, hks, hws⟩ := Lexes.append_inv ks h
  have hmerged := Lexeme.blankRun_append_newline more (hw.blankRun_eq_nil hws)
  have hrest : (Lexeme.blankRun false more).2 = more := by
    have happ := Lexeme.blankRun_append false more
    rwa [hsolid, List.nil_append] at happ
  -- The run begins in what is left of the first text and takes at least the line feed.
  have hrun : (Lexeme.blankRun false (mid ++ '\n' :: more)).1 ≠ [] := by
    rw [hmerged]
    simp
  have hscan := Lexeme.scan?_of_blankRun hrun
  rw [hmerged, hrest] at hscan
  exact (hks.append_text (Lexeme.breaks_newline more) fun _ => hlast).append (.token hscan hmore)

end ScopeLisp
