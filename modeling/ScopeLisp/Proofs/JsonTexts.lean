import ScopeLisp.Json.Token
import ScopeLisp.Proofs.Decimals

/-!
# JSON texts that are read back

What the writer makes of a string, of a number and of an object, the reader takes apart again,
whatever follows. A number has no end mark of its own, so what follows it must not go on with it;
in the texts that are written, a comma, a brace or nothing does.

## Key results

- `string_content`: a string is read back, whatever its characters
- `numeral_append`: a number is read as it is read alone
- `spells_object`: an object is read back if the texts of its members are
-/

namespace ScopeLisp.Json

/-! ## Strings -/

/-- The two last digits of the escape of a control character. -/
def controlDigits (n : Nat) : Char × Char :=
  (Nat.digitChar (n / 16), Nat.digitChar (n % 16))

/-- A control character without an escape of its own is written with four digits. -/
theorem escaped_control : ∀ n < 0x20, n ∉ [0x08, 0x09, 0x0A, 0x0C, 0x0D] →
    (escaped (Char.ofNat n)).toList =
        ['\\', 'u', '0', '0', (controlDigits n).1, (controlDigits n).2] ∧
      hexCode? '0' '0' (controlDigits n).1 (controlDigits n).2 = some n := by
  decide +kernel

/-- A character that is no control character, no quote and no backslash stands for itself. -/
theorem escaped_plain {c : Char} (hcontrol : 0x20 ≤ c.toNat) (hquote : c ≠ '"')
    (hbackslash : c ≠ '\\') : escaped c = c.toString := by
  have hne : ∀ d : Char, d.toNat < 0x20 → c ≠ d := by
    rintro d hd rfl
    omega
  unfold escaped
  -- The marks with an escape of their own, which are quotes, backslashes or control characters.
  split
  · exact absurd rfl hquote
  · exact absurd rfl hbackslash
  · exact absurd rfl (hne '\n' (by decide))
  · exact absurd rfl (hne '\r' (by decide))
  · exact absurd rfl (hne '\t' (by decide))
  · rw [if_neg (by omega), if_neg (by omega), if_neg (by omega), if_neg (by omega)]

/-- A character is written as itself, with a letter or with four digits. -/
theorem escaped_cases (c : Char) :
    ((escaped c).toList = [c] ∧ 0x20 ≤ c.toNat ∧ c ≠ '"' ∧ c ≠ '\\') ∨
      (∃ d, (escaped c).toList = ['\\', d] ∧ escapeCode? d = some c.toNat) ∨
      ∃ a b, (escaped c).toList = ['\\', 'u', '0', '0', a, b] ∧
        hexCode? '0' '0' a b = some c.toNat := by
  by_cases hcontrol : 0x20 ≤ c.toNat
  · by_cases hquote : c = '"'
    · subst hquote
      exact .inr (.inl ⟨'"', rfl, rfl⟩)
    · by_cases hbackslash : c = '\\'
      · subst hbackslash
        exact .inr (.inl ⟨'\\', rfl, rfl⟩)
      · rw [escaped_plain hcontrol hquote hbackslash]
        exact .inl ⟨by simp, hcontrol, hquote, hbackslash⟩
  -- Below the space five characters have a letter of their own.
  · by_cases hown : c.toNat ∈ [0x08, 0x09, 0x0A, 0x0C, 0x0D]
    · have hchar : Char.ofNat c.toNat = c := Char.ofNat_toNat c
      refine .inr (.inl ?_)
      rw [← hchar]
      simp only [List.mem_cons, List.not_mem_nil, or_false] at hown
      rcases hown with h | h | h | h | h
      · rw [h]; exact ⟨'b', rfl, rfl⟩
      · rw [h]; exact ⟨'t', rfl, rfl⟩
      · rw [h]; exact ⟨'n', rfl, rfl⟩
      · rw [h]; exact ⟨'f', rfl, rfl⟩
      · rw [h]; exact ⟨'r', rfl, rfl⟩
    · obtain ⟨htext, hcode⟩ := escaped_control c.toNat (by omega) hown
      rw [Char.ofNat_toNat] at htext
      exact .inr (.inr ⟨_, _, htext, hcode⟩)

/-- The reader takes the escape of a character for that character. -/
theorem stringCodes_escaped (c : Char) {text rest : List Char} {codes : List Nat}
    (h : stringCodes text = some (codes, rest)) :
    stringCodes ((escaped c).toList ++ text) = some (c.toNat :: codes, rest) := by
  -- The three ways to write a character; each is read by another rule.
  obtain ⟨htext, hcontrol, hquote, hbackslash⟩ | ⟨d, htext, hcode⟩ | ⟨a, b, htext, hcode⟩ :=
    escaped_cases c
  · rw [htext, List.singleton_append, stringCodes, if_neg (by omega), h]
    · rfl
    · exact hquote
    · rintro _ _ _ _ _ rfl
      exact absurd rfl hbackslash
    · rintro _ _ rfl
      exact absurd rfl hbackslash
  · rw [htext]
    show stringCodes ('\\' :: d :: text) = _
    rw [stringCodes, hcode, h]
    · rfl
    -- No escape of a letter is one with digits.
    · rintro _ _ _ _ _ rfl
      exact nomatch hcode
  · rw [htext]
    show stringCodes ('\\' :: 'u' :: '0' :: '0' :: a :: b :: text) = _
    rw [stringCodes, hcode, h]
    rfl

/-- The characters of a string, without its quotes. -/
def content (s : String) : List Char :=
  (String.join (s.toList.map escaped)).toList

/-- A string is written as its characters in quotes. -/
theorem toList_stringText (s : String) : (stringText s).toList = '"' :: (content s ++ ['"']) := by
  simp [stringText, content]

/-- The codes of a string are read back, up to the quote that ends it. -/
private theorem stringCodes_content (s : String) (rest : List Char) :
    stringCodes (content s ++ '"' :: rest) = some (s.toList.map Char.toNat, rest) := by
  have happ : content s = s.toList.flatMap fun c => (escaped c).toList := by
    simp [content, List.flatMap_map]
  rw [happ]
  -- One character after the other, each with its escape before the rest.
  induction s.toList with
  | nil => rfl
  | cons c cs ih =>
    rw [List.flatMap_cons, List.append_assoc]
    exact stringCodes_escaped c ih

/-- No character is half of one. -/
theorem not_isSurrogate (c : Char) :
    isHighSurrogate c.toNat = false ∧ isLowSurrogate c.toNat = false := by
  have hvalid : c.toNat < 0xD800 ∨ 0xDFFF < c.toNat ∧ c.toNat < 0x110000 := c.valid
  simp only [isHighSurrogate, isLowSurrogate, Bool.and_eq_false_iff, decide_eq_false_iff_not]
  omega

/-- Codes of characters are characters. -/
private theorem charsOfCodes_toNat (cs : List Char) :
    charsOfCodes (cs.map Char.toNat) = some cs := by
  induction cs with
  | nil => rfl
  | cons c cs ih =>
    obtain ⟨hhigh, hlow⟩ := not_isSurrogate c
    -- Two codes are one character only if both are halves, which no character is.
    cases cs with
    | nil => simp [charsOfCodes, hhigh, hlow, Char.ofNat_toNat]
    | cons c' cs =>
      rw [List.map_cons] at ih
      simp [charsOfCodes, hhigh, hlow, ih, Char.ofNat_toNat]

/-- A string is read back, whatever follows it. -/
theorem string_content (s : String) (rest : List Char) :
    string (content s ++ '"' :: rest) = some (some s, rest) := by
  rw [string, stringCodes_content]
  simp [charsOfCodes_toNat]

/-! ## Numbers -/

/-- What follows a value that is written: a comma, a brace or nothing. -/
def Closes (more : List Char) : Prop :=
  ∀ c ∈ more.head?, c = ',' ∨ c = '}'

private theorem closes_nil : Closes [] := nofun

private theorem closes_comma (more : List Char) : Closes (',' :: more) := by
  simp [Closes]

private theorem closes_brace (more : List Char) : Closes ('}' :: more) := by
  simp [Closes]

variable {text rest more : List Char}

/-- A run of digits ends where what is behind it closes. -/
private theorem digits_append {ds : List Char} (hmore : Closes more)
    (h : digits text = some (ds, rest)) :
    digits (text ++ more) = some (ds, rest ++ more) := by
  obtain ⟨htake, hdrop⟩ := takeWhile_append_of_break text more (p := Char.isDigit) (by
    intro _ c hc
    rcases hmore c hc with rfl | rfl <;> decide)
  unfold digits at h ⊢
  rw [htake, hdrop]
  split at h
  · exact nomatch h
  · obtain ⟨rfl, rfl⟩ := h
    rfl

/-- The digits before the point end where what is behind them closes. -/
private theorem wholeDigits_append {ds : List Char} (hmore : Closes more)
    (h : wholeDigits text = some (ds, rest)) :
    wholeDigits (text ++ more) = some (ds, rest ++ more) := by
  cases text with
  | nil => exact nomatch h
  | cons c text =>
    -- A zero stands alone; any other digit starts a run.
    by_cases hc : c = '0'
    · subst hc
      obtain ⟨rfl, rfl⟩ := h
      rfl
    · have hdigits : ∀ t, wholeDigits (c :: t) = digits (c :: t) := by simp [wholeDigits, hc]
      rw [hdigits] at h
      rw [List.cons_append, hdigits]
      exact digits_append hmore h

/-- A fraction ends where what is behind it closes; without one, that is no point. -/
private theorem fraction_append {f : Option (List Char)} (hmore : Closes more)
    (h : fraction text = some (f, rest)) : fraction (text ++ more) = some (f, rest ++ more) := by
  cases text with
  | nil =>
    obtain ⟨rfl, rfl⟩ := h
    cases more with
    | nil => rfl
    | cons c more =>
      -- Behind digits without a point there is a comma or a brace.
      rcases hmore c rfl with rfl | rfl
      · rfl
      · rfl
  | cons c text =>
    by_cases hc : c = '.'
    · subst hc
      simp only [fraction, Option.bind_eq_bind, Option.bind_eq_some_iff] at h
      obtain ⟨⟨ds, rest'⟩, hdigits, hsome⟩ := h
      obtain ⟨rfl, rfl⟩ := hsome
      simp only [List.cons_append, fraction, digits_append hmore hdigits]
      rfl
    · have hnone : ∀ t, fraction (c :: t) = some (none, c :: t) := by simp [fraction, hc]
      rw [hnone] at h
      obtain ⟨rfl, rfl⟩ := h
      rw [List.cons_append, hnone]

/-- The sign of an exponent does not depend on what closes it. -/
private theorem exponentSign_append (hmore : Closes more) (text : List Char) :
    exponentSign (text ++ more) = ((exponentSign text).1, (exponentSign text).2 ++ more) := by
  cases text with
  | nil =>
    cases more with
    | nil => rfl
    | cons c more =>
      rcases hmore c rfl with rfl | rfl
      · rfl
      · rfl
  | cons c text =>
    unfold exponentSign
    split <;> simp_all

/-- An exponent ends where what is behind it closes; without one, that is no letter. -/
private theorem exponent_append {e : Option (Bool × List Char)} (hmore : Closes more)
    (h : exponent text = some (e, rest)) : exponent (text ++ more) = some (e, rest ++ more) := by
  cases text with
  | nil =>
    obtain ⟨rfl, rfl⟩ := h
    cases more with
    | nil => rfl
    | cons c more =>
      rcases hmore c rfl with rfl | rfl
      · rfl
      · rfl
  | cons c text =>
    rw [List.cons_append]
    -- Without the letter there is no exponent, and nothing has been taken.
    by_cases hc : c = 'e' ∨ c = 'E'
    · simp only [exponent, if_pos hc, Option.bind_eq_bind, Option.bind_eq_some_iff] at h
      obtain ⟨⟨ds, rest'⟩, hdigits, hsome⟩ := h
      obtain ⟨rfl, rfl⟩ := hsome
      simp only [exponent, if_pos hc, exponentSign_append hmore, digits_append hmore hdigits]
      rfl
    · rw [exponent, if_neg hc] at h
      obtain ⟨rfl, rfl⟩ := h
      rw [exponent, if_neg hc, List.cons_append]

/-- What a number without its sign is made of. -/
def unsigned (negative : Bool) (text : List Char) : Option (Numeral × List Char) := do
  let (whole, text) ← wholeDigits text
  let (fraction, text) ← fraction text
  let (exponent, text) ← exponent text
  return (⟨negative, whole, fraction, exponent⟩, text)

/-- The parts of a number are read as they are read alone. -/
private theorem unsigned_append {negative : Bool} {n : Numeral} (hmore : Closes more)
    (h : unsigned negative text = some (n, rest)) :
    unsigned negative (text ++ more) = some (n, rest ++ more) := by
  simp only [unsigned, Option.bind_eq_bind, Option.bind_eq_some_iff] at h
  -- Whole digits, fraction and exponent, each read from what the one before it left.
  obtain ⟨⟨whole, text₁⟩, hwhole, ⟨f, text₂⟩, hfraction, ⟨e, text₃⟩, hexponent, hsome⟩ := h
  obtain ⟨rfl, rfl⟩ := hsome
  simp only [unsigned, Option.bind_eq_bind, Option.bind_some, wholeDigits_append hmore hwhole,
    fraction_append hmore hfraction, exponent_append hmore hexponent]
  rfl

/-- What follows a minus is read as a number without a sign of its own. -/
private theorem numeral_minus (text : List Char) : numeral ('-' :: text) = unsigned true text := rfl

/-- A text that does not start with a minus is read as a number without one. -/
private theorem numeral_of_head {c : Char} (hc : c ≠ '-') (text : List Char) :
    numeral (c :: text) = unsigned false (c :: text) := by
  simp [numeral, unsigned, hc]

/-- A number is read as it is read alone if the text behind it does not go on with it. -/
theorem numeral_append {n : Numeral} (hmore : Closes more) (h : numeral text = some (n, rest)) :
    numeral (text ++ more) = some (n, rest ++ more) := by
  cases text with
  | nil => exact nomatch h
  | cons c text =>
    -- With the sign or without it, the rest is read in the same way.
    by_cases hc : c = '-'
    · subst hc
      rw [numeral_minus] at h
      rw [List.cons_append, numeral_minus]
      exact unsigned_append hmore h
    · rw [numeral_of_head hc] at h
      rw [List.cons_append, numeral_of_head hc]
      exact unsigned_append hmore h

/-- A number starts with its sign or with a digit. -/
theorem head_of_numeral {c : Char} {n : Numeral} (h : numeral (c :: text) = some (n, rest)) :
    c = '-' ∨ c.isDigit = true := by
  by_cases hc : c = '-'
  · exact .inl hc
  · rw [numeral_of_head hc] at h
    simp only [unsigned, Option.bind_eq_bind, Option.bind_eq_some_iff] at h
    obtain ⟨⟨whole, text₁⟩, hwhole, -⟩ := h
    -- What is neither a sign nor a digit starts no whole digits.
    refine .inr ?_
    by_contra hdigit
    have hzero : c ≠ '0' := by
      rintro rfl
      exact hdigit (by decide)
    simp [wholeDigits, hzero, digits, hdigit] at hwhole

/-- Digits do not start with a zero, except those of zero. -/
private theorem head?_toDigits_ne_zero {k : Nat} (hk : k ≠ 0) :
    (Nat.toDigits 10 k).head? ≠ some '0' := by
  -- By strong induction, as the first digit is that of the tenth part.
  induction k using Nat.strongRecOn with
  | ind k ih =>
    by_cases hlt : k < 10
    · rw [Nat.toDigits_of_lt_base hlt]
      simpa using hk
    -- The digits of the tenth part come first.
    · have hhead := ih (k / 10) (by omega) (by omega)
      rw [Nat.toDigits_of_base_le (by decide) (by omega), List.head?_append]
      cases hds : Nat.toDigits 10 (k / 10) with
      | nil => exact absurd hds Nat.toDigits_ne_nil
      | cons c ds => rwa [hds] at hhead

/-- The digits of a natural number are a number without fraction and exponent. -/
theorem numeral_toDigits (k : Nat) :
    numeral (Nat.toDigits 10 k) = some (⟨false, Nat.toDigits 10 k, none, none⟩, []) := by
  by_cases hk : k = 0
  · subst hk
    rfl
  -- The first digit is neither a sign nor a zero, so the digits are taken as one run.
  · have hdigits := takeWhile_of_forall (Numeral.isDigit_toDigits k)
    have hhead := head?_toDigits_ne_zero hk
    have hfirst := Numeral.isDigit_toDigits k
    cases hds : Nat.toDigits 10 k with
    | nil => exact absurd hds Nat.toDigits_ne_nil
    | cons c ds =>
      rw [hds] at hdigits hhead hfirst
      have hc : c ≠ '-' := by
        rintro rfl
        exact absurd (hfirst '-' List.mem_cons_self) (by decide)
      have hzero : c ≠ '0' := by simpa using hhead
      have hwhole : wholeDigits (c :: ds) = some (c :: ds, []) := by
        simp [wholeDigits, hzero, digits, hdigits.1, hdigits.2]
      rw [numeral_of_head hc, unsigned, hwhole]
      rfl

/-! ## Values -/

/-- With enough fuel, the text is read as the tree, if the text behind it does not go on with it. -/
def Spells (need : Nat) (text : String) (tree : Tree) : Prop :=
  ∀ fuel more, need ≤ fuel → Closes more → value fuel (text.toList ++ more) = some (tree, more)

/-- More fuel does no harm. -/
theorem Spells.mono {need need' : Nat} {s : String} {tree : Tree} (h : Spells need s tree)
    (hle : need ≤ need') : Spells need' s tree :=
  fun fuel more hfuel => h fuel more (Nat.le_trans hle hfuel)

/-- The word for what is no number is read as it. -/
theorem spells_null : Spells 1 "null" .null := by
  rintro (_ | fuel) more hfuel _
  · omega
  · rfl

/-- A value that starts with a quote is a string. -/
private theorem value_quote (fuel : Nat) (text : List Char) :
    value (fuel + 1) ('"' :: text) = do
      let (s, rest) ← string text
      return (.string s, rest) := rfl

/-- A string is read back. -/
theorem spells_string (s : String) : Spells 1 (stringText s) (.string (some s)) := by
  rintro (_ | fuel) more hfuel _
  · omega
  · rw [toList_stringText, List.cons_append, List.append_assoc, List.singleton_append,
      value_quote, string_content]
    rfl

/-- A value that starts with a sign or a digit is a number. -/
theorem value_of_head {c : Char} (fuel : Nat) (hc : c = '-' ∨ c.isDigit = true) :
    value (fuel + 1) (c :: text) = do
      let (n, rest) ← numeral (c :: text)
      return (.number n, rest) := by
  have hne : ∀ d : Char, d ≠ '-' → d.isDigit = false → c ≠ d := by
    rintro d hminus hdigit rfl
    rcases hc with hc | hc
    · exact hminus hc
    · rw [hdigit] at hc
      exact nomatch hc
  have hskip : skipSpace (c :: text) = c :: text := by
    have hspace : isSpace c = false := by
      simp [isSpace, hne ' ' (by decide) (by decide), hne '\n' (by decide) (by decide),
        hne '\t' (by decide) (by decide), hne '\r' (by decide) (by decide)]
    simp [skipSpace, hspace]
  rw [value, hskip]
  -- None of the marks that start other values stands here.
  split
  case h_7 => rfl
  all_goals
    next heq =>
    exact absurd (List.cons.inj heq).1 (hne _ (by decide) (by decide))

/-- A number is read as a number. -/
theorem spells_number {s : String} {n : Numeral} (h : numeral s.toList = some (n, [])) :
    Spells 1 s (.number n) := by
  -- One step of fuel is spent on the value, whatever it is.
  rintro (_ | fuel) more hfuel hmore
  · omega
  · cases hs : s.toList with
    | nil => rw [hs] at h; exact nomatch h
    | cons c text =>
      rw [hs] at h
      rw [List.cons_append, value_of_head fuel (head_of_numeral h), ← List.cons_append,
        numeral_append hmore h]
      rfl

/-- A member of an object is a string, a colon and a value. -/
private theorem toList_member (key s : String) (more : List Char) :
    (stringText key ++ ":" ++ s).toList ++ more =
      '"' :: (content key ++ '"' :: ':' :: (s.toList ++ more)) := by
  simp [toList_stringText]

/-- The last member of an object. -/
theorem members_last {need fuel : Nat} {key s : String} {tree : Tree} (h : Spells need s tree)
    (hfuel : need ≤ fuel) (more : List Char) :
    members (fuel + 1) ((stringText key ++ ":" ++ s).toList ++ '}' :: more) =
      some ([(some key, tree)], more) := by
  have hkey := string_content key (':' :: (s.toList ++ '}' :: more))
  have hvalue := h fuel ('}' :: more) hfuel (closes_brace more)
  rw [toList_member, members]
  show (string _ >>= _) = _
  rw [hkey]
  show (value fuel _ >>= _) = _
  rw [hvalue]
  rfl

/-- A member of an object that others follow. -/
theorem members_cons {need fuel : Nat} {key s : String} {tree : Tree}
    {others : List (Option String × Tree)} (h : Spells need s tree) (hfuel : need ≤ fuel)
    (hothers : members fuel text = some (others, rest)) :
    members (fuel + 1) ((stringText key ++ ":" ++ s).toList ++ ',' :: text) =
      some ((some key, tree) :: others, rest) := by
  have hkey := string_content key (':' :: (s.toList ++ ',' :: text))
  have hvalue := h fuel (',' :: text) hfuel (closes_comma text)
  -- The key and the value are read, then the comma, then the other members.
  rw [toList_member, members]
  show (string _ >>= _) = _
  rw [hkey]
  show (value fuel _ >>= _) = _
  rw [hvalue]
  show (members fuel text >>= _) = _
  rw [hothers]
  rfl

/-- The members of an object are read back one after the other. -/
theorem members_intercalate {need fuel : Nat} {entries : List (String × String × Tree)}
    (hne : entries ≠ []) (h : ∀ e ∈ entries, Spells need e.2.1 e.2.2)
    (hfuel : need + entries.length ≤ fuel) (more : List Char) :
    members fuel ((",".intercalate
        (entries.map fun e => stringText e.1 ++ ":" ++ e.2.1)).toList ++ '}' :: more) =
      some (entries.map fun e => (some e.1, e.2.2), more) := by
  -- By induction on the members; the last one has no comma behind it.
  induction entries generalizing fuel with
  | nil => exact absurd rfl hne
  | cons e entries ih =>
    -- Every member takes one step of the fuel; what is left is enough for its value.
    obtain ⟨fuel, rfl⟩ : ∃ n, fuel = n + 1 := ⟨fuel - 1, by rw [List.length_cons] at hfuel; omega⟩
    rw [List.length_cons] at hfuel
    have he := h e List.mem_cons_self
    cases entries with
    | nil => simpa using members_last he (by omega) more
    | cons e' entries =>
      have hothers := ih (List.cons_ne_nil _ _) (fun i hi => h i (List.mem_cons_of_mem _ hi))
        (by omega : need + (e' :: entries).length ≤ fuel)
      rw [List.map_cons, List.map_cons, String.intercalate_cons_cons, String.toList_append,
        String.toList_append, List.append_assoc, List.append_assoc]
      exact members_cons he (by omega) hothers

/-- Members start with a quote, so the object is not taken for an empty one. -/
theorem exists_intercalate_eq {entries : List (String × String × Tree)} (hne : entries ≠ []) :
    ∃ text, (",".intercalate (entries.map fun e => stringText e.1 ++ ":" ++ e.2.1)).toList =
      '"' :: text := by
  cases entries with
  | nil => exact absurd rfl hne
  | cons e entries =>
    cases entries with
    | nil => simp [toList_stringText]
    | cons e' entries =>
      rw [List.map_cons, List.map_cons, String.intercalate_cons_cons]
      simp [toList_stringText]

/-- A value that starts with a brace and a quote is an object. -/
private theorem value_brace (fuel : Nat) (text : List Char) :
    value (fuel + 1) ('{' :: '"' :: text) = do
      let (members, rest) ← members fuel ('"' :: text)
      return (.object members, rest) := rfl

/-- The text of an object, up to the quote of its first member. -/
theorem toList_objectText {entries : List (String × String × Tree)} {text : List Char}
    (h : (",".intercalate (entries.map fun e => stringText e.1 ++ ":" ++ e.2.1)).toList =
      '"' :: text) :
    (objectText (entries.map fun e => (e.1, e.2.1))).toList = '{' :: '"' :: (text ++ ['}']) := by
  simp only [objectText, List.map_map, Function.comp_def, String.toList_append, h]
  rfl

/-- An object is read back if the texts of its members are. -/
theorem spells_object {need : Nat} (entries : List (String × String × Tree))
    (hne : entries ≠ []) (h : ∀ e ∈ entries, Spells need e.2.1 e.2.2) :
    Spells (need + entries.length + 1) (objectText (entries.map fun e => (e.1, e.2.1)))
      (.object (entries.map fun e => (some e.1, e.2.2))) := by
  rintro (_ | fuel) more hfuel -
  · omega
  -- The brace takes a step of the fuel, and what is left is enough for the members.
  · have hmembers := members_intercalate hne h (by omega : need + entries.length ≤ fuel) more
    obtain ⟨text, htext⟩ := exists_intercalate_eq hne
    rw [htext, List.cons_append] at hmembers
    rw [toList_objectText htext, List.cons_append, List.cons_append, List.append_assoc,
      List.singleton_append, value_brace, hmembers]
    rfl

/-- A whole text is read with fuel of twice its length. -/
theorem read_of_spells {need : Nat} {s : String} {tree : Tree} (h : Spells need s tree)
    (hneed : need ≤ 2 * s.length + 2) : read s = some tree := by
  have hvalue := h (2 * s.length + 2) [] hneed closes_nil
  rw [List.append_nil] at hvalue
  rw [read, hvalue]
  rfl

end ScopeLisp.Json
