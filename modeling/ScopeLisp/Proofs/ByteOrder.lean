import ScopeLisp.NameMap

/-!
# Texts in the order of their bytes

Names are kept in the order of their code points. Written as UTF-8, a text is a sequence of bytes,
and the order of the bytes is the same: of two characters the greater one has the greater byte
where their bytes first differ, because the first byte grows with the number of bytes and every
further byte stands for six bits of the number.

## Key results

- `Text.Ascending.trailed`: one more byte for six more bits keeps the order
- `Text.utf8EncodeChar_append_lt`: of two texts, the first character in which they differ decides
- `Text.bytesBefore_iff`: the order of the bytes is the order of the code points
-/

namespace ScopeLisp

namespace Text

/-- The bytes of a text. -/
def utf8 (s : String) : List UInt8 :=
  s.toUTF8.data.toList

/-- The bytes of one text come before those of another, by the first byte that differs. -/
def BytesBefore (s t : String) : Prop :=
  List.Lex (· < ·) (utf8 s) (utf8 t)

/-- The bytes of a text are those of its characters, one after the other. -/
private theorem utf8_eq_flatMap (s : String) : utf8 s = s.toList.flatMap String.utf8EncodeChar := by
  rw [utf8, String.toUTF8_eq_toByteArray, ← String.utf8Encode_toList]
  exact List.toList_data_toByteArray

/-! ## Characters -/

/-- The first byte of a character: the bits that are in no other byte, above a mark. -/
def lead (count mark n : Nat) : List UInt8 :=
  [UInt8.ofNat (n % count + mark)]

/-- One more byte, for the last six bits. -/
def trailed (f : Nat → List UInt8) (n : Nat) : List UInt8 :=
  f (n / 64) ++ [UInt8.ofNat (n % 64 + 128)]

/-- The bytes of numbers below a bound are in the order of the numbers, whatever follows them. -/
def Ascending (bound : Nat) (f : Nat → List UInt8) : Prop :=
  ∀ m n, m < n → n < bound → ∀ u v, List.Lex (· < ·) (f m ++ u) (f n ++ v)

/-- The smaller first byte comes first. -/
private theorem lex_cons_of_lt {m n : Nat} (h : m < n) (hn : n < 256) (u v : List UInt8) :
    List.Lex (· < ·) (UInt8.ofNat m :: u) (UInt8.ofNat n :: v) := by
  refine .rel ?_
  rw [UInt8.lt_iff_toNat_lt, UInt8.toNat_ofNat', UInt8.toNat_ofNat',
    Nat.mod_eq_of_lt (Nat.lt_trans h hn), Nat.mod_eq_of_lt hn]
  exact h

/-- The same bytes in front keep the order. -/
private theorem lex_append_left {u v : List UInt8} (h : List.Lex (· < ·) u v) (w : List UInt8) :
    List.Lex (· < ·) (w ++ u) (w ++ v) := by
  induction w with
  | nil => exact h
  | cons b w ih => exact .cons ih

/-- A single byte keeps the order of the numbers that fit into it. -/
private theorem ascending_lead (count mark : Nat) (h : count + mark ≤ 256) :
    Ascending count (lead count mark) := by
  intro m n hmn hn u v
  simp only [lead, Nat.mod_eq_of_lt hn, Nat.mod_eq_of_lt (Nat.lt_trans hmn hn)]
  exact lex_cons_of_lt (by omega) (by omega) u v

/-- One more byte for six more bits keeps the order. -/
theorem Ascending.trailed {bound : Nat} {f : Nat → List UInt8} (h : Ascending bound f) :
    Ascending (64 * bound) (trailed f) := by
  intro m n hmn hn u v
  simp only [Text.trailed, List.append_assoc]
  by_cases hlead : m / 64 = n / 64
  · -- The bytes before the last are the same, so the last six bits decide.
    rw [hlead]
    exact lex_append_left (lex_cons_of_lt (by omega) (by omega) u v) _
  -- The bits in front differ, so the order is decided before the last byte.
  · exact h _ _ (by omega) (by omega) _ _

/-- Characters have one byte, two, three or four, according to their number. -/
theorem utf8EncodeChar_cases (c : Char) :
    (c.toNat < 0x80 ∧ String.utf8EncodeChar c = lead 0x80 0 c.toNat) ∨
      (0x80 ≤ c.toNat ∧ c.toNat < 0x800 ∧
        String.utf8EncodeChar c = trailed (lead 32 192) c.toNat) ∨
      (0x800 ≤ c.toNat ∧ c.toNat < 0x10000 ∧
        String.utf8EncodeChar c = trailed (trailed (lead 16 224)) c.toNat) ∨
      (0x10000 ≤ c.toNat ∧ c.toNat < 0x110000 ∧
        String.utf8EncodeChar c = trailed (trailed (trailed (lead 8 240))) c.toNat) := by
  have hbound : c.toNat < 0x110000 := by
    rcases c.valid with h | ⟨-, h⟩
    · exact Nat.lt_trans h (by decide)
    · exact h
  have hval : c.val.toNat = c.toNat := rfl
  simp only [trailed, lead, Nat.div_div_eq_div_mul, List.cons_append, List.nil_append]
  unfold String.utf8EncodeChar
  rw [hval]
  dsimp only
  -- The bounds between the four lengths are those of the encoding.
  split
  · exact .inl ⟨by omega, by rw [Nat.mod_eq_of_lt (by omega), Nat.add_zero]⟩
  · split
    · exact .inr (.inl ⟨by omega, by omega, rfl⟩)
    · split
      · exact .inr (.inr (.inl ⟨by omega, by omega, rfl⟩))
      · exact .inr (.inr (.inr ⟨by omega, hbound, rfl⟩))

/-- The bytes of the greater of two characters come later, whatever follows them. -/
theorem utf8EncodeChar_append_lt {c d : Char} (h : c < d) (u v : List UInt8) :
    List.Lex (· < ·) (String.utf8EncodeChar c ++ u) (String.utf8EncodeChar d ++ v) := by
  have hlt : c.toNat < d.toNat := h
  rcases utf8EncodeChar_cases c with
      ⟨hc, hc'⟩ | ⟨hc₀, hc, hc'⟩ | ⟨hc₀, hc, hc'⟩ | ⟨hc₀, hc, hc'⟩ <;>
    rcases utf8EncodeChar_cases d with
      ⟨hd, hd'⟩ | ⟨hd₀, hd, hd'⟩ | ⟨hd₀, hd, hd'⟩ | ⟨hd₀, hd, hd'⟩ <;>
    rw [hc', hd']
  -- The greater character does not have fewer bytes; if it has more, its first byte is greater.
  all_goals try omega
  · exact ascending_lead 0x80 0 (by decide) _ _ hlt hd u v
  · exact lex_cons_of_lt (by omega) (by omega) _ _
  · exact lex_cons_of_lt (by omega) (by omega) _ _
  · exact lex_cons_of_lt (by omega) (by omega) _ _
  · exact (ascending_lead 32 192 (by decide)).trailed _ _ hlt hd u v
  · exact lex_cons_of_lt (by omega) (by omega) _ _
  · exact lex_cons_of_lt (by omega) (by omega) _ _
  · exact (ascending_lead 16 224 (by decide)).trailed.trailed _ _ hlt hd u v
  · exact lex_cons_of_lt (by omega) (by omega) _ _
  · exact (ascending_lead 8 240 (by decide)).trailed.trailed.trailed _ _ hlt (by omega) u v

/-! ## Texts -/

/-- Texts in the order of their code points are in the order of their bytes. -/
private theorem bytesBefore_of_lt {s t : String} (h : s < t) : BytesBefore s t := by
  have h : List.Lex (· < ·) s.toList t.toList := String.lt_iff.1 h
  rw [BytesBefore, utf8_eq_flatMap, utf8_eq_flatMap]
  generalize s.toList = cs, t.toList = ds at h
  -- The order of the code points is lexicographic too, so the cases are those of where they differ.
  induction h with
  -- The first text ends, and every further character has at least one byte.
  | @nil d ds =>
    have hpos : 0 < (String.utf8EncodeChar d).length :=
      String.length_utf8EncodeChar d ▸ d.utf8Size_pos
    obtain ⟨b, bytes, hbytes⟩ := List.exists_cons_of_length_pos hpos
    rw [List.flatMap_cons, hbytes]
    exact .nil
  | rel hcd => exact utf8EncodeChar_append_lt hcd _ _
  | cons _ ih => exact lex_append_left ih _

private theorem not_bytesBefore_self (s : String) : ¬ BytesBefore s s :=
  List.lt_irrefl (utf8 s)

private theorem BytesBefore.trans {s t u : String} (h : BytesBefore s t) (h' : BytesBefore t u) :
    BytesBefore s u :=
  List.lt_trans h h'

/-- The order of the bytes is the order of the code points. -/
theorem bytesBefore_iff {s t : String} : BytesBefore s t ↔ s < t := by
  refine ⟨fun h => ?_, bytesBefore_of_lt⟩
  -- Both orders are total, so it is enough that one of them carries over.
  refine Decidable.byContradiction fun hnot => ?_
  by_cases heq : s = t
  · subst heq
    exact not_bytesBefore_self s h
  · have hback := bytesBefore_of_lt (NameMap.lt_of_not_lt_of_ne hnot heq)
    exact not_bytesBefore_self s (h.trans hback)

end Text

end ScopeLisp
