import Mathlib.Data.String.Basic
import Mathlib.Tactic.Common

/-!
# Texts in the order of their bytes

The characters of a text are compared by their code points, and its bytes in UTF-8 by their values.
The encoding is monotone in each character and no encoding is the start of another one, so texts in
the one order are in the other.
-/
namespace Ambient.Text

/-- The bytes of a text in UTF-8. -/
def utf8 (text : String) : List UInt8 := text.toList.flatMap String.utf8EncodeChar

theorem toByteArray_utf8 (text : String) : (utf8 text).toByteArray = text.toUTF8 :=
  String.utf8Encode_toList

variable {c d : Char}

theorem val_lt_limit (c : Char) : c.val.toNat < 0x110000 := by
  rcases c.valid with low | ⟨-, high⟩
  · exact Nat.lt_trans low (by decide)
  · exact high

/-- A smaller character has an encoding that comes first, whatever follows the two. -/
theorem utf8EncodeChar_append_lt (less : c < d) (a b : List UInt8) :
    String.utf8EncodeChar c ++ a < String.utf8EncodeChar d ++ b := by
  have values : c.val.toNat < d.val.toNat := less
  have bound := val_lt_limit d
  have digits : ∀ v : Nat, v / 4096 = v / 64 / 64 ∧ v / 262144 = v / 64 / 64 / 64 := by omega
  unfold String.utf8EncodeChar
  simp only [digits]
  generalize c.val.toNat = m at values
  generalize d.val.toNat = n at values bound
  -- one case for each pair of lengths
  split_ifs <;>
    simp only [List.cons_append, List.nil_append, List.cons_lt_cons_iff, UInt8.lt_iff_toNat_lt,
      ← UInt8.toNat_inj, UInt8.toNat_ofNat'] <;> omega

theorem utf8EncodeChar_ne_nil (c : Char) : String.utf8EncodeChar c ≠ [] := by
  rw [← List.length_pos_iff, String.length_utf8EncodeChar]
  exact c.utf8Size_pos

theorem utf8_lt {a b : String} (less : a < b) : utf8 a < utf8 b := by
  have chars := String.lt_iff_toList_lt.mp less
  unfold utf8
  generalize a.toList = xs at chars
  generalize b.toList = ys at chars
  induction chars with
  | @nil d r =>
    obtain ⟨first, others, spelled⟩ := List.exists_cons_of_ne_nil (utf8EncodeChar_ne_nil d)
    rw [List.flatMap_nil, List.flatMap_cons, spelled, List.cons_append]
    exact List.nil_lt_cons _ _
  | rel smaller =>
    rw [List.flatMap_cons, List.flatMap_cons]
    exact utf8EncodeChar_append_lt smaller _ _
  | cons _ ih =>
    rw [List.flatMap_cons, List.flatMap_cons]
    exact List.append_left_lt ih

end Ambient.Text
