import Ambient.Diagnostic
import Ambient.Json.Position
import Ambient.Proofs.Source.Laid
import Ambient.Proofs.Text.Order
import Ambient.Proofs.Text.Pieces

/-!
# Places of a text

A byte of a text is found by its offset or by its line and column. The one is computed from the
other by going over the lines, which end where their line feeds are. What is shown of a place is the
character that has the byte, however the place came about.
-/
namespace Ambient

open Text

namespace Json
variable {cs : List Char}

/-- The line of a byte, where lines count from one: a line feed before the byte ends each
line before that. -/
def lineOf (bytes : List UInt8) (offset : Nat) : Nat := 1 + (bytes.take offset).count 10

/-- The column of a byte, where columns count from one: it goes on with each byte
before it on its line. -/
def columnOf (bytes : List UInt8) (offset : Nat) : Nat :=
  1 + ((bytes.take offset).reverse.takeWhile (· != 10)).length

theorem not_mem_utf8EncodeChar {c : Char} (other : c ≠ '\n') :
    10 ∉ String.utf8EncodeChar c := by
  have value : c.val.toNat ≠ 10 := fun same => other (Char.ext (UInt32.toNat_inj.mp same))
  unfold String.utf8EncodeChar
  dsimp only
  -- a byte of a longer encoding is at least 128
  split_ifs <;>
    simp only [List.mem_cons, List.not_mem_nil, or_false, not_or, ← UInt8.toNat_inj,
      UInt8.toNat_ofNat', UInt8.reduceToNat] <;> omega

theorem not_mem_bytes (one : '\n' ∉ cs) : 10 ∉ cs.flatMap String.utf8EncodeChar := by
  intro mem
  obtain ⟨c, there, byte⟩ := List.mem_flatMap.mp mem
  exact not_mem_utf8EncodeChar (fun same => one (same ▸ there)) byte

theorem length_bytes (cs : List Char) :
    (cs.flatMap String.utf8EncodeChar).length = byteLength cs := by
  induction cs with
  | nil => rfl
  | cons c r ih =>
    rw [List.flatMap_cons, List.length_append, ih, String.length_utf8EncodeChar, byteLength]

/-- Up to the first line feed there is one line, and its columns are the places in it. -/
theorem lineOf_of_le {line : List UInt8} {offset : Nat} (one : 10 ∉ line)
    (inside : offset ≤ line.length)
    (tail : List UInt8) : lineOf (line ++ tail) offset = 1 := by
  rw [lineOf, List.take_append_of_le_length inside, List.count_eq_zero.mpr]
  exact fun mem => one (List.mem_of_mem_take mem)

theorem columnOf_of_le {line : List UInt8} {offset : Nat} (one : 10 ∉ line)
    (inside : offset ≤ line.length)
    (tail : List UInt8) : columnOf (line ++ tail) offset = 1 + offset := by
  have other : ∀ b ∈ (line.take offset).reverse, (b != 10) = true := fun b hb =>
    bne_iff_ne.mpr fun same => one (same ▸ List.mem_of_mem_take (List.mem_reverse.mp hb))
  have taken := @List.takeWhile_append_of_pos _ _ _ [] other
  rw [List.append_nil, List.takeWhile_nil, List.append_nil] at taken
  rw [columnOf, List.take_append_of_le_length inside, taken, List.length_reverse, List.length_take,
    Nat.min_eq_left inside]

/-- Behind a line feed, lines are counted on and columns are counted anew. -/
theorem lineOf_append (line rest : List UInt8) (one : 10 ∉ line) (more : Nat) :
    lineOf (line ++ 10 :: rest) (line.length + 1 + more) = lineOf rest more + 1 := by
  rw [lineOf, lineOf, Nat.add_assoc line.length, List.take_length_add_append, Nat.add_comm 1 more,
    List.take_succ_cons, List.count_append, List.count_eq_zero.mpr one, List.count_cons_self]
  omega

theorem columnOf_append (line rest : List UInt8) (more : Nat) :
    columnOf (line ++ 10 :: rest) (line.length + 1 + more) = columnOf rest more := by
  rw [columnOf, columnOf, Nat.add_assoc line.length, List.take_length_add_append,
    Nat.add_comm 1 more,
    List.take_succ_cons, List.reverse_append, List.reverse_cons, List.append_assoc,
    List.singleton_append, takeWhile_append_cons rfl]

theorem wholeLines_of_not_mem (one : '\n' ∉ cs) (some : cs ≠ []) : wholeLines cs = [cs] := by
  induction cs with
  | nil => exact absurd rfl some
  | cons c r ih =>
    rw [List.mem_cons, not_or] at one
    rw [wholeLines, if_neg (Ne.symm one.1)]
    cases r with
    | nil => rfl
    | cons d r => rw [ih one.2 (List.cons_ne_nil d r)]

theorem wholeLines_append {line : List Char} (one : '\n' ∉ line) (rest : List Char) :
    wholeLines (line ++ '\n' :: rest) = (line ++ ['\n']) :: wholeLines rest := by
  induction line with
  | nil => rw [List.nil_append, wholeLines, if_pos rfl, List.nil_append]
  | cons c r ih =>
    rw [List.mem_cons, not_or] at one
    rw [List.cons_append, wholeLines, if_neg (Ne.symm one.1), ih one.2]
    rfl

theorem wholeLines_flatten (cs : List Char) : (wholeLines cs).flatten = cs := by
  fun_induction wholeLines cs with
  | case1 => rfl
  | case2 r ih => rw [List.flatten_cons, ih]; rfl
  | case3 c r _ none ih =>
    rw [none] at ih
    rw [← ih]
    rfl
  | case4 c r _ line more split ih =>
    rw [split] at ih
    rw [List.flatten_cons, List.cons_append, ← List.flatten_cons, ih]

theorem offsetIn_le (start column index : Nat) (lines : List (List Char)) :
    offsetIn start column index lines ≤ start + byteLength lines.flatten := by
  fun_induction offsetIn start column index lines with
  | case1 => exact Nat.le_add_right _ _
  | case2 start line more =>
    rw [List.flatten_cons, byteLength_append]
    omega
  | case3 start index line more ih =>
    rw [List.flatten_cons, byteLength_append]
    omega

/-- The line and the column of a byte lead to its offset, by induction on the
lines in front of it. -/
theorem offsetIn_of_byte {offset index : Nat} (start : Nat) {cs : List Char}
    (inside : offset ≤ byteLength cs)
    (line : lineOf (cs.flatMap String.utf8EncodeChar) offset = index + 1) :
    offsetIn start (columnOf (cs.flatMap String.utf8EncodeChar) offset) index (wholeLines cs) =
      start + offset := by
  by_cases several : '\n' ∈ cs
  · obtain ⟨before, rest, rfl, one⟩ := List.eq_append_cons_of_mem several
    have bytes : (before ++ '\n' :: rest).flatMap String.utf8EncodeChar =
        before.flatMap String.utf8EncodeChar ++ 10 :: rest.flatMap String.utf8EncodeChar := by
      rw [List.flatMap_append, List.flatMap_cons]
      rfl
    have size : byteLength (before ++ ['\n']) = byteLength before + 1 :=
      byteLength_append before ['\n']
    rw [bytes] at line ⊢
    rw [wholeLines_append one]
    by_cases here : offset ≤ byteLength before
    · rw [← length_bytes] at here
      rw [lineOf_of_le (not_mem_bytes one) here] at line
      rw [columnOf_of_le (not_mem_bytes one) here, ← Nat.succ.inj line]
      rw [length_bytes] at here
      show start + min (1 + offset - 1) (byteLength (before ++ ['\n'])) = start + offset
      omega
    · obtain ⟨more, rfl⟩ := Nat.exists_eq_add_of_lt (Nat.lt_of_not_le here)
      have feed : '\n'.utf8Size = 1 := rfl
      rw [byteLength_append, byteLength, feed] at inside
      rw [Nat.add_right_comm, ← length_bytes before] at line ⊢
      rw [lineOf_append _ _ (not_mem_bytes one)] at line
      obtain ⟨index, rfl⟩ : ∃ index', index = index' + 1 :=
        ⟨index - 1, by rw [lineOf] at line; omega⟩
      rw [columnOf_append, length_bytes]
      show offsetIn (start + byteLength (before ++ ['\n'])) _ index (wholeLines rest) = _
      rw [offsetIn_of_byte _ (by omega) (Nat.succ.inj line)]
      omega
  · have taken := length_bytes cs
    rw [← List.append_nil (cs.flatMap String.utf8EncodeChar)] at line ⊢
    rw [lineOf_of_le (not_mem_bytes several) (taken ▸ inside)] at line
    rw [columnOf_of_le (not_mem_bytes several) (taken ▸ inside), ← Nat.succ.inj line]
    by_cases empty : cs = []
    · subst empty
      rw [Nat.le_zero.mp inside]
      rfl
    · rw [wholeLines_of_not_mem several empty]
      show start + min (1 + offset - 1) (byteLength cs) = start + offset
      omega
termination_by cs.length

theorem lineColumnOffset_of_byte {offset : Nat} (inside : offset ≤ byteLength cs) :
    lineColumnOffset cs (lineOf (cs.flatMap String.utf8EncodeChar) offset)
      (columnOf (cs.flatMap String.utf8EncodeChar) offset) = some offset := by
  have found := offsetIn_of_byte 0 inside (lineOf.eq_1 _ _ |>.trans (Nat.add_comm 1 _))
  rw [Nat.zero_add] at found
  rw [lineOf, Nat.add_comm 1]
  exact congrArg some found

theorem exists_lineColumnOffset (cs : List Char) (index column : Nat) :
    ∃ offset ≤ byteLength cs, lineColumnOffset cs (index + 1) column = some offset := by
  have bound := offsetIn_le 0 column index (wholeLines cs)
  rw [wholeLines_flatten, Nat.zero_add] at bound
  exact ⟨_, bound, rfl⟩

end Json

namespace Diagnostic

/-- An offset in the text means the character that has the byte there. -/
theorem spanAt_of_lt {offset : Nat} {cs : List Char} (inside : offset < byteLength cs) :
    ∃ before c after, cs = before ++ c :: after ∧ byteLength before ≤ offset ∧
      offset < byteLength (before ++ [c]) ∧
      spanAt offset cs = (byteLength before, byteLength (before ++ [c])) := by
  fun_induction spanAt offset cs with
  | case1 => exact absurd inside (Nat.not_lt_zero _)
  | case2 offset c r here => exact ⟨[], c, r, rfl, Nat.zero_le offset, here, rfl⟩
  | case3 offset c r further start stop found ih =>
    rw [byteLength] at inside
    obtain ⟨before, d, after, rfl, begins, ends, span⟩ := ih (by omega)
    rw [found] at span
    cases span
    refine ⟨c :: before, d, after, rfl, ?_, ?_, rfl⟩
    · rw [byteLength]
      omega
    · rw [List.cons_append, byteLength]
      omega

theorem spanAt_of_le {offset : Nat} {cs : List Char} (outside : byteLength cs ≤ offset) :
    spanAt offset cs = (byteLength cs, byteLength cs) := by
  fun_induction spanAt offset cs with
  | case1 => rfl
  | case2 offset c r here =>
    rw [byteLength] at outside
    omega
  | case3 offset c r further start stop found ih =>
    rw [byteLength] at outside ⊢
    rw [found] at ih
    cases ih (by omega)
    rfl

/-- The span is that of the character which has the byte at `offset`. Only where the text is at its
end there is no such character, and the span is empty. -/
structure IsSpanAt (text : String) (offset : Nat) (span : Nat × Nat) : Prop where
  begins : Host.IsBoundary text span.1
  ends : Host.IsBoundary text span.2
  inside : span.1 ≤ min offset text.utf8ByteSize ∧ span.2 ≤ text.utf8ByteSize
  character : offset < text.utf8ByteSize → offset < span.2 ∧
    ∃ before c after, text.toList = before ++ c :: after ∧
      span = (byteLength before, byteLength before + c.utf8Size)
  empty : span.1 = span.2 ↔ text.utf8ByteSize ≤ offset

theorem spanAt_isSpanAt (text : String) (offset : Nat) :
    IsSpanAt text offset (spanAt offset text.toList) := by
  have size := Host.byteLength_toList text
  rcases Nat.lt_or_ge offset (byteLength text.toList) with inside | outside
  · obtain ⟨before, c, after, whole, begins, ends, span⟩ := spanAt_of_lt inside
    have ended : text.toList = before ++ [c] ++ after := by rw [whole, List.append_assoc]; rfl
    have fits : byteLength (before ++ [c]) ≤ byteLength text.toList := by
      rw [ended, byteLength_append (before ++ [c])]
      exact Nat.le_add_right _ _
    rw [span]
    refine ⟨Host.isBoundary_of_append whole, Host.isBoundary_of_append ended,
      ⟨?_, size ▸ fits⟩, fun _ => ⟨ends, before, c, after, whole, ?_⟩, ?_⟩
    · show byteLength before ≤ min offset text.utf8ByteSize
      omega
    · rw [byteLength_append]
      rfl
    · show byteLength before = byteLength (before ++ [c]) ↔ _
      omega
  · have last : Host.IsBoundary text (byteLength text.toList) :=
      Host.isBoundary_of_append (List.append_nil text.toList).symm
    rw [spanAt_of_le outside]
    rw [size] at last outside ⊢
    exact ⟨last, last, ⟨Nat.le_min.mpr ⟨outside, Nat.le_refl _⟩, Nat.le_refl _⟩,
      fun inside => absurd inside (Nat.not_lt_of_le outside),
      ⟨fun _ => outside, fun _ => rfl⟩⟩

end Diagnostic

open Json Diagnostic

/-- The line and the column of a byte lead back to it, any line and column lead into the text, and
any offset to the character that has the byte there. -/
theorem positions_lead_back (text : String) :
    (∀ offset ≤ text.utf8ByteSize,
      lineColumnOffset text.toList (lineOf (utf8 text) offset) (columnOf (utf8 text) offset) =
        some offset) ∧
    (∀ line column, 1 ≤ line →
      ∃ offset ≤ text.utf8ByteSize, lineColumnOffset text.toList line column = some offset) ∧
    ∀ offset, IsSpanAt text offset (spanAt offset text.toList) := by
  have size := Host.byteLength_toList text
  refine ⟨fun offset inside => ?_, fun line column positive => ?_, spanAt_isSpanAt text⟩
  · exact lineColumnOffset_of_byte (size ▸ inside)
  · obtain ⟨index, rfl⟩ := Nat.exists_eq_add_of_le' positive
    exact size ▸ exists_lineColumnOffset text.toList index column

theorem positions_lead_back_secondLine :
    (3 ≤ "é\nb".utf8ByteSize ∧ lineColumnOffset "é\nb".toList 2 1 = some 3) ∧
      (∃ offset ≤ 4, lineColumnOffset "é\nb".toList 1 7 = some offset) ∧
      IsSpanAt "é\nb" 1 (0, 2) :=
  have places := positions_lead_back "é\nb"
  ⟨⟨by decide, places.1 3 (by decide)⟩, places.2.1 1 7 (by decide), places.2.2 1⟩

end Ambient
