import Ambient.Proofs.Source.Cuts

/-!
# Number literals cut out of the source

A number is spelled by the characters it takes, so its text can be told from any other text that is
cut out of a source: what reads as one number that spells all of it comes from one number literal.
-/
namespace Ambient

/-- The text is one number literal and nothing else. -/
def IsNumber (s : String) : Prop := (Item.ofText s).map (·.token) = [.number s]

instance (s : String) : Decidable (IsNumber s) := inferInstanceAs (Decidable (_ = _))

namespace Lexeme

/-- Characters that a number is made of. -/
def isNumberPart (c : Char) : Bool :=
  isAsciiAlphanumeric c || c == '_' || c == '.' || c == '+' || c == '-'

theorem isBlank_of_numberPart {c : Char} (h : isNumberPart c = true) : Text.isBlank c = false := by
  have solid : IsSolid c := by
    apply isSolid_of_not_mem
    intro gap
    have none : ∀ n ∈ gapCodes, isNumberPart (Char.ofNat n) = false := by decide +kernel
    have no := none c.toNat gap
    rw [Char.ofNat_toNat, h] at no
    cases no
  exact solid.2.1

theorem isNumberPart_of_readNumber (hexadecimal : Bool) (cs : List Char) :
    ∀ d ∈ (readNumber hexadecimal cs).1, isNumberPart d = true := by
  fun_induction readNumber hexadecimal cs <;> simp_all [isNumberPart]
  grind

/-- A number takes as much as it can: what is one number on its own is at least begun by one where
more text follows. -/
theorem length_le_readNumber {hexadecimal : Bool} {r : List Char}
    (whole : readNumber hexadecimal r = (r, [])) (x : List Char) :
    r.length ≤ (readNumber hexadecimal (r ++ x)).1.length := by
  fun_induction readNumber hexadecimal r with
  | case1 => exact Nat.zero_le _
  | case2 c part =>
    cases x with
    | nil => simp [readNumber, part]
    | cons d x =>
      rw [List.singleton_append, readNumber, if_pos part]
      split <;> simp
  | case3 => cases whole
  | case4 c d r part sign text rest read ih =>
    obtain ⟨same, rfl⟩ := Prod.mk.inj whole
    obtain rfl := (List.cons.inj (List.cons.inj same).2).2
    rw [List.cons_append, List.cons_append, readNumber, if_pos part, if_pos sign]
    have behind := ih read
    simp only [List.length_cons]
    omega
  | case5 c d r part sign text rest read ih =>
    obtain ⟨same, rfl⟩ := Prod.mk.inj whole
    obtain rfl := (List.cons.inj same).2
    rw [List.cons_append, List.cons_append, readNumber, if_pos part, if_neg sign]
    have behind := ih read
    simp only [List.length_cons, List.cons_append] at behind ⊢
    omega
  | case6 c d r part point text rest read ih =>
    obtain ⟨same, rfl⟩ := Prod.mk.inj whole
    obtain rfl := (List.cons.inj same).2
    rw [List.cons_append, List.cons_append, readNumber, if_neg part, if_pos point]
    have behind := ih read
    simp only [List.length_cons, List.cons_append] at behind ⊢
    omega
  | case7 => cases whole

theorem read_digit {c : Char} (digit : c.isDigit = true) (fresh : Bool) (r : List Char) :
    read fresh c r = readWord c r := by
  unfold read
  split <;> first | rfl | cases digit

/-- A number is spelled by what is taken. -/
theorem number_of_read {fresh : Bool} {c : Char} {r rest : List Char} {n : String}
    (h : read fresh c r = (some (.token (.number n)), rest)) :
    c.isDigit = true ∧ n = String.ofList (c :: (readNumber (startsHexadecimal c r) r).1) ∧
      rest = (readNumber (startsHexadecimal c r) r).2 := by
  have mark : ∀ {m : Mark} {q : List Char},
      markPiece m q ≠ (some (.token (.number n)), rest) := by
    intro m q h
    cases (Prod.mk.inj h).1
  have op : ∀ {d : Char} {q : List Char}, opPiece d q ≠ (some (.token (.number n)), rest) := by
    intro d q h
    cases (Prod.mk.inj h).1
  have text : ∀ {found : List Char × List Char},
      textPiece found ≠ (some (.token (.number n)), rest) := by
    intro found h
    cases (Prod.mk.inj h).1
  unfold read at h
  split at h
  all_goals first | exact absurd h mark | skip
  · unfold readColon at h
    split at h <;> exact absurd h mark
  · unfold readEquals at h
    split at h <;> first | exact absurd h mark | exact absurd h op
  · split at h
    · cases h
    · exact absurd h op
  · unfold readSlash at h
    split at h <;> cases (Prod.mk.inj h).1
  · unfold readQuote at h
    split at h <;> exact absurd h text
  · unfold readAt at h
    split at h
    · exact absurd h op
    · split at h
      · exact absurd h text
      · split at h
        · cases (Prod.mk.inj h).1
        · exact absurd h op
  · unfold readDollar at h
    split at h <;> first | exact absurd h text | exact absurd h op
  · cases (Prod.mk.inj h).1
  · unfold readWord at h
    split at h
    · rename_i digit
      obtain ⟨same, left⟩ := Prod.mk.inj h
      cases same
      exact ⟨digit, rfl, left.symm⟩
    · split at h
      · have same := (Prod.mk.inj h).1
        unfold wordToken at same
        split at same <;> cases same
      · exact absurd h op

end Lexeme

open Lexeme Text

theorem Next.number {fresh : Bool} {start : Nat} {cs gap w rest : List Char} {t : Item}
    {ts : List Item} {n : String} (next : Next fresh start cs t ts gap w rest)
    (token : t.token = .number n) :
    n = String.ofList w ∧ ∃ c r, w = c :: r ∧ c.isDigit = true ∧
      readNumber (startsHexadecimal c (r ++ rest)) (r ++ rest) = (r, rest) := by
  obtain ⟨fresh', c, r, rfl, -, reads⟩ := next.reads
  rw [token] at reads
  obtain ⟨digit, spelled, left⟩ := number_of_read reads
  have whole := readNumber_append (startsHexadecimal c (r ++ rest)) (r ++ rest)
  rw [← left] at whole
  have same := List.append_cancel_right whole
  exact ⟨by rw [spelled, same], c, r, rfl, digit, Prod.ext same left.symm⟩

theorem IsNumber.chars {s : String} (h : IsNumber s) :
    ∃ c r, s.toList = c :: r ∧ c.isDigit = true ∧
      readNumber (startsHexadecimal c r) r = (r, []) := by
  obtain ⟨t, none, items, token, empty⟩ := List.map_eq_cons_iff.mp h
  obtain rfl := List.map_eq_nil_iff.mp empty
  obtain ⟨gap, w, rest, next⟩ := exists_next items
  obtain ⟨spelled, c, r, rfl, digit, reads⟩ := next.number token
  have chars : s.toList = c :: r := by rw [spelled, String.toList_ofList]
  have whole := next.whole
  rw [chars] at whole
  have lengths := congrArg List.length whole
  simp only [List.length_append, List.length_cons] at lengths
  obtain rfl : rest = [] := List.eq_nil_of_length_eq_zero (by omega)
  rw [List.append_nil] at reads
  exact ⟨c, r, chars, digit, reads⟩

/-- Items that come next end where a text `u` ends, which is not all white space. -/
theorem exists_span {more rest : List Item} :
    ∀ {t : Item} {start : Nat} {cs : List Char},
      Item.ofLexemes [] (scan false start cs) = t :: more ++ rest →
        ∃ u x, cs = u ++ x ∧ (∃ d ∈ u, isBlank d = false) ∧
          ∀ i ∈ (t :: more).getLast?, i.stop = start + byteLength u := by
  induction more with
  | nil =>
    intro t start cs h
    obtain ⟨gap, w, x, next⟩ := exists_next h
    obtain ⟨c, r, rfl, solid⟩ := next.head
    refine ⟨gap ++ c :: r, x, next.whole, ⟨c, by simp, solid⟩, ?_⟩
    rintro i ⟨⟩
    exact next.ends
  | cons t' more ih =>
    intro t start cs h
    obtain ⟨gap, w, x, next⟩ := exists_next h
    obtain ⟨u, x, rfl, ⟨d, there, solid⟩, last⟩ := ih next.after.symm
    refine ⟨gap ++ w ++ u, x, ?_, ⟨d, by simp [there], solid⟩, ?_⟩
    · rw [next.whole, List.append_assoc _ u]
    · intro i hi
      rw [last i hi, next.ends, byteLength_append (gap ++ w), Nat.add_assoc]

namespace Host

/-- One number literal is kept as it is spelled. -/
theorem writtenText_number {text n : String} {t : Item} {rest : List Item}
    (there : t :: rest <:+ Item.ofText text) (token : t.token = .number n) :
    writtenText text.toList (t :: rest) rest = n := by
  obtain ⟨before, whole⟩ := there
  obtain ⟨u, x, fresh, docs, chars, items⟩ := exists_scan whole.symm
  rw [Nat.zero_add] at items
  obtain ⟨gap, w, after, next⟩ := exists_next items.symm
  obtain ⟨rfl, c, r, rfl, digit, reads⟩ := next.number token
  have source : text.toList = u ++ gap ++ (c :: r) ++ after := by
    rw [chars, next.whole]
    simp only [List.append_assoc]
  have covers : Covers text.toList (c :: r) after [t] := by
    refine ⟨t, t, rfl, rfl, ?_, ?_⟩
    · rw [next.begins, source]
      simp only [byteLength_append]
      omega
    · rw [next.ends, source]
      simp only [byteLength_append]
      omega
  have tidy : trim (c :: r) = c :: r := by
    have parts : ∀ d ∈ c :: r, isNumberPart d = true := by
      intro d hd
      rcases List.mem_cons.mp hd with rfl | part
      · simp [isNumberPart, isAsciiAlphanumeric, digit]
      · exact isNumberPart_of_readNumber _ _ d (by rw [reads]; exact part)
    refine (isTidy_cons (isBlank_of_numberPart (parts c List.mem_cons_self))
      fun d last => ?_).trim_eq
    exact isBlank_of_numberPart (parts d (List.mem_of_getLast? last))
  exact writtenText_append source covers tidy

/-- What reads as a number where it is cut out comes from one number literal. -/
theorem number_of_writtenText {text : String} {t : Item} {more rest : List Item}
    (there : t :: more ++ rest <:+ Item.ofText text)
    (number : IsNumber (writtenText text.toList (t :: more ++ rest) rest)) :
    more = [] ∧ t.token = .number (writtenText text.toList (t :: more ++ rest) rest) := by
  obtain ⟨before, whole⟩ := there
  obtain ⟨u, x, fresh, docs, chars, items⟩ := exists_scan whole.symm
  rw [Nat.zero_add] at items
  obtain ⟨gap, w, after, next⟩ := exists_next items.symm
  obtain ⟨fresh', c, r, rfl, solid, reads⟩ := next.reads
  have literal : c.isDigit = true → ∃ n, t.token = .number n := by
    intro digit
    rw [read_digit digit, readWord, if_pos digit] at reads
    cases found : t.token with
    | number n => exact ⟨n, rfl⟩
    | _ =>
      rw [found] at reads
      cases (Prod.mk.inj reads).1
  obtain ⟨c', q, spelled, digit, single⟩ := number.chars
  cases more with
  | nil =>
    have source : text.toList = u ++ gap ++ (c :: r) ++ after := by
      rw [chars, next.whole]
      simp only [List.append_assoc]
    have covers : Covers text.toList (c :: r) after [t] := by
      refine ⟨t, t, rfl, rfl, ?_, ?_⟩
      · rw [next.begins, source]
        simp only [byteLength_append]
        omega
      · rw [next.ends, source]
        simp only [byteLength_append]
        omega
    obtain ⟨q', trimmed⟩ := head_trim r solid.2.1
    rw [writtenText_eq_trim source covers, String.toList_ofList, trimmed] at spelled
    obtain ⟨rfl, -⟩ := List.cons.inj spelled
    obtain ⟨n, token⟩ := literal digit
    have there : t :: rest <:+ Item.ofText text := ⟨before, whole⟩
    refine ⟨rfl, ?_⟩
    rw [token, ← writtenText_number there token]
    rfl
  | cons t' more =>
    obtain ⟨v, left, rfl, ⟨d, inside, behind⟩, last⟩ := exists_span next.after.symm
    have source : text.toList = u ++ gap ++ (c :: r ++ v) ++ left := by
      rw [chars, next.whole]
      simp only [List.append_assoc]
    have covers : Covers text.toList (c :: r ++ v) left (t :: t' :: more) := by
      refine ⟨t, (t' :: more).getLast (List.cons_ne_nil t' more), rfl, ?_, ?_, ?_⟩
      · rw [List.getLast?_cons_cons, List.getLast?_eq_some_getLast]
      · rw [next.begins, source]
        simp only [byteLength_append]
        omega
      · rw [last _ (List.getLast?_eq_some_getLast _), next.ends, source]
        simp only [byteLength_append]
        omega
    obtain ⟨v', some, ⟨z, rfl⟩, trimmed⟩ := trim_append solid.2.1 inside behind (r := r)
    rw [writtenText_eq_trim source covers, String.toList_ofList, trimmed] at spelled
    obtain ⟨rfl, -⟩ := List.cons.inj spelled
    obtain rfl : q = r ++ v' := (List.cons.inj spelled).2.symm
    obtain ⟨n, token⟩ := literal digit
    obtain ⟨-, c', r', same, -, reads'⟩ := next.number token
    obtain ⟨rfl, rfl⟩ := List.cons.inj same
    -- The number goes on to the end of what is cut out, but stops before the second token.
    have hexadecimal : startsHexadecimal c (r ++ v') =
        startsHexadecimal c (r ++ (v' ++ z ++ left)) := by
      rw [List.append_assoc, ← List.append_assoc r]
      cases all : r ++ v' with
      | nil => exact absurd (List.append_eq_nil_iff.mp all).2 some
      | cons e q => rfl
    rw [hexadecimal] at single
    have munch := length_le_readNumber single (z ++ left)
    have same : r ++ v' ++ (z ++ left) = r ++ (v' ++ z ++ left) := by simp only [List.append_assoc]
    simp only [same, reads', List.length_append] at munch
    have positive := List.length_pos_iff.mpr some
    omega

end Host
end Ambient
