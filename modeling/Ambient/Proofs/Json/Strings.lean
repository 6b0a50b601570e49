import Ambient.Json.Quote
import Ambient.Json.StringReader

/-!
# Quoted strings read back

Each character is quoted on its own and read back on its own, so a quoted string gives the string
again whatever follows it.
-/
namespace Ambient.Json

/-- What a reader of a string gives that meets `text` and goes on with `rest`. -/
def StringRead.Gives (s : StringRead) (text rest : List Char) : Prop :=
  s.text = .ok text ∧ ∃ index, s.next = .ok ⟨index, rest⟩

/-- What a reader of a string gives that goes on with `rest`, whatever the string is. -/
def StringRead.Ends (s : StringRead) (rest : List Char) : Prop :=
  ∃ index, s.next = .ok ⟨index, rest⟩

variable {c : Char} {text rest r : List Char} {index : Nat}

theorem StringRead.Gives.ends {s : StringRead} (h : s.Gives text rest) : s.Ends rest := h.2

theorem StringRead.Gives.push {s : StringRead} (h : s.Gives text rest) :
    (s.push c).Gives (c :: text) rest := by
  obtain ⟨value, next⟩ := h
  refine ⟨?_, next⟩
  show s.text.map (c :: ·) = _
  rw [value]
  rfl

theorem hexCode?_control : ∀ n < 0x20,
    hexCode? '0' '0' (hexDigit (n / 16)) (hexDigit (n % 16)) = some n := by decide

theorem not_surrogate_of_lt {n : Nat} (h : n < 0x20) :
    isLowSurrogate n = false ∧ isHighSurrogate n = false := by
  have low : ¬ 0xdc00 ≤ n := by omega
  have high : ¬ 0xd800 ≤ n := by omega
  simp [isLowSurrogate, isHighSurrogate, low, high]

theorem readString_escape {e : Char} (known : simpleEscape? e = some c) :
    readString index ('\\' :: e :: r) = (readString (index + 2) r).push c := by
  have notU : e ≠ 'u' := by
    rintro rfl
    cases known
  rw [readString.eq_def]
  split
  · simp_all
  · simp_all
  · simp_all
  · simp_all
  · rename_i same
    obtain ⟨rfl, rfl⟩ := (List.cons.inj (List.cons.inj same).2)
    rw [known]
  · rename_i slash same
    obtain ⟨first, rest⟩ := List.cons.inj same
    exact absurd rest.symm (slash _ _ first.symm)

theorem readString_simple {e : Char} (known : simpleEscape? e = some c)
    (h : ∀ i, (readString i r).Gives text rest) :
    (readString index ('\\' :: e :: r)).Gives (c :: text) rest := by
  rw [readString_escape known]
  exact (h _).push

theorem readString_plain (quote : c ≠ '"') (slash : c ≠ '\\') (visible : ¬ c.toNat < 0x20) :
    readString index (c :: r) = (readString (index + c.utf8Size) r).push c := by
  rw [readString.eq_def]
  split
  · simp_all
  · simp_all
  · simp_all
  · simp_all
  · simp_all
  · rename_i same
    obtain ⟨rfl, rfl⟩ := List.cons.inj same
    rw [if_neg visible]

/-- An escaped code is a character, or it is one half of a pair. -/
theorem readString_code {a b d e : Char} {n : Nat} (code : hexCode? a b d e = some n) :
    readString index ('\\' :: 'u' :: a :: b :: d :: e :: r) =
      if isLowSurrogate n then (readString (index + 6) r).spoil ⟨.loneSurrogate, index + 6⟩
      else if isHighSurrogate n then
        match secondSurrogate (index + 6) r with
        | .error f => (readString (index + 6) r).spoil f
        | .ok none => readString (index + 6) r
        | .ok (some (low, after)) =>
          (readString (index + 12) after).push (Char.ofNat (pairCode n low))
      else (readString (index + 6) r).push (Char.ofNat n) := by
  have whole : readHex (a :: b :: d :: e :: r) = .code n r := by simp only [readHex, code]
  rw [readString]
  split
  · rename_i short
    rw [whole] at short
    cases short
  · rename_i invalid
    rw [whole] at invalid
    cases invalid
  · rename_i m q same
    rw [whole] at same
    obtain ⟨rfl, rfl⟩ := Hex.code.inj same
    by_cases low : isLowSurrogate n = true
    · simp only [low, if_true]
    · by_cases high : isHighSurrogate n = true
      · simp only [low, high, Bool.false_eq_true, if_false, if_true]
        split <;> rename_i second <;> rw [second]
      · simp only [low, high, Bool.false_eq_true, if_false]

theorem readString_control (h : c.toNat < 0x20) :
    readString index ('\\' :: 'u' :: '0' :: '0' :: hexDigit (c.toNat / 16) ::
      hexDigit (c.toNat % 16) :: r) = (readString (index + 6) r).push c := by
  obtain ⟨low, high⟩ := not_surrogate_of_lt h
  rw [readString_code (hexCode?_control _ h)]
  simp [low, high]

theorem readString_quoteChar (h : ∀ i, (readString i r).Gives text rest) :
    (readString index (quoteChar c ++ r)).Gives (c :: text) rest := by
  unfold quoteChar
  iterate 7
    split
    · subst_vars
      exact readString_simple rfl h
  split
  · rename_i control
    exact (readString_control control) ▸ (h _).push
  · rename_i quote slash _ _ _ _ _ visible
    exact (readString_plain quote slash visible) ▸ (h _).push

/-- A quoted string reads back, from behind its opening quote on. -/
theorem readString_quoted (cs rest : List Char) (index : Nat) :
    (readString index (cs.flatMap quoteChar ++ '"' :: rest)).Gives cs rest := by
  induction cs generalizing index with
  | nil =>
    rw [List.flatMap_nil, List.nil_append, readString]
    exact ⟨rfl, index + 1, rfl⟩
  | cons c more ih =>
    rw [List.flatMap_cons, List.append_assoc]
    exact readString_quoteChar ih

theorem toList_quote (s : String) :
    (quote s).toList = '"' :: (s.toList.flatMap quoteChar ++ ['"']) := by
  rw [quote, String.toList_ofList, quoteChars]
  rfl

end Ambient.Json
