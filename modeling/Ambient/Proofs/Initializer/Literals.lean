import Ambient.Proofs.Initializer.Numerals
import Ambient.Proofs.Text.Casing
import Mathlib.Data.Nat.Digits.Defs

/-!
# Integer literals in initializers

A literal loses its suffix, and a decimal literal its leading zeros. It stays a literal of
the same number, except that a separator behind the leading zeros comes to stand in front:
what is left is a name.
-/
namespace Ambient

namespace Initializer
open Text

inductive Radix where
  | decimal | hexadecimal | binary
  deriving DecidableEq

namespace Radix

def base : Radix → Nat
  | decimal => 10
  | hexadecimal => 16
  | binary => 2

/-- How a literal of this radix begins. -/
def marks : Radix → List (List Char)
  | decimal => [[]]
  | hexadecimal => [['0', 'x'], ['0', 'X']]
  | binary => [['0', 'b'], ['0', 'B']]

def alphabet : Radix → List Char
  | decimal => ['0', '1', '2', '3', '4', '5', '6', '7', '8', '9']
  | hexadecimal => ['0', '1', '2', '3', '4', '5', '6', '7', '8', '9', 'a', 'b', 'c', 'd', 'e', 'f',
    'A', 'B', 'C', 'D', 'E', 'F']
  | binary => ['0', '1']

end Radix

def digitValue (c : Char) : Nat := Radix.hexadecimal.alphabet.idxOf c.toLower

/-- An integer literal without its suffix. Separators may stand between its digits. -/
structure Literal where
  radix : Radix
  mark : List Char
  digits : List Char
  marked : mark ∈ radix.marks
  spelled : ∀ c ∈ digits, c ∈ radix.alphabet ∨ c = '_'
  begins : ∃ c ∈ digits.head?, c ∈ radix.alphabet
  ends : ∃ c ∈ digits.getLast?, c ∈ radix.alphabet

def digitsValue (base : Nat) (digits : List Char) : Nat :=
  Nat.ofDigits base ((digits.filter (· != '_')).map digitValue).reverse

namespace Literal

def chars (l : Literal) : List Char := l.mark ++ l.digits

/-- The number that the literal denotes. Separators do not count. -/
def value (l : Literal) : Nat := digitsValue l.radix.base l.digits

/-- The leading zeros of the literal end at a separator. -/
def SplitZeros (l : Literal) : Prop :=
  l.radix = .decimal ∧ (l.digits.dropWhile (· == '0')).head? = some '_'

instance (l : Literal) : Decidable l.SplitZeros := inferInstanceAs (Decidable (_ ∧ _))

end Literal

def signed (negative : Bool) (n : Nat) : Int := if negative then -n else n

def suffixes : List (List Char) := [[], ['u'], ['l'], ['u', 'l'], ['l', 'u']]

/-- A literal the way it may be written as an initializer. -/
structure Written where
  before : List Char
  negative : Bool
  gap : List Char
  literal : Literal
  suffix : List Char
  after : List Char
  around : ∀ c ∈ before ++ after, isBlank c = true
  between : ∀ c ∈ gap, isBlank c = true
  suffixed : suffix.map Char.toLower ∈ suffixes

namespace Written

def inner (w : Written) : List Char :=
  (if w.negative then '-' :: w.gap else []) ++ (w.literal.chars ++ w.suffix)

def text (w : Written) : String := String.ofList (w.before ++ (w.inner ++ w.after))

end Written

theorem mem_hexadecimal {r : Radix} {c : Char} (h : c ∈ r.alphabet) :
    c ∈ Radix.hexadecimal.alphabet := by
  have all : (r.alphabet.all Radix.hexadecimal.alphabet.contains) = true := by cases r <;> decide
  exact List.contains_iff_mem.mp (List.all_eq_true.mp all c h)

theorem isSuffix_of_digit {r : Radix} {c : Char} (h : c ∈ r.alphabet) : isSuffix c = false := by
  have none : (Radix.hexadecimal.alphabet.any isSuffix) = false := by decide
  exact eq_false_of_ne_true (List.any_eq_false.mp none c (mem_hexadecimal h))

theorem isLiteralPart_of_digit {r : Radix} {c : Char} (h : c ∈ r.alphabet) :
    isLiteralPart c = true := by
  have all : (Radix.hexadecimal.alphabet.all isLiteralPart) = true := by decide
  exact List.all_eq_true.mp all c (mem_hexadecimal h)

theorem isDigit_of_decimal {c : Char} (h : c ∈ Radix.decimal.alphabet) : c.isDigit = true := by
  have all : (Radix.decimal.alphabet.all Char.isDigit) = true := by decide
  exact List.all_eq_true.mp all c h

theorem isSuffix_of_toLower {c : Char} (h : c.toLower = 'u' ∨ c.toLower = 'l') :
    isSuffix c = true := by
  by_cases upper : c ≥ 'A' ∧ c ≤ 'Z'
  · have low : 65 ≤ c.toNat := upper.1
    have high : c.toNat ≤ 90 := upper.2
    exact of_code (fun c => c.toLower = 'u' ∨ c.toLower = 'l' → isSuffix c = true) 65 26
      (by decide) low (by omega) h
  · have keep : c.toLower = c := dif_neg upper
    rw [keep] at h
    rcases h with rfl | rfl <;> decide

theorem Written.isSuffix_of_mem (w : Written) : ∀ c ∈ w.suffix, isSuffix c = true := by
  intro c hc
  have lower : (suffixes.all fun s => s.all fun d => d == 'u' || d == 'l') = true := by decide
  have each :=
    List.all_eq_true.mp (List.all_eq_true.mp lower _ w.suffixed) _ (List.mem_map_of_mem hc)
  exact isSuffix_of_toLower (by simpa using each)

namespace Literal
variable (l : Literal)

theorem mark_eq_nil (decimal : l.radix = .decimal) : l.mark = [] := by
  have marked := l.marked
  rw [decimal] at marked
  exact List.mem_singleton.mp marked

theorem chars_decimal (decimal : l.radix = .decimal) : l.chars = l.digits := by
  rw [chars, l.mark_eq_nil decimal, List.nil_append]

theorem isLiteralPart_of_mem : ∀ c ∈ l.chars, isLiteralPart c = true := by
  intro c hc
  rcases List.mem_append.mp hc with mark | digit
  · have all : (l.radix.marks.all fun mark => mark.all isLiteralPart) = true := by
      cases l.radix <;> decide
    exact List.all_eq_true.mp (List.all_eq_true.mp all _ l.marked) c mark
  · rcases l.spelled c digit with digit | rfl
    · exact isLiteralPart_of_digit digit
    · decide

theorem isRadixMark_chars : isRadixMark l.chars = decide (l.radix ≠ .decimal) := by
  by_cases decimal : l.radix = .decimal
  · have spelled := l.spelled
    rw [l.chars_decimal decimal, decide_eq_false (not_not_intro decimal)]
    rw [decimal] at spelled
    have none : (('_' :: Radix.decimal.alphabet).any fun c =>
        c == 'x' || c == 'X' || c == 'b' || c == 'B') = false := by decide
    unfold isRadixMark
    split
    · rename_i c r digits
      rw [digits] at spelled
      refine eq_false_of_ne_true (List.any_eq_false.mp none c ?_)
      exact List.mem_cons.mpr (spelled c (by simp)).symm
    · rfl
  · have marked := l.marked
    rw [chars, decide_eq_true decimal]
    cases radix : l.radix with
    | decimal => exact absurd radix decimal
    | hexadecimal | binary =>
      rw [radix] at marked
      simp only [Radix.marks, List.mem_cons, List.not_mem_nil, or_false] at marked
      rcases marked with mark | mark <;> simp [mark, isRadixMark]

/-- Every literal begins with a decimal digit. -/
theorem head_chars : ∃ c ∈ l.chars.head?, c ∈ Radix.decimal.alphabet := by
  by_cases decimal : l.radix = .decimal
  · obtain ⟨c, head, digit⟩ := l.begins
    rw [l.chars_decimal decimal]
    exact ⟨c, head, decimal ▸ digit⟩
  · have marked := l.isRadixMark_chars
    rw [decide_eq_true decimal] at marked
    unfold isRadixMark at marked
    split at marked
    · rename_i zero
      exact ⟨'0', by rw [zero]; rfl, by decide⟩
    · cases marked

theorem last_chars : ∃ c ∈ l.chars.getLast?, c ∈ l.radix.alphabet := by
  obtain ⟨c, last, digit⟩ := l.ends
  refine ⟨c, ?_, digit⟩
  rw [chars, List.getLast?_append, last]
  rfl

end Literal

/-- The characters that are left of a literal. -/
def stripped (negative : Bool) (l : Literal) : List Char :=
  if l.radix = .decimal then
    match l.digits.dropWhile (· == '0') with
    | [] => ['0']
    | rest => signChars negative ++ rest
  else signChars negative ++ l.chars

namespace Written
variable (w : Written)

/-- An initializer that is a literal begins like a number. -/
def numeral : Numeral where
  negative := w.negative
  gap := if w.negative then w.gap else []
  body := w.literal.chars
  suffix := w.suffix
  unsigned positive := by simp [positive]
  between c hc := by
    split at hc
    · exact w.between c hc
    · cases hc
  begins := by
    obtain ⟨c, head, digit⟩ := w.literal.head_chars
    exact ⟨c, head, isDigit_of_decimal digit⟩
  parts := w.literal.isLiteralPart_of_mem
  ends d hd := by
    obtain ⟨c, last, digit⟩ := w.literal.last_chars
    cases last.symm.trans hd
    exact isSuffix_of_digit digit
  suffixed := w.isSuffix_of_mem

theorem text_numeral : w.numeral.text = w.inner := by
  show signChars w.negative ++ ((if w.negative then w.gap else []) ++ _) =
    (if w.negative then '-' :: w.gap else []) ++ _
  cases w.negative <;> rfl

theorem cleanChars_written :
    cleanChars (w.before ++ (w.inner ++ w.after)) = stripped w.negative w.literal := by
  have whole : cleanChars (w.before ++ (w.inner ++ w.after)) = w.numeral.stripped :=
    w.text_numeral ▸ w.numeral.cleanChars_around w.around
  rw [whole, Numeral.stripped]
  simp only [numeral, w.literal.isRadixMark_chars]
  unfold stripped
  by_cases decimal : w.literal.radix = .decimal
  · simp only [decimal, w.literal.chars_decimal decimal]
    cases w.literal.digits.dropWhile (· == '0') <;> rfl
  · simp [decimal]

end Written

theorem digitsValue_zero (base : Nat) (digits : List Char) :
    digitsValue base ('0' :: digits) = digitsValue base digits := by
  have digit : ('0' != '_') = true := by decide
  have none : digitValue '0' = 0 := by decide
  rw [digitsValue, List.filter_cons, if_pos digit, List.map_cons, List.reverse_cons, none,
    Nat.ofDigits_append_zero]
  rfl

theorem digitsValue_dropWhile (base : Nat) (digits : List Char) :
    digitsValue base (digits.dropWhile (· == '0')) = digitsValue base digits := by
  induction digits with
  | nil => rfl
  | cons c r ih =>
    rw [List.dropWhile_cons]
    split
    · rename_i zero
      rw [ih, beq_iff_eq.mp zero, digitsValue_zero]
    · rfl

theorem signed_zero (negative : Bool) : signed negative 0 = 0 := by
  cases negative <;> rfl

namespace Literal

/-- The literal without leading zeros. -/
def zero : Literal where
  radix := .decimal
  mark := []
  digits := ['0']
  marked := by decide
  spelled := fun c hc => .inl (List.mem_singleton.mp hc ▸ by decide)
  begins := ⟨'0', rfl, by decide⟩
  ends := ⟨'0', rfl, by decide⟩

variable {l : Literal}

/-- Where no separator comes to stand in front, a decimal literal without its leading
zeros is a literal. -/
theorem exists_short (decimal : l.radix = .decimal) (apart : ¬ l.SplitZeros) {c : Char}
    {r : List Char} (rest : l.digits.dropWhile (· == '0') = c :: r) :
    ∃ short : Literal, short.radix = .decimal ∧ short.value = l.value ∧
      short.digits = c :: r ∧ c ≠ '0' := by
  have suffix : c :: r <:+ l.digits := rest ▸ List.dropWhile_suffix _
  have nonzero : c ≠ '0' := by
    have stops := List.head?_dropWhile_not (· == '0') l.digits
    rw [rest] at stops
    simpa using stops
  have digit : c ∈ l.radix.alphabet := by
    refine (l.spelled c (suffix.subset List.mem_cons_self)).resolve_right ?_
    rintro rfl
    exact apart ⟨decimal, by rw [rest]; rfl⟩
  have ends : ∃ d ∈ (c :: r).getLast?, d ∈ l.radix.alphabet := by
    obtain ⟨d, last, digit⟩ := l.ends
    obtain ⟨front, whole⟩ := suffix
    rw [← whole, List.getLast?_append_of_ne_nil front (List.cons_ne_nil c r)] at last
    exact ⟨d, last, digit⟩
  have value : digitsValue l.radix.base (c :: r) = l.value := by
    rw [← rest, digitsValue_dropWhile]
    rfl
  exact ⟨⟨l.radix, l.mark, c :: r, l.marked, fun d hd => l.spelled d (suffix.subset hd),
    ⟨c, rfl, digit⟩, ends⟩, decimal, value, rfl, nonzero⟩

end Literal

/-- The initializer is written as a literal of the same number. It is the same literal without its
suffix, or a decimal literal without leading zeros. -/
structure Cleans (w : Written) (negative : Bool) (l : Literal) : Prop where
  text : clean w.text = String.ofList (signChars negative ++ l.chars)
  radix : l.radix = w.literal.radix
  value : signed negative l.value = signed w.negative w.literal.value
  kept : w.literal.radix ≠ .decimal → l.chars = w.literal.chars
  short : w.literal.radix = .decimal → l.digits.head? = some '0' →
    l.digits = ['0'] ∧ negative = false

theorem clean_written (w : Written) :
    clean w.text = String.ofList (stripped w.negative w.literal) := by
  rw [clean, Written.text, String.toList_ofList, w.cleanChars_written]

theorem exists_cleans {w : Written} (apart : ¬ w.literal.SplitZeros) :
    ∃ negative l, Cleans w negative l := by
  have text := clean_written w
  unfold stripped at text
  split at text
  · rename_i decimal
    split at text
    · rename_i rest
      have none : w.literal.value = 0 := by
        rw [Literal.value, ← digitsValue_dropWhile, rest]
        rfl
      refine ⟨false, .zero, text, decimal.symm, ?_, fun other => absurd decimal other,
        fun _ _ => ⟨rfl, rfl⟩⟩
      rw [none, signed_zero]
      rfl
    · rename_i some
      obtain ⟨c, r, rest⟩ := List.exists_cons_of_ne_nil some
      obtain ⟨short, radix, value, digits, nonzero⟩ := Literal.exists_short decimal apart rest
      refine ⟨w.negative, short, ?_, radix.trans decimal.symm, by rw [value],
        fun other => absurd decimal other, fun _ head => ?_⟩
      · rw [text, rest, short.chars_decimal radix, digits]
      · rw [digits] at head
        exact absurd (Option.some.inj head) nonzero
  · rename_i other
    exact ⟨w.negative, w.literal, text, rfl, rfl, fun _ => rfl,
      fun decimal => absurd decimal other⟩

/-- With a separator in front the digits are a name. -/
theorem clean_splitZeros {w : Written} (split : w.literal.SplitZeros) : ∃ name : List Char,
    clean w.text = String.ofList (signChars w.negative ++ '_' :: name) ∧
      isIdentifier (String.ofList ('_' :: name)) = true := by
  obtain ⟨decimal, head⟩ := split
  obtain ⟨name, rest⟩ := List.head?_eq_some_iff.mp head
  have suffix : '_' :: name <:+ w.literal.digits := rest ▸ List.dropWhile_suffix _
  refine ⟨name, ?_, ?_⟩
  · rw [clean_written, stripped, if_pos decimal, rest]
  · have parts : (('_' :: Radix.decimal.alphabet).all isNamePart) = true := by decide +kernel
    have start : isNameStart '_' = true := by decide +kernel
    rw [isIdentifier, String.toList_ofList]
    refine Bool.and_eq_true_iff.mpr ⟨start, List.all_eq_true.mpr fun c hc => ?_⟩
    have spelled := w.literal.spelled c (suffix.subset (List.mem_cons_of_mem _ hc))
    rw [decimal] at spelled
    exact List.all_eq_true.mp parts c (List.mem_cons.mpr spelled.symm)

/-- An initializer that is an integer literal is written as a literal of the same number, unless a
separator stands behind its leading zeros. -/
theorem exists_cleans_iff (w : Written) :
    (∃ negative l, Cleans w negative l) ↔ ¬ w.literal.SplitZeros := by
  refine ⟨fun ⟨negative, l, cleans⟩ split => ?_, exists_cleans⟩
  obtain ⟨name, text, -⟩ := clean_splitZeros split
  have decimal : l.radix = .decimal := cleans.radix.trans split.1
  have same : signChars negative ++ l.chars = signChars w.negative ++ '_' :: name :=
    String.ofList_injective (cleans.text.symm.trans text)
  obtain ⟨c, head, digit⟩ := l.head_chars
  obtain ⟨r, chars⟩ := List.head?_eq_some_iff.mp head
  have apart : (Radix.decimal.alphabet.any fun c => c == '-' || c == '_') = false := by decide
  have other : c ≠ '-' ∧ c ≠ '_' := by simpa using List.any_eq_false.mp apart c digit
  rw [chars] at same
  unfold signChars at same
  split at same <;> split at same <;> cases same
  · exact other.2 rfl
  · exact other.1 rfl
  · exact other.2 rfl

example : clean " - 0_070ul" = "-_070" ∧ clean " - 007_0ul" = "-7_0" := by decide

end Initializer
end Ambient
