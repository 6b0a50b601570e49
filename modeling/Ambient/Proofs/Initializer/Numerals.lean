import Ambient.Initializer
import Ambient.Proofs.Source.Numbers
import Ambient.Proofs.Text.Trimming
import Mathlib.Data.List.DropRight

/-!
# What cleaning leaves alone

A text that begins like a number is a sign with white space behind it, then digits, letters and
separators, then a suffix. Cleaning takes out the white space and the suffix and takes the zeros off
the front; any other text is only trimmed. What is left need not begin like a number again, but
there is nothing more to clean in it.
-/
namespace Ambient

namespace Initializer
open Text

def signChars (negative : Bool) : List Char := if negative then ['-'] else []

variable {c : Char} {r cs gap : List Char} {negative : Bool}

theorem isBlank_of_isLiteralPart (h : isLiteralPart c = true) : isBlank c = false := by
  have parts : Lexeme.isNumberPart c = (isLiteralPart c || c == '.' || c == '+' || c == '-') := rfl
  rw [h] at parts
  exact Lexeme.isBlank_of_numberPart parts

theorem isLiteralPart_of_isSuffix (h : isSuffix c = true) : isLiteralPart c = true := by
  simp only [isSuffix, Bool.or_eq_true, beq_iff_eq] at h
  obtain ((rfl | rfl) | rfl) | rfl := h <;> decide

theorem isLiteralPart_of_isDigit (h : c.isDigit = true) : isLiteralPart c = true := by
  simp [isLiteralPart, h]

theorem isSuffix_of_isDigit (h : c.isDigit = true) : isSuffix c = false := by
  refine eq_false_of_ne_true fun suffix => ?_
  simp only [isSuffix, Bool.or_eq_true, beq_iff_eq] at suffix
  obtain ((rfl | rfl) | rfl) | rfl := suffix <;> cases h

theorem ne_minus_of_isLiteralPart (h : isLiteralPart c = true) : c ≠ '-' := by
  rintro rfl
  cases h

/-- A sign is split off together with the white space behind it. -/
theorem splitSign_signed (unsigned : negative = false → gap = [])
    (between : ∀ d ∈ gap, isBlank d = true) (part : isLiteralPart c = true) :
    splitSign (signChars negative ++ (gap ++ c :: r)) = (signChars negative, c :: r) := by
  cases negative with
  | true =>
    have spaced : trimStart (gap ++ c :: r) = c :: r :=
      dropWhile_append_left between fun d hd => by
        cases hd
        exact isBlank_of_isLiteralPart part
    exact Prod.ext rfl spaced
  | false =>
    rw [unsigned rfl, signChars, if_neg Bool.false_ne_true, List.nil_append,
      List.nil_append, splitSign]
    rintro _ ⟨⟩
    exact ne_minus_of_isLiteralPart part rfl

theorem isTidy_signed (unsigned : negative = false → gap = [])
    (parts : ∀ d ∈ c :: r, isLiteralPart d = true) :
    IsTidy (signChars negative ++ (gap ++ c :: r)) := by
  have number : IsTidy (c :: r) :=
    isTidy_cons (isBlank_of_isLiteralPart (parts c List.mem_cons_self)) fun d hd =>
      isBlank_of_isLiteralPart (parts d (List.mem_of_getLast? hd))
  cases negative with
  | true =>
    obtain ⟨_, d, _, last, _, final⟩ := number
    have whole : ('-' :: (gap ++ c :: r)).getLast? = some d := by
      rw [← List.cons_append, List.getLast?_append, last, Option.some_or]
    exact ⟨'-', d, rfl, whole, by decide, final⟩
  | false =>
    rw [unsigned rfl]
    exact number

/-- A text that begins like a number, in its parts. -/
@[ext]
structure Numeral where
  negative : Bool
  gap : List Char
  body : List Char
  suffix : List Char
  unsigned : negative = false → gap = []
  between : ∀ c ∈ gap, isBlank c = true
  begins : ∃ c ∈ body.head?, c.isDigit = true
  parts : ∀ c ∈ body, isLiteralPart c = true
  ends : ∀ c ∈ body.getLast?, isSuffix c = false
  suffixed : ∀ c ∈ suffix, isSuffix c = true

namespace Numeral
variable (n : Numeral)

def text : List Char := signChars n.negative ++ (n.gap ++ (n.body ++ n.suffix))

/-- What cleaning makes of a numeral. -/
def stripped : List Char :=
  if isRadixMark n.body then signChars n.negative ++ n.body
  else match n.body.dropWhile (· == '0') with
    | [] => ['0']
    | rest => signChars n.negative ++ rest

/-- There is nothing to take away: no white space, no suffix, and no zero in front, but for the
number zero itself and the marks of other radices. -/
structure IsBare : Prop where
  gap : n.gap = []
  suffix : n.suffix = []
  zeros : isRadixMark n.body = true ∨ n.body.head? ≠ some '0' ∨ n.negative = false ∧
    n.body = ['0']

theorem exists_body : ∃ c r, n.body = c :: r ∧ c.isDigit = true := by
  obtain ⟨c, head, digit⟩ := n.begins
  obtain ⟨r, body⟩ := List.head?_eq_some_iff.mp head
  exact ⟨c, r, body, digit⟩

theorem isLiteralPart_of_mem : ∀ c ∈ n.body ++ n.suffix, isLiteralPart c = true := by
  intro c hc
  rcases List.mem_append.mp hc with body | suffix
  · exact n.parts c body
  · exact isLiteralPart_of_isSuffix (n.suffixed c suffix)

theorem isTidy_text : IsTidy n.text := by
  obtain ⟨c, r, body, -⟩ := n.exists_body
  have parts := n.isLiteralPart_of_mem
  rw [body, List.cons_append] at parts
  rw [text, body, List.cons_append]
  exact isTidy_signed n.unsigned parts

theorem splitSign_text : splitSign n.text = (signChars n.negative, n.body ++ n.suffix) := by
  obtain ⟨c, r, body, digit⟩ := n.exists_body
  rw [text, body]
  exact splitSign_signed n.unsigned n.between (isLiteralPart_of_isDigit digit)

theorem dropEndWhile_suffix : dropEndWhile isSuffix (n.body ++ n.suffix) = n.body :=
  dropEndWhile_append_right n.ends n.suffixed

/-- A numeral with white space around it is cleaned to what is left of it. -/
theorem cleanChars_around {before after : List Char}
    (around : ∀ c ∈ before ++ after, isBlank c = true) :
    cleanChars (before ++ (n.text ++ after)) = n.stripped := by
  obtain ⟨c, r, body, digit⟩ := n.exists_body
  have starts : ((n.body ++ n.suffix).head?.any Char.isDigit) = true := by
    rw [body]
    exact digit
  have parts : n.body.all isLiteralPart = true := List.all_eq_true.mpr n.parts
  unfold cleanChars
  simp only [n.isTidy_text.trim_between around, n.splitSign_text, n.dropEndWhile_suffix,
    starts, parts]
  rfl

theorem cleanChars_text : cleanChars n.text = n.stripped := by
  have alone := @cleanChars_around n [] [] (List.forall_mem_nil _)
  rwa [List.nil_append, List.append_nil] at alone

/-- A text is a numeral in at most one way. -/
theorem text_injective : Function.Injective text := by
  intro n m same
  have split := n.splitSign_text
  rw [same, m.splitSign_text] at split
  obtain ⟨signs, digits⟩ := Prod.mk.inj split
  have body : n.body = m.body := by
    rw [← n.dropEndWhile_suffix, ← digits, m.dropEndWhile_suffix]
  have negative : n.negative = m.negative := by
    cases hn : n.negative <;> cases hm : m.negative <;> simp_all [signChars]
  rw [text, text, ← signs, ← digits] at same
  have gap : n.gap = m.gap := List.append_cancel_right (List.append_cancel_left same)
  rw [body] at digits
  exact Numeral.ext negative gap body (List.append_cancel_left digits).symm

end Numeral

theorem exists_splitSign (cs : List Char) : ∃ negative gap,
    cs = signChars negative ++ (gap ++ (splitSign cs).2) ∧ (negative = false → gap = []) ∧
      ∀ c ∈ gap, isBlank c = true := by
  unfold splitSign
  split
  · rename_i r
    refine ⟨true, r.takeWhile isBlank, ?_, nofun, List.all_eq_true.mp List.all_takeWhile⟩
    exact congrArg ('-' :: ·) List.takeWhile_append_dropWhile.symm
  · exact ⟨false, [], rfl, fun _ => rfl, List.forall_mem_nil _⟩

/-- A text is a numeral if digits and letters that begin with a digit follow its
sign, a suffix apart. -/
theorem exists_numeral (starts : ((splitSign cs).2.head?.any Char.isDigit) = true)
    (parts : (dropEndWhile isSuffix (splitSign cs).2).all isLiteralPart = true) :
    ∃ n : Numeral, n.text = cs := by
  obtain ⟨negative, gap, whole, unsigned, between⟩ := exists_splitSign cs
  cases digits : (splitSign cs).2 with
  | nil =>
    rw [digits] at starts
    cases starts
  | cons c r =>
    rw [digits] at whole starts parts
    have digit : c.isDigit = true := starts
    have joined : (c :: r).rdropWhile isSuffix ++ (c :: r).rtakeWhile isSuffix = c :: r :=
      List.rdropWhile_append_rtakeWhile
    have some : (c :: r).rdropWhile isSuffix ≠ [] := by
      intro none
      have all := List.rdropWhile_eq_nil_iff.mp none c List.mem_cons_self
      rw [isSuffix_of_isDigit digit] at all
      cases all
    obtain ⟨d, q, body⟩ := List.exists_cons_of_ne_nil some
    have first : d = c := by
      rw [body] at joined
      exact (List.cons.inj joined).1
    refine ⟨⟨negative, gap, (c :: r).rdropWhile isSuffix, (c :: r).rtakeWhile isSuffix,
      unsigned, between,
      ⟨c, by rw [body, first]; rfl, digit⟩, List.all_eq_true.mp parts, fun e he => ?_,
      fun e he => List.mem_rtakeWhile_imp he⟩, ?_⟩
    · have last := List.rdropWhile_last_not isSuffix (c :: r) some
      rw [List.getLast?_eq_some_getLast some] at he
      cases he
      exact eq_false_of_ne_true last
    · rw [Numeral.text, joined, ← whole]

/-- A text that is no numeral is trimmed and otherwise left as it is. -/
theorem cleanChars_eq_trim (other : ∀ n : Numeral, n.text ≠ trim cs) :
    cleanChars cs = trim cs := by
  unfold cleanChars
  simp only
  split
  · rfl
  · rename_i numeral
    rw [Bool.not_eq_true, Bool.or_eq_false_iff, Bool.not_eq_false', Bool.not_eq_false'] at numeral
    obtain ⟨n, text⟩ := exists_numeral numeral.1 numeral.2
    exact absurd text (other n)

/-- No white space stands at the ends, and a numeral is bare. -/
structure Settled (cs : List Char) : Prop where
  first : ∀ c ∈ cs.head?, isBlank c = false
  last : ∀ c ∈ cs.getLast?, isBlank c = false
  bare : ∀ n : Numeral, n.text = cs → n.IsBare

theorem settled_of_isTidy (tidy : IsTidy cs) (bare : ∀ n : Numeral, n.text = cs → n.IsBare) :
    Settled cs := by
  obtain ⟨c, d, head, last, first, final⟩ := tidy
  refine ⟨fun e he => ?_, fun e he => ?_, bare⟩
  · cases head.symm.trans he
    exact first
  · cases last.symm.trans he
    exact final

theorem Settled.trim_eq (h : Settled cs) : trim cs = cs := by
  cases cs with
  | nil => rfl
  | cons c r => exact (isTidy_cons (h.first c rfl) h.last).trim_eq

namespace Numeral
variable {n : Numeral}

theorem IsBare.settled (bare : n.IsBare) : Settled n.text := by
  refine settled_of_isTidy n.isTidy_text fun m same => ?_
  rwa [text_injective same]

theorem IsBare.stripped_eq (bare : n.IsBare) : n.stripped = n.text := by
  obtain ⟨c, r, body, -⟩ := n.exists_body
  have whole : n.text = signChars n.negative ++ n.body := by
    rw [text, bare.gap, bare.suffix, List.nil_append, List.append_nil]
  unfold stripped
  rw [whole]
  split
  · rfl
  · rename_i decimal
    rcases bare.zeros with radix | nonzero | ⟨positive, zero⟩
    · exact absurd radix decimal
    · have keeps : n.body.dropWhile (· == '0') = c :: r := by
        rw [body] at nonzero ⊢
        exact List.dropWhile_cons_of_neg (by simpa using nonzero)
      rw [keeps, body]
    · rw [zero, positive]
      rfl

/-- A numeral without white space and suffix. -/
def plain (n : Numeral) : Numeral :=
  { n with
    gap := []
    suffix := []
    unsigned := fun _ => rfl
    between := List.forall_mem_nil _
    suffixed := List.forall_mem_nil _ }

theorem text_plain : n.plain.text = signChars n.negative ++ n.body := by
  rw [text, plain, List.nil_append, List.append_nil]

/-- The number zero. -/
def zero : Numeral :=
  ⟨false, [], ['0'], [], fun _ => rfl, List.forall_mem_nil _, ⟨'0', rfl, rfl⟩,
    List.forall_mem_singleton.mpr rfl, fun _ hc => Option.some.inj hc ▸ rfl,
    List.forall_mem_nil _⟩

/-- A numeral in front of which there were zeros. -/
theorem settled_shortened {c : Char} {r : List Char} (suffix : c :: r <:+ n.body)
    (nonzero : c ≠ '0') :
    Settled (signChars n.negative ++ c :: r) := by
  have parts : ∀ d ∈ c :: r, isLiteralPart d = true := fun d hd => n.parts d (suffix.subset hd)
  have ends : ∀ d ∈ (c :: r).getLast?, isSuffix d = false := by
    obtain ⟨front, whole⟩ := suffix
    intro d hd
    refine n.ends d ?_
    rwa [← whole, List.getLast?_append_of_ne_nil front (List.cons_ne_nil c r)]
  by_cases digit : c.isDigit = true
  · let m : Numeral :=
      ⟨n.negative, [], c :: r, [], fun _ => rfl, List.forall_mem_nil _, ⟨c, rfl, digit⟩,
      parts, ends, List.forall_mem_nil _⟩
    have bare : m.IsBare := ⟨rfl, rfl, .inr (.inl fun head => nonzero (Option.some.inj head))⟩
    have text : m.text = signChars n.negative ++ c :: r := m.text_plain
    exact text ▸ bare.settled
  · -- a letter or separator is in front, which makes it no numeral
    have split := @splitSign_signed c r [] n.negative (fun _ => rfl) (List.forall_mem_nil _)
      (parts c List.mem_cons_self)
    rw [List.nil_append] at split
    refine settled_of_isTidy (isTidy_signed (fun _ => rfl) parts) fun m same => ?_
    obtain ⟨d, q, body, begins⟩ := m.exists_body
    have digits := m.splitSign_text
    rw [same, split, body] at digits
    obtain ⟨rfl, _⟩ := List.cons.inj (Prod.mk.inj digits).2
    exact absurd begins digit

theorem settled_stripped (n : Numeral) : Settled n.stripped := by
  unfold stripped
  split
  · rename_i radix
    have bare : n.plain.IsBare := ⟨rfl, rfl, .inl radix⟩
    exact n.text_plain ▸ bare.settled
  · split
    · have bare : zero.IsBare := ⟨rfl, rfl, .inr (.inr ⟨rfl, rfl⟩)⟩
      exact bare.settled
    · rename_i rest some
      obtain ⟨c, r, short⟩ := List.exists_cons_of_ne_nil some
      have suffix : c :: r <:+ n.body := short ▸ List.dropWhile_suffix _
      have nonzero : c ≠ '0' := by
        have stops := List.head?_dropWhile_not (· == '0') n.body
        rw [short] at stops
        simpa using stops
      rw [short]
      exact settled_shortened suffix nonzero

end Numeral

/-- What cleaning gives is settled. -/
theorem settled_cleanChars (cs : List Char) : Settled (cleanChars cs) := by
  by_cases numeral : ∃ n : Numeral, n.text = trim cs
  · obtain ⟨n, text⟩ := numeral
    have stripped : cleanChars cs = n.stripped := by
      rw [← n.cleanChars_text, text]
      unfold cleanChars
      rw [trim_trim]
    exact stripped ▸ n.settled_stripped
  · have other := not_exists.mp numeral
    rw [cleanChars_eq_trim other]
    by_cases some : trim cs = []
    · rw [some] at other ⊢
      exact ⟨nofun, nofun, fun n same => absurd same (other n)⟩
    · exact settled_of_isTidy (isTidy_trim some) fun n same => absurd same (other n)

theorem Settled.cleanChars_eq (h : Settled cs) : cleanChars cs = cs := by
  by_cases numeral : ∃ n : Numeral, n.text = cs
  · obtain ⟨n, rfl⟩ := numeral
    rw [n.cleanChars_text, (h.bare n rfl).stripped_eq]
  · rw [cleanChars_eq_trim (h.trim_eq.symm ▸ not_exists.mp numeral), h.trim_eq]

/-- Cleaning settles a text: there is no white space at its ends, and cleaned again it stays as it
is. The texts that stay are the settled ones. -/
theorem clean_settles (v : String) : clean (clean v) = clean v ∧ Settled (clean v).toList ∧
    (clean v = v ↔ Settled v.toList) := by
  have kept {w : String} (settled : Settled w.toList) : clean w = w := by
    rw [clean, settled.cleanChars_eq, String.ofList_toList]
  have settled (w : String) : Settled (clean w).toList := by
    rw [clean, String.toList_ofList]
    exact settled_cleanChars w.toList
  exact ⟨kept (settled v), settled v, fun same => same ▸ settled v, kept⟩

end Initializer
end Ambient
