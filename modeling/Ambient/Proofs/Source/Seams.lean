import Ambient.Proofs.Source.Locality
import Mathlib.Data.List.Basic

/-!
# Sewing texts together

What a lexer reads up to some place depends on the text behind that place only as long as a token
can go on there. A space, a brace or a semicolon goes on with no token, so where one of them
follows, a text can be replaced from there on. It can be cut off there as well: whatever the lexer
looks at ahead of a token it takes, unless it would have read the same at the end of the text.
-/
namespace Ambient

namespace Lexeme

/-- Characters that go on with no token that stands before them. -/
def IsSeam (c : Char) : Prop := c = ' ' ∨ c = '\x7b' ∨ c = '\x7d' ∨ c = ';'

/-- What the seams are not: a part of a word or a number, a quotation mark, or the second character
of a mark, a comment or an escape. -/
theorem IsSeam.other {c : Char} (seam : IsSeam c) :
    isWordPart c = false ∧ isAsciiAlphanumeric c = false ∧
      ∀ d ∈ ['"', '/', '*', ':', '=', '>', '+', '-', '.', '@', '_', '\n'], c ≠ d := by
  rcases seam with rfl | rfl | rfl | rfl <;> exact ⟨by decide, by decide, by simp⟩

/-- No token goes on here: the text is at its end, or a seam comes first. -/
def IsSeamed (z : List Char) : Prop := ∀ c ∈ z.head?, IsSeam c

theorem isSeamed_nil : IsSeamed [] := by
  rintro c ⟨⟩

theorem isSeamed_cons {c : Char} (seam : IsSeam c) (z : List Char) : IsSeamed (c :: z) := by
  rintro d ⟨⟩
  exact seam

theorem IsSeamed.head?_ne {z : List Char} {d : Char} (seamed : IsSeamed z)
    (other : ∀ c, IsSeam c → c ≠ d) : z.head? ≠ some d :=
  fun same => other d (seamed d same) rfl

variable {r x rest z text : List Char} {c : Char}

theorem not_taken {α : Type} {read : α × List Char} {text : α} (h : read = (text, rest ++ x))
    (short : read.2.length < x.length) : False := by
  rw [h, List.length_append] at short
  omega

theorem readQuoted_cons {a : Char} (plain : a ≠ '\\') (q : List Char) :
    readQuoted (a :: q) = if a = '"' then ([], q)
      else (a :: (readQuoted q).1, (readQuoted q).2) := by
  rw [readQuoted]
  · rintro rfl
    exact absurd rfl plain
  · rintro c q rfl
    exact absurd rfl plain

theorem readQuoted_length_lt (a : Char) (q : List Char) :
    (readQuoted (a :: q)).2.length < q.length + 1 := by
  have short := readQuoted_length_le q
  by_cases slash : a = '\\'
  · subst slash
    cases q with
    | nil => exact Nat.zero_lt_one
    | cons c q =>
      have short := readQuoted_length_le q
      rw [readQuoted]
      simp only [List.length_cons]
      omega
  · rw [readQuoted_cons slash]
    split <;> simp only <;> omega

theorem readQuoted_sews (some : x ≠ []) (z : List Char) : ∀ (r : List Char) {text : List Char},
    readQuoted (r ++ x) = (text, rest ++ x) → readQuoted (r ++ z) = (text, rest ++ z)
  | [], text, h => by
    obtain ⟨a, q, rfl⟩ := List.exists_cons_of_ne_nil some
    exact (not_taken h (readQuoted_length_lt a q)).elim
  | a :: r, text, h => by
    by_cases slash : a = '\\'
    · subst slash
      cases r with
      | nil =>
        obtain ⟨a, q, rfl⟩ := List.exists_cons_of_ne_nil some
        have short := readQuoted_length_le q
        refine (not_taken h ?_).elim
        rw [List.cons_append, List.nil_append, readQuoted]
        exact Nat.lt_succ_of_le short
      | cons c r =>
        rw [List.cons_append, List.cons_append, readQuoted] at h ⊢
        obtain ⟨rfl, left⟩ := Prod.mk.inj h
        rw [readQuoted_sews some z r (Prod.ext rfl left)]
    · rw [List.cons_append, readQuoted_cons slash] at h ⊢
      split at h
      · rename_i quote
        obtain ⟨rfl, left⟩ := Prod.mk.inj h
        rw [if_pos quote, List.append_cancel_right left]
      · rename_i other
        obtain ⟨rfl, left⟩ := Prod.mk.inj h
        rw [if_neg other, readQuoted_sews some z r (Prod.ext rfl left)]

theorem readVerbatim_cons {a : Char} (single : a = '"' → r.head? ≠ some '"') :
    readVerbatim (a :: r) =
      if a = '"' then ([], r) else (a :: (readVerbatim r).1, (readVerbatim r).2) := by
  rw [readVerbatim]
  rintro q rfl rfl
  exact single rfl rfl

theorem readVerbatim_length_lt (a : Char) (q : List Char) :
    (readVerbatim (a :: q)).2.length < q.length + 1 := by
  have short := readVerbatim_length_le q
  by_cases double : a = '"' ∧ q.head? = some '"'
  · obtain ⟨rfl, second⟩ := double
    obtain ⟨q, rfl⟩ := List.head?_eq_some_iff.mp second
    have short := readVerbatim_length_le q
    rw [readVerbatim]
    simp only [List.length_cons]
    omega
  · rw [readVerbatim_cons fun first second => double ⟨first, second⟩]
    split <;> simp only <;> omega

theorem readVerbatim_sews (some : x ≠ []) (apart : z.head? ≠ Option.some '"') :
    ∀ (r : List Char) {text : List Char}, readVerbatim (r ++ x) = (text, rest ++ x) →
      readVerbatim (r ++ z) = (text, rest ++ z)
  | [], text, h => by
    obtain ⟨a, q, rfl⟩ := List.exists_cons_of_ne_nil some
    exact (not_taken h (readVerbatim_length_lt a q)).elim
  | a :: r, text, h => by
    by_cases double : a = '"' ∧ (r ++ x).head? = Option.some '"'
    · obtain ⟨rfl, second⟩ := double
      cases r with
      | nil =>
        obtain ⟨q, rfl⟩ := List.head?_eq_some_iff.mp second
        have short := readVerbatim_length_le q
        refine (not_taken h ?_).elim
        rw [List.cons_append, List.nil_append, readVerbatim]
        exact Nat.lt_succ_of_le short
      | cons d r =>
        obtain rfl : d = '"' := Option.some.inj second
        rw [List.cons_append, List.cons_append, readVerbatim] at h ⊢
        obtain ⟨rfl, left⟩ := Prod.mk.inj h
        rw [readVerbatim_sews some apart r (Prod.ext rfl left)]
    · have single : a = '"' → (r ++ x).head? ≠ Option.some '"' :=
        fun first second => double ⟨first, second⟩
      have single' : a = '"' → (r ++ z).head? ≠ Option.some '"' := by
        intro first second
        cases r with
        | nil => exact apart second
        | cons d r => exact single first second
      rw [List.cons_append, readVerbatim_cons single] at h
      rw [List.cons_append, readVerbatim_cons single']
      split at h
      · rename_i quote
        obtain ⟨rfl, left⟩ := Prod.mk.inj h
        rw [if_pos quote, List.append_cancel_right left]
      · rename_i other
        obtain ⟨rfl, left⟩ := Prod.mk.inj h
        rw [if_neg other, readVerbatim_sews some apart r (Prod.ext rfl left)]

/-- A row of three quotation marks stands here. -/
def Closing (cs : List Char) : Prop := ['"', '"', '"'] <+: cs

instance (cs : List Char) : Decidable (Closing cs) := inferInstanceAs (Decidable (_ <+: cs))

theorem readRaw_cons {a : Char} (other : ¬ Closing (a :: r)) :
    readRaw (a :: r) = (a :: (readRaw r).1, (readRaw r).2) := by
  rw [readRaw]
  rintro q rfl rfl
  exact other ⟨q, rfl⟩

theorem readRaw_length_lt (a : Char) (q : List Char) :
    (readRaw (a :: q)).2.length < q.length + 1 := by
  by_cases closing : Closing (a :: q)
  · obtain ⟨q, same⟩ := closing
    obtain ⟨rfl, rfl⟩ := List.cons.inj same
    have short := dropWhile_length_le (· == '"') q
    show (q.dropWhile (· == '"')).length < q.length + 2 + 1
    omega
  · rw [readRaw_cons closing]
    exact Nat.lt_succ_of_le (readRaw_length_le q)

theorem dropWhile_sews {p : Char → Bool} (h : (r ++ x).dropWhile p = rest ++ x)
    (stops : ∀ c ∈ z.head?, p c = false) : (r ++ z).dropWhile p = rest ++ z ∧
      (r ++ z).takeWhile p = (r ++ x).takeWhile p := by
  induction r with
  | nil =>
    rw [List.nil_append] at h
    obtain ⟨rfl, same⟩ := stays_of_dropWhile h
    rw [List.nil_append, List.nil_append, same]
    cases z with
    | nil => exact ⟨rfl, rfl⟩
    | cons c z =>
      have no := stops c rfl
      rw [List.dropWhile_cons_of_neg (by simp [no]), List.takeWhile_cons_of_neg (by simp [no])]
      exact ⟨rfl, rfl⟩
  | cons a r ih =>
    simp only [List.cons_append, List.dropWhile_cons, List.takeWhile_cons] at h ⊢
    split at h
    · rename_i part
      rw [if_pos part, if_pos part, if_pos part, (ih h).1, (ih h).2]
      exact ⟨rfl, rfl⟩
    · rename_i no
      have same : a :: r = rest := List.append_cancel_right h
      rw [if_neg no, if_neg no, if_neg no, ← same]
      exact ⟨rfl, rfl⟩

theorem readRaw_sews (some : x ≠ []) (apart : z.head? ≠ Option.some '"') :
    ∀ (r : List Char) {text : List Char}, readRaw (r ++ x) = (text, rest ++ x) →
      readRaw (r ++ z) = (text, rest ++ z)
  | [], text, h => by
    obtain ⟨a, q, rfl⟩ := List.exists_cons_of_ne_nil some
    exact (not_taken h (readRaw_length_lt a q)).elim
  | a :: r, text, h => by
    by_cases closing : Closing (a :: r)
    · obtain ⟨q, same⟩ := closing
      obtain ⟨rfl, rfl⟩ := List.cons.inj same
      have h : ([], (q ++ x).dropWhile (· == '"')) = (text, rest ++ x) := h
      obtain ⟨rfl, left⟩ := Prod.mk.inj h
      have stops : ∀ c ∈ z.head?, (c == '"') = false := fun c first =>
        beq_eq_false_iff_ne.mpr fun quote => apart (quote ▸ first)
      show ([], (q ++ z).dropWhile (· == '"')) = _
      rw [(dropWhile_sews left stops).1]
    have short : r.length < 2 ∨ ¬ Closing (a :: (r ++ x)) := by
      by_contra both
      rw [not_or, not_not, Nat.not_lt] at both
      exact closing (List.prefix_of_prefix_length_le both.2 (List.prefix_append (a :: r) x)
        (Nat.succ_le_succ both.1))
    by_cases crossing : Closing (a :: (r ++ x))
    · obtain ⟨q, same⟩ := crossing
      have few := short.resolve_right (not_not.mpr ⟨q, same⟩)
      have lengths := congrArg List.length same
      refine (not_taken h ?_).elim
      have left := dropWhile_length_le (· == '"') q
      rw [List.cons_append, ← same]
      show (q.dropWhile (· == '"')).length < x.length
      simp only [List.length_append, List.length_cons, List.length_nil] at lengths
      omega
    · have open' : ¬ Closing (a :: (r ++ z)) := by
        rintro ⟨q, same⟩
        match r, same with
        | [], same =>
          rw [List.nil_append] at same
          exact apart (congrArg List.head? (List.cons.inj same).2).symm
        | [b], same =>
          rw [List.singleton_append] at same
          exact apart (congrArg List.head? (List.cons.inj (List.cons.inj same).2).2).symm
        | b :: d :: r, same =>
          have same := List.cons.inj same
          have same' := List.cons.inj same.2
          have same'' := List.cons.inj same'.2
          exact closing ⟨r, by rw [← same.1, ← same'.1, ← same''.1]; rfl⟩
      rw [List.cons_append, readRaw_cons crossing] at h
      rw [List.cons_append, readRaw_cons open']
      obtain ⟨rfl, left⟩ := Prod.mk.inj h
      rw [readRaw_sews some apart r (Prod.ext rfl left)]

/-- A literal of one character, with escapes. -/
theorem skipCharacter_cons {a : Char} (plain : a ≠ '\\') (q : List Char) :
    skipCharacter (a :: q) = if a = '\'' then q else skipCharacter q := by
  rw [skipCharacter]
  · rintro rfl
    exact absurd rfl plain
  · rintro c q rfl
    exact absurd rfl plain

theorem skipCharacter_length_lt (a : Char) (q : List Char) :
    (skipCharacter (a :: q)).length < q.length + 1 := by
  have short := skipCharacter_length_le q
  by_cases slash : a = '\\'
  · subst slash
    cases q with
    | nil => exact Nat.zero_lt_one
    | cons c q =>
      have short := skipCharacter_length_le q
      rw [skipCharacter]
      simp only [List.length_cons]
      omega
  · rw [skipCharacter_cons slash]
    split <;> omega

theorem skipCharacter_sews (some : x ≠ []) (z : List Char) : ∀ (r : List Char),
    skipCharacter (r ++ x) = rest ++ x → skipCharacter (r ++ z) = rest ++ z
  | [], h => by
    obtain ⟨a, q, rfl⟩ := List.exists_cons_of_ne_nil some
    exact absurd h (not_append (skipCharacter_length_lt a q))
  | a :: r, h => by
    by_cases slash : a = '\\'
    · subst slash
      cases r with
      | nil =>
        obtain ⟨a, q, rfl⟩ := List.exists_cons_of_ne_nil some
        exact absurd h (not_append (Nat.lt_succ_of_le (skipCharacter_length_le q)))
      | cons c r => exact skipCharacter_sews some z r h
    · rw [List.cons_append, skipCharacter_cons slash] at h ⊢
      split at h
      · rename_i quote
        rw [if_pos quote, List.append_cancel_right h]
      · rename_i other
        rw [if_neg other]
        exact skipCharacter_sews some z r h

theorem skipBlock_length_lt (a : Char) (q : List Char) :
    (skipBlock (a :: q)).length < q.length + 1 := by
  by_cases closes : a = '*' ∧ q.head? = some '/'
  · obtain ⟨rfl, second⟩ := closes
    obtain ⟨q, rfl⟩ := List.head?_eq_some_iff.mp second
    rw [skipBlock, List.length_cons]
    omega
  · rw [skipBlock_cons fun first second => closes ⟨first, second⟩]
    exact Nat.lt_succ_of_le (skipBlock_length_le q)

theorem skipBlock_sews (some : x ≠ []) (apart : z.head? ≠ Option.some '/') :
    ∀ (r : List Char), skipBlock (r ++ x) = rest ++ x → skipBlock (r ++ z) = rest ++ z
  | [], h => by
    obtain ⟨a, q, rfl⟩ := List.exists_cons_of_ne_nil some
    exact absurd h (not_append (skipBlock_length_lt a q))
  | a :: r, h => by
    by_cases closes : a = '*' ∧ (r ++ x).head? = Option.some '/'
    · obtain ⟨rfl, second⟩ := closes
      cases r with
      | nil =>
        obtain ⟨q, rfl⟩ := List.head?_eq_some_iff.mp second
        exact absurd h (not_append (Nat.lt_succ_self q.length))
      | cons d r =>
        obtain rfl : d = '/' := Option.some.inj second
        have same : r ++ x = rest ++ x := h
        show r ++ z = _
        rw [List.append_cancel_right same]
    · have goesOn : a = '*' → (r ++ z).head? ≠ Option.some '/' := by
        intro first second
        cases r with
        | nil => exact apart second
        | cons d r => exact closes ⟨first, second⟩
      rw [List.cons_append, skipBlock_cons fun first second => closes ⟨first, second⟩] at h
      rw [List.cons_append, skipBlock_cons goesOn]
      exact skipBlock_sews some apart r h

/-- A line comment ends with its line, and not with the line of what follows. -/
theorem skipLine_sews (some : x ≠ []) (h : skipLine (r ++ x) = rest ++ x)
    (line : rest = [] → x.head? = Option.some '\n' → z = []) :
    skipLine (r ++ z) = rest ++ z ∧
      (r ++ z).takeWhile (· != '\n') = (r ++ x).takeWhile (· != '\n') := by
  induction r with
  | nil =>
    obtain ⟨a, q, rfl⟩ := List.exists_cons_of_ne_nil some
    obtain ⟨rfl, -⟩ := stays_of_dropWhile h
    by_cases newline : a = '\n'
    · subst newline
      obtain rfl := line rfl rfl
      exact ⟨rfl, rfl⟩
    · refine absurd h (not_append (Nat.lt_succ_of_le ?_))
      rw [List.nil_append, skipLine, List.dropWhile_cons_of_pos (by simpa using newline)]
      exact dropWhile_length_le _ q
  | cons a r ih =>
    rw [skipLine] at h ⊢
    simp only [List.cons_append, List.dropWhile_cons, List.takeWhile_cons] at h ⊢
    split at h
    · rename_i part
      rw [if_pos part, if_pos part, if_pos part, (ih h).2]
      exact ⟨(ih h).1, rfl⟩
    · rename_i no
      have same : a :: r = rest := List.append_cancel_right h
      rw [if_neg no, if_neg no, if_neg no, ← same]
      exact ⟨rfl, rfl⟩

/-- A sign of an exponent comes next. -/
def Signed (hexadecimal : Bool) (a : Char) (q : List Char) : Prop :=
  (a = 'e' ∨ a = 'E') ∧ hexadecimal = false ∧ (q.head? = some '+' ∨ q.head? = some '-')

/-- A number goes on with this character, before what comes next. -/
def IsDigits (a : Char) (q : List Char) : Prop :=
  isAsciiAlphanumeric a = true ∨ a = '_' ∨
    (a = '.' ∧ ∃ d, q.head? = some d ∧ d.isDigit = true)

theorem readNumber_stop {hexadecimal : Bool} {a : Char} {q : List Char} (stops : ¬ IsDigits a q) :
    readNumber hexadecimal (a :: q) = ([], a :: q) := by
  simp only [IsDigits, not_or] at stops
  cases q with
  | nil => simp [readNumber, stops]
  | cons d q => simp_all [readNumber]

theorem readNumber_sign {hexadecimal : Bool} {a d : Char} {q : List Char}
    (signed : Signed hexadecimal a (d :: q)) : readNumber hexadecimal (a :: d :: q) =
      (a :: d :: (readNumber hexadecimal q).1, (readNumber hexadecimal q).2) := by
  obtain ⟨exponent, rfl, sign⟩ := signed
  simp only [List.head?_cons, Option.some.injEq] at sign
  have part : isAsciiAlphanumeric a = true := by
    rcases exponent with rfl | rfl <;> decide
  rw [readNumber]
  simp [part, exponent, sign]

theorem readNumber_on {hexadecimal : Bool} {a : Char} {q : List Char} (on : IsDigits a q)
    (unsigned : ¬ Signed hexadecimal a q) : readNumber hexadecimal (a :: q) =
      (a :: (readNumber hexadecimal q).1, (readNumber hexadecimal q).2) := by
  cases q with
  | nil =>
    have part : isAsciiAlphanumeric a = true ∨ a = '_' := by simpa [IsDigits] using on
    rw [readNumber, readNumber]
    simp [part]
  | cons d q =>
    rw [readNumber]
    by_cases part : isAsciiAlphanumeric a = true ∨ a = '_'
    · have plain : ((a == 'e' || a == 'E') && !hexadecimal && (d == '+' || d == '-')) = false := by
        simpa [Signed, and_assoc, or_imp, not_or] using unsigned
      simp [part, plain]
    · rw [not_or] at part
      simp only [IsDigits, part, false_or, Bool.false_eq_true] at on
      simp_all

theorem readNumber_seamed {hexadecimal : Bool} (seamed : IsSeamed z) :
    readNumber hexadecimal z = ([], z) := by
  cases z with
  | nil => rfl
  | cons c z =>
    have other := (seamed c rfl).other
    apply readNumber_stop
    simp only [IsDigits, other.2.1, Bool.false_eq_true, false_or, not_or, not_and]
    exact ⟨other.2.2 _ (by decide), fun same => absurd same (other.2.2 _ (by decide))⟩

theorem readNumber_none {hexadecimal : Bool} (h : readNumber hexadecimal x = (text, rest ++ x)) :
    text = [] ∧ rest = [] := by
  have whole := readNumber_append hexadecimal x
  rw [h, ← List.append_assoc] at whole
  exact List.append_eq_nil_iff.mp (List.append_left_eq_self.mp whole)

/-- No number goes on past its end, so a point in it has a digit behind it that
belongs to it as well. -/
theorem isDigits_seam {hexadecimal : Bool} {a : Char} (z : List Char) (on : IsDigits a (r ++ x))
    (h : readNumber hexadecimal (r ++ x) = (text, rest ++ x)) :
    IsDigits a (r ++ z) := by
  rcases on with part | underscore | ⟨point, d, next, digit⟩
  · exact .inl part
  · exact .inr (.inl underscore)
  · cases r with
    | cons b r => exact .inr (.inr ⟨point, d, next, digit⟩)
    | nil =>
      obtain ⟨q, rfl⟩ := List.head?_eq_some_iff.mp next
      have on : IsDigits d q := .inl (by rw [isAsciiAlphanumeric, digit, Bool.or_true])
      obtain ⟨rfl, rfl⟩ := readNumber_none h
      by_cases signed : Signed hexadecimal d q
      · obtain ⟨e, sign⟩ : ∃ e, q.head? = some e := by
          rcases signed.2.2 with plus | minus
          · exact ⟨_, plus⟩
          · exact ⟨_, minus⟩
        obtain ⟨q, rfl⟩ := List.head?_eq_some_iff.mp sign
        rw [List.nil_append, readNumber_sign signed] at h
        cases h
      · rw [List.nil_append, readNumber_on on signed] at h
        cases h

theorem readNumber_sews {hexadecimal : Bool} (seamed : IsSeamed z) :
    ∀ (r : List Char) {text : List Char}, readNumber hexadecimal (r ++ x) = (text, rest ++ x) →
      readNumber hexadecimal (r ++ z) = (text, rest ++ z)
  | [], text, h => by
    obtain ⟨rfl, rfl⟩ := readNumber_none h
    exact readNumber_seamed seamed
  | a :: r, text, h => by
    by_cases on : IsDigits a (r ++ x)
    · by_cases signed : Signed hexadecimal a (r ++ x)
      · match r with
        | [] =>
          obtain ⟨d, q, rfl⟩ : ∃ d q, x = d :: q := by
            cases x with
            | nil => simp [Signed] at signed
            | cons d q => exact ⟨d, q, rfl⟩
          have short := readNumber_length_le hexadecimal q
          refine (not_taken h ?_).elim
          rw [List.cons_append, List.nil_append, readNumber_sign signed]
          exact Nat.lt_succ_of_le short
        | d :: r =>
          have signed : Signed hexadecimal a (d :: (r ++ x)) := signed
          have signed' : Signed hexadecimal a (d :: (r ++ z)) := signed
          rw [List.cons_append, List.cons_append, readNumber_sign signed] at h
          rw [List.cons_append, List.cons_append, readNumber_sign signed']
          obtain ⟨rfl, left⟩ := Prod.mk.inj h
          rw [readNumber_sews seamed r (Prod.ext rfl left)]
      · have signed' : ¬ Signed hexadecimal a (r ++ z) := by
          cases r with
          | cons d r => exact signed
          | nil =>
            rintro ⟨-, -, plus | minus⟩
            · exact seamed.head?_ne (fun c seam => seam.other.2.2 _ (by decide)) plus
            · exact seamed.head?_ne (fun c seam => seam.other.2.2 _ (by decide)) minus
        rw [List.cons_append, readNumber_on on signed] at h
        obtain ⟨rfl, left⟩ := Prod.mk.inj h
        have again : readNumber hexadecimal (r ++ x) =
            ((readNumber hexadecimal (r ++ x)).1, rest ++ x) := Prod.ext rfl left
        rw [List.cons_append, readNumber_on (isDigits_seam z on again) signed',
          readNumber_sews seamed r again]
    · have stops : ¬ IsDigits a (r ++ z) := by
        cases r with
        | cons d r => exact on
        | nil =>
          rintro (part | underscore | ⟨-, d, next, digit⟩)
          · exact on (.inl part)
          · exact on (.inr (.inl underscore))
          · have part : isAsciiAlphanumeric d = true := by
              rw [isAsciiAlphanumeric, digit, Bool.or_true]
            rw [(seamed d next).other.2.1] at part
            cases part
      rw [List.cons_append, readNumber_stop on] at h
      rw [List.cons_append, readNumber_stop stops]
      obtain ⟨rfl, left⟩ := Prod.mk.inj h
      have same : a :: r = rest := List.append_cancel_right left
      rw [← same]
      rfl

/-- What is read in front of a text is read in front of a seam and at the end of the text as well. A
comment does not end with the line that follows. -/
def Keeps (f : List Char → Option Piece × List Char) : Prop :=
  ∀ (r x rest z : List Char) (piece? : Option Piece), f (r ++ x) = (piece?, rest ++ x) →
    x ≠ [] → IsSeamed z →
      (rest = [] → x.head? = some '\n' → z = [] ∨ ∃ t, piece? = some (.token t)) →
        f (r ++ z) = (piece?, rest ++ z)

theorem keeps_markPiece (m : Mark) : Keeps (markPiece m) := by
  intro r x rest z piece? h _ _ _
  obtain ⟨rfl, left⟩ := Prod.mk.inj h
  rw [markPiece, List.append_cancel_right left]

theorem keeps_opPiece (a : Char) : Keeps (opPiece a) := by
  intro r x rest z piece? h _ _ _
  obtain ⟨rfl, left⟩ := Prod.mk.inj h
  rw [opPiece, List.append_cancel_right left]

theorem keeps_ahead {g g' : List Char → Option Piece × List Char} {d : Char}
    (other : ∀ c, IsSeam c → c ≠ d) (short : ∀ q, (g q).2.length ≤ q.length)
    (first : Keeps g) (second : Keeps g') : Keeps (ahead d g g') := by
  intro r x rest z piece? h some seamed line
  unfold ahead at h ⊢
  cases r with
  | cons a r =>
    rw [List.cons_append, List.head?_cons, List.tail_cons] at h ⊢
    split at h
    · rename_i there
      rw [if_pos there]
      exact first _ _ _ _ _ h some seamed line
    · rename_i no
      rw [if_neg no]
      exact second (a :: r) x rest z piece? h some seamed line
  | nil =>
    rw [List.nil_append] at h ⊢
    rw [if_neg (seamed.head?_ne other)]
    split at h
    · rename_i near
      obtain ⟨q, rfl⟩ := List.head?_eq_some_iff.mp near
      exact absurd (congrArg Prod.snd h) (not_append (Nat.lt_succ_of_le (short q)))
    · exact second [] x rest z piece? h some seamed line

theorem keeps_skip {skip : List Char → List Char}
    (skips : ∀ {r x rest z : List Char}, x ≠ [] → IsSeamed z →
      (rest = [] → x.head? = some '\n' → z = []) → skip (r ++ x) = rest ++ x →
        skip (r ++ z) = rest ++ z) : Keeps fun r => (none, skip r) := by
  intro r x rest z piece? h some seamed line
  obtain ⟨rfl, left⟩ := Prod.mk.inj h
  refine congrArg (Prod.mk none) (skips some seamed (fun nil newline => ?_) left)
  exact (line nil newline).resolve_right (by rintro ⟨t, ⟨⟩⟩)

theorem keeps_lineComment : Keeps lineComment :=
  keeps_skip fun some _ line h => (skipLine_sews some h line).1

theorem keeps_blockComment : Keeps blockComment :=
  keeps_skip fun some seamed _ h =>
    skipBlock_sews some (seamed.head?_ne fun c seam => seam.other.2.2 _ (by decide)) _ h

theorem keeps_docComment : Keeps docComment := by
  intro r x rest z piece? h some seamed line
  obtain ⟨rfl, left⟩ := Prod.mk.inj h
  have same := skipLine_sews some left fun nil newline =>
    (line nil newline).resolve_right (by rintro ⟨t, ⟨⟩⟩)
  rw [docComment, docLine, docLine, same.1, same.2]

theorem keeps_readSlash : Keeps readSlash := by
  have slash : ∀ c, IsSeam c → c ≠ '/' := fun c seam => seam.other.2.2 _ (by decide)
  have three : ∀ q, (ahead '/' lineComment docComment q).2.length ≤ q.length :=
    ahead_length_le skipLine_length_le skipLine_length_le
  have two : ∀ q,
      (ahead '/' (ahead '/' lineComment docComment) lineComment q).2.length ≤ q.length :=
    ahead_length_le three skipLine_length_le
  rw [readSlash_eq]
  exact keeps_ahead slash two
    (keeps_ahead slash three
      (keeps_ahead slash skipLine_length_le keeps_lineComment keeps_docComment) keeps_lineComment)
    (keeps_ahead (fun c seam => seam.other.2.2 _ (by decide)) skipBlock_length_le keeps_blockComment
      (keeps_opPiece '/'))

theorem keeps_readColon : Keeps readColon := by
  rw [readColon_eq]
  exact keeps_ahead (fun c seam => seam.other.2.2 _ (by decide)) (fun q => Nat.le_refl q.length)
    (keeps_markPiece .doubleColon) (keeps_markPiece .colon)

theorem keeps_readEquals : Keeps readEquals := by
  rw [readEquals_eq]
  exact keeps_ahead (fun c seam => seam.other.2.2 _ (by decide)) (fun q => Nat.le_refl q.length)
    (keeps_markPiece .arrow)
    (keeps_ahead (fun c seam => seam.other.2.2 _ (by decide)) (fun q => Nat.le_refl q.length)
      (keeps_opPiece '=') (keeps_markPiece .equals))

theorem textPiece_sews {read read' : List Char × List Char} {piece? : Option Piece}
    {left : List Char} (h : textPiece read = (piece?, left)) (again : read' = (read.1, rest)) :
    textPiece read' = (piece?, rest) := by
  obtain ⟨rfl, -⟩ := Prod.mk.inj h
  rw [again]
  rfl

theorem keeps_text {read : List Char → List Char × List Char}
    (sews : ∀ {r x rest z text : List Char}, x ≠ [] → IsSeamed z →
      read (r ++ x) = (text, rest ++ x) → read (r ++ z) = (text, rest ++ z)) :
    Keeps fun r => textPiece (read r) := by
  intro r x rest z piece? h some seamed _
  have left : (read (r ++ x)).2 = rest ++ x := congrArg Prod.snd h
  exact textPiece_sews h (sews some seamed (Prod.ext rfl left))

theorem IsSeamed.head?_ne_quote (seamed : IsSeamed z) : z.head? ≠ some '"' :=
  seamed.head?_ne fun c seam => seam.other.2.2 _ (by decide)

theorem keeps_quoted : Keeps fun r => textPiece (readQuoted r) :=
  keeps_text fun some _ h => readQuoted_sews some _ _ h

theorem keeps_verbatim : Keeps fun r => textPiece (readVerbatim r) :=
  keeps_text fun some seamed h => readVerbatim_sews some seamed.head?_ne_quote _ h

theorem keeps_raw : Keeps fun r => textPiece (readRaw r) :=
  keeps_text fun some seamed h => readRaw_sews some seamed.head?_ne_quote _ h

/-- Two quotation marks with no third one behind them. -/
def emptyText (r : List Char) : Option Piece × List Char := textPiece ([], r)

theorem keeps_emptyText : Keeps emptyText :=
  keeps_text fun _ _ h => by
    obtain ⟨rfl, left⟩ := Prod.mk.inj h
    rw [List.append_cancel_right left]

theorem readQuote_eq : readQuote =
    ahead '"' (ahead '"' (fun r => textPiece (readRaw r)) emptyText) fun r =>
      textPiece (readQuoted r) := by
  funext r
  unfold readQuote ahead emptyText
  match r with
  | [] => rfl
  | [a] =>
    by_cases quote : a = '"'
    · subst quote
      rfl
    · simp [quote]
  | a :: b :: r =>
    by_cases quote : a = '"'
    · subst quote
      by_cases quote : b = '"'
      · subst quote
        rfl
      · simp [quote, readQuoted]
    · simp [quote]

theorem keeps_readQuote : Keeps readQuote := by
  have quote : ∀ c, IsSeam c → c ≠ '"' := fun c seam => seam.other.2.2 _ (by decide)
  have raw : ∀ q,
      (ahead '"' (fun r => textPiece (readRaw r)) emptyText q).2.length ≤ q.length :=
    ahead_length_le readRaw_length_le fun q => Nat.le_refl q.length
  rw [readQuote_eq]
  exact keeps_ahead quote raw
    (keeps_ahead quote readRaw_length_le keeps_raw keeps_emptyText) keeps_quoted

/-- Behind a dollar and an at sign. -/
def dollarAt (r : List Char) : Option Piece × List Char := textPiece (readVerbatim r.tail)

theorem dollarAt_length_le (r : List Char) : (dollarAt r).2.length ≤ r.length - 1 := by
  have short := readVerbatim_length_le r.tail
  rwa [List.length_tail] at short

theorem keeps_dollarAt : Keeps dollarAt := by
  intro r x rest z piece? h some seamed line
  cases r with
  | nil =>
    have short := dollarAt_length_le x
    have positive := List.length_pos_of_ne_nil some
    exact absurd (congrArg Prod.snd h) (not_append (Nat.lt_of_le_of_lt short (by omega)))
  | cons a r => exact keeps_verbatim r x rest z piece? h some seamed line

theorem readDollar_eq : readDollar =
    ahead '"' (fun r => textPiece (readQuoted r)) (ahead '@' dollarAt (opPiece '$')) := by
  funext r
  unfold readDollar ahead dollarAt
  split <;> simp_all [List.head?_eq_some_iff]

theorem keeps_readDollar : Keeps readDollar := by
  rw [readDollar_eq]
  exact keeps_ahead (fun c seam => seam.other.2.2 _ (by decide)) readQuoted_length_le keeps_quoted
    (keeps_ahead (fun c seam => seam.other.2.2 _ (by decide))
      (fun q => Nat.le_trans (dollarAt_length_le q) (Nat.sub_le _ _)) keeps_dollarAt
      (keeps_opPiece '$'))

/-- A word that goes on from here, as the token `t` makes of it. -/
theorem keeps_word (t : List Char → Token) :
    Keeps fun r => (some (.token (t (r.takeWhile isWordPart))), r.dropWhile isWordPart) := by
  intro r x rest z piece? h some seamed _
  obtain ⟨rfl, left⟩ := Prod.mk.inj h
  have same := dropWhile_sews left fun c first => (seamed c first).other.1
  dsimp only
  rw [same.1, same.2]

theorem isWordStart_seam (seam : IsSeam c) : isWordStart c = false := by
  rcases seam with rfl | rfl | rfl | rfl <;> decide +kernel

/-- A name behind an at sign, or the at sign alone. -/
def atName (r : List Char) : Option Piece × List Char :=
  match r with
  | [] => opPiece '@' []
  | c :: r =>
    if isWordStart c then
      (some (.token (.ident (String.ofList (c :: r.takeWhile isWordPart)))), r.dropWhile isWordPart)
    else opPiece '@' (c :: r)

theorem atName_seamed (seamed : IsSeamed z) : atName z = opPiece '@' z := by
  cases z with
  | nil => rfl
  | cons c z =>
    rw [atName, isWordStart_seam (seamed c rfl)]
    exact if_neg Bool.false_ne_true

theorem keeps_atName : Keeps atName := by
  intro r x rest z piece? h some seamed line
  cases r with
  | nil =>
    obtain ⟨a, q, rfl⟩ := List.exists_cons_of_ne_nil some
    rw [List.nil_append, atName] at h
    split at h
    · have left := congrArg Prod.snd h
      exact absurd left (not_append (Nat.lt_succ_of_le (dropWhile_length_le isWordPart q)))
    · rw [List.nil_append, atName_seamed seamed]
      exact keeps_opPiece '@' [] _ rest z piece? h some seamed line
  | cons a r =>
    rw [List.cons_append, atName] at h ⊢
    split at h
    · rename_i start
      rw [if_pos start]
      exact keeps_word (fun w => .ident (String.ofList (a :: w))) r x rest z piece? h
        some seamed line
    · rename_i other
      rw [if_neg other]
      exact keeps_opPiece '@' (a :: r) x rest z piece? h some seamed line

theorem readAt_eq : readAt = ahead '"' (fun r => textPiece (readVerbatim r)) atName := by
  funext r
  unfold readAt ahead atName
  cases r with
  | nil => rfl
  | cons a r => simp

theorem keeps_readAt : Keeps readAt := by
  rw [readAt_eq]
  exact keeps_ahead (fun c seam => seam.other.2.2 _ (by decide)) readVerbatim_length_le
    keeps_verbatim keeps_atName

theorem keeps_readWord (a : Char) : Keeps (readWord a) := by
  intro r x rest z piece? h some seamed line
  unfold readWord at h ⊢
  split at h
  · rename_i digit
    rw [if_pos digit]
    obtain ⟨rfl, left⟩ := Prod.mk.inj h
    have again : readNumber (startsHexadecimal a (r ++ x)) (r ++ x) =
        ((readNumber (startsHexadecimal a (r ++ x)) (r ++ x)).1, rest ++ x) := Prod.ext rfl left
    have sewn : readNumber (startsHexadecimal a (r ++ z)) (r ++ z) =
        ((readNumber (startsHexadecimal a (r ++ x)) (r ++ x)).1, rest ++ z) := by
      cases r with
      | nil =>
        obtain ⟨none, rfl⟩ := readNumber_none again
        rw [none]
        exact readNumber_seamed seamed
      | cons b r => exact readNumber_sews seamed (b :: r) again
    rw [sewn]
  · rename_i other
    rw [if_neg other]
    split at h
    · rename_i start
      rw [if_pos start]
      exact keeps_word (fun w => wordToken (a :: w)) r x rest z piece? h some seamed line
    · rename_i none
      rw [if_neg none]
      exact keeps_opPiece a r x rest z piece? h some seamed line

theorem keeps_read (fresh : Bool) (a : Char) : Keeps (read fresh a) := by
  have hash : Keeps fun r => if fresh then (none, skipLine r) else opPiece '#' r := by
    cases fresh with
    | true => exact keeps_lineComment
    | false => exact keeps_opPiece '#'
  have character : Keeps fun r => (some (.token .character), skipCharacter r) := by
    intro r x rest z piece? h some _ _
    obtain ⟨rfl, left⟩ := Prod.mk.inj h
    exact congrArg (Prod.mk _) (skipCharacter_sews some _ r left)
  intro r x rest z piece? h some seamed line
  unfold read at h
  split at h
  case h_24 =>
    have word := keeps_readWord a r x rest z piece? h some seamed line
    unfold read
    split <;> first | exact word | exact absurd rfl (by assumption)
  all_goals first
    | exact keeps_markPiece _ _ _ _ _ _ h some seamed line
    | exact keeps_readColon _ _ _ _ _ h some seamed line
    | exact keeps_readEquals _ _ _ _ _ h some seamed line
    | exact keeps_readSlash _ _ _ _ _ h some seamed line
    | exact keeps_readQuote _ _ _ _ _ h some seamed line
    | exact keeps_readAt _ _ _ _ _ h some seamed line
    | exact keeps_readDollar _ _ _ _ _ h some seamed line
    | exact hash _ _ _ _ _ h some seamed line
    | exact character _ _ _ _ _ h some seamed line

/-- What is read is read the same if the text ends somewhere behind what is taken. -/
theorem read_cut {fresh : Bool} {a : Char} {piece? : Option Piece}
    (h : read fresh a (r ++ x) = (piece?, rest ++ x)) : read fresh a r = (piece?, rest) := by
  cases x with
  | nil => rwa [List.append_nil, List.append_nil] at h
  | cons c x =>
    have kept := keeps_read fresh a r (c :: x) rest [] piece? h (List.cons_ne_nil c x) isSeamed_nil
      fun _ _ => .inl rfl
    rwa [List.append_nil, List.append_nil] at kept

end Lexeme
end Ambient
