import Ambient.Json.Decode
import Ambient.Proofs.Json.Documents

/-!
# What is passed over

A value that nothing uses may be any that JSON has: numbers of every size, strings with halves of a
pair of surrogates, lists and objects at every depth. The reader goes through each of these texts
to its end and meets no fault. A string that is used may be spelled with any escapes, as long as
they are characters.
-/
namespace Ambient.Json

variable {c : Char} {cs r rest : List Char} {index : Nat}

/-- Digits, one of them at least. -/
structure IsDigits (cs : List Char) : Prop where
  some : cs ≠ []
  digits : ∀ c ∈ cs, c.isDigit = true

/-- A zero, or digits that begin with another one. -/
inductive IsWhole : List Char → Prop
  | zero : IsWhole ['0']
  | digits {c : Char} {r : List Char} : c ≠ '0' → IsDigits (c :: r) → IsWhole (c :: r)

inductive IsFraction : List Char → Prop
  | none : IsFraction []
  | point {ds : List Char} : IsDigits ds → IsFraction ('.' :: ds)

inductive IsExponent : List Char → Prop
  | none : IsExponent []
  | power {e : Char} {sign ds : List Char} :
    e = 'e' ∨ e = 'E' → sign ∈ [[], ['+'], ['-']] → IsDigits ds →
      IsExponent (e :: (sign ++ ds))

inductive IsNumber : List Char → Prop
  | plain {w f e : List Char} : IsWhole w → IsFraction f → IsExponent e →
    IsNumber (w ++ (f ++ e))
  | negative {w f e : List Char} :
    IsWhole w → IsFraction f → IsExponent e → IsNumber ('-' :: (w ++ (f ++ e)))

def NoDigit (cs : List Char) : Prop := ∀ c ∈ cs.head?, c.isDigit = false

/-- No number goes on with this text. -/
def Stops (cs : List Char) : Prop :=
  ∀ c ∈ cs.head?, c.isDigit = false ∧ c ≠ '.' ∧ c ≠ 'e' ∧ c ≠ 'E'

theorem Stops.noDigit (stops : Stops cs) : NoDigit cs := fun c hc => (stops c hc).1

theorem stops_cons (plain : c.isDigit = false ∧ c ≠ '.' ∧ c ≠ 'e' ∧ c ≠ 'E') :
    Stops (c :: r) := by
  intro d hd
  obtain rfl : c = d := Option.some.inj hd
  exact plain

theorem noDigit_cons (plain : c.isDigit = false) : NoDigit (c :: r) := by
  intro d hd
  obtain rfl : c = d := Option.some.inj hd
  exact plain

theorem noDigit_exponent {e : List Char} (exponent : IsExponent e) (stops : Stops rest) :
    NoDigit (e ++ rest) := by
  cases exponent with
  | none => exact stops.noDigit
  | power letter _ _ =>
    refine noDigit_cons ?_
    rcases letter with rfl | rfl <;> rfl

theorem noDigit_fraction {f e : List Char} (fraction : IsFraction f) (exponent : IsExponent e)
    (stops : Stops rest) : NoDigit (f ++ (e ++ rest)) := by
  cases fraction with
  | none =>
    rw [List.nil_append]
    exact noDigit_exponent exponent stops
  | point _ => exact noDigit_cons rfl

theorem digitsOf_append {ds : List Char} (digits : ∀ c ∈ ds, c.isDigit = true)
    (plain : NoDigit rest) :
    digitsOf (ds ++ rest) = ds ∧ afterDigits (ds ++ rest) = rest := by
  unfold digitsOf afterDigits
  rw [List.takeWhile_append_of_pos digits, List.dropWhile_append_of_pos digits]
  cases rest with
  | nil => simp
  | cons c r => simp [plain c rfl]

variable {p : NumberParts}

theorem readExponentDigits_digits {ds : List Char} (digits : IsDigits ds) (plain : NoDigit rest)
    (positive : Bool) (index : Nat) :
    ∃ q j, readExponentDigits p positive index (ds ++ rest) = .ok (q, ⟨j, rest⟩) := by
  obtain ⟨c, r, rfl⟩ := List.exists_cons_of_ne_nil digits.some
  have behind := (digitsOf_append digits.digits plain).2
  rw [List.cons_append] at behind ⊢
  rw [readExponentDigits, if_pos (digits.digits c List.mem_cons_self), behind]
  exact ⟨_, _, rfl⟩

theorem readScale_exponent {e : List Char} (exponent : IsExponent e) (stops : Stops rest)
    (index : Nat) :
    ∃ q j, readScale p index (e ++ rest) = .ok (q, ⟨j, rest⟩) := by
  cases exponent with
  | none =>
    cases rest with
    | nil => exact ⟨p, index, rfl⟩
    | cons c r =>
      obtain ⟨-, -, lower, upper⟩ := stops c rfl
      exact ⟨p, index, by simp [readScale, lower, upper]⟩
  | @power e sign ds letter signs digits =>
    rw [List.cons_append, readScale, if_pos letter, List.append_assoc]
    simp only [List.mem_cons, List.not_mem_nil, or_false] at signs
    rcases signs with rfl | rfl | rfl
    · obtain ⟨c, r, rfl⟩ := List.exists_cons_of_ne_nil digits.some
      have first := digits.digits c List.mem_cons_self
      have unsigned : readExponent p (index + 1) (c :: r ++ rest) =
          readExponentDigits p true (index + 1) (c :: r ++ rest) := by
        unfold readExponent
        split
        · rename_i same
          rw [(List.cons.inj same).1] at first
          cases first
        · rename_i same
          rw [(List.cons.inj same).1] at first
          cases first
        · rfl
      rw [List.nil_append, unsigned]
      exact readExponentDigits_digits digits stops.noDigit _ _
    · exact readExponentDigits_digits digits stops.noDigit _ _
    · exact readExponentDigits_digits digits stops.noDigit _ _

theorem readFraction_fraction {f e : List Char} (fraction : IsFraction f) (exponent : IsExponent e)
    (stops : Stops rest) (index : Nat) :
    ∃ q j, readFraction p index (f ++ (e ++ rest)) = .ok (q, ⟨j, rest⟩) := by
  cases fraction with
  | none =>
    have direct : readFraction p index (e ++ rest) = readScale p index (e ++ rest) := by
      unfold readFraction
      split
      · rename_i same
        exfalso
        cases exponent with
        | none =>
          rw [List.nil_append] at same
          exact (stops '.' (by rw [same]; rfl)).2.1 rfl
        | power letter _ _ => rcases letter with rfl | rfl <;> cases (List.cons.inj same).1
      · rfl
    rw [List.nil_append, direct]
    exact readScale_exponent exponent stops index
  | @point ds digits =>
    obtain ⟨own, behind⟩ := digitsOf_append digits.digits (noDigit_exponent exponent stops)
    unfold readFraction
    simp only [List.cons_append, own, digits.some, if_false, behind]
    exact readScale_exponent exponent stops _

theorem readWhole_whole {w f e : List Char} (whole : IsWhole w) (fraction : IsFraction f)
    (exponent : IsExponent e) (stops : Stops rest) (negative : Bool) (index : Nat) :
    ∃ q j, readWhole negative index (w ++ (f ++ (e ++ rest))) = .ok (q, ⟨j, rest⟩) := by
  have plain := noDigit_fraction fraction exponent stops
  cases whole with
  | zero =>
    have read :=
      @readFraction_fraction rest ⟨negative, ['0'], none, none⟩ f e fraction exponent stops
      (index + 1)
    rw [List.singleton_append]
    cases tail : f ++ (e ++ rest) with
    | nil =>
      obtain ⟨-, rfl⟩ := List.append_eq_nil_iff.mp (List.append_eq_nil_iff.mp tail).2
      exact ⟨_, _, rfl⟩
    | cons d r =>
      rw [tail] at plain read
      unfold readWhole
      simp only [if_true, plain d rfl, Bool.false_eq_true, if_false]
      exact read
  | @digits c r other digits =>
    obtain ⟨own, behind⟩ := digitsOf_append digits.digits plain
    rw [List.cons_append] at own behind ⊢
    unfold readWhole
    simp only [other, if_false, digits.digits c List.mem_cons_self, if_true, behind]
    exact readFraction_fraction fraction exponent stops _

/-- The tree of a value that is passed over without a fault. -/
def Node.Passes (n : Node) : Prop := n.pass = .ok ()

theorem readNumber_isNumber (number : IsNumber (c :: r)) (stops : Stops rest) (index : Nat) :
    (readNumber index c (r ++ rest)).Gives Node.Passes rest := by
  unfold readNumber
  generalize same : c :: r = cs at number
  cases number with
  | @negative w f e whole fraction exponent =>
    obtain ⟨rfl, rfl⟩ := List.cons.inj same
    obtain ⟨q, j, read⟩ := readWhole_whole whole fraction exponent stops true (index + 1)
    rw [← List.append_assoc, ← List.append_assoc, List.append_assoc w] at read
    rw [if_pos rfl]
    split
    · rename_i p d found
      rw [read] at found
      obtain ⟨rfl, rfl⟩ := Prod.mk.inj (Except.ok.inj found)
      exact ⟨rfl, j, _, rfl⟩
    · rename_i b found
      rw [read] at found
      cases found
  | @plain w f e whole fraction exponent =>
    obtain ⟨q, j, read⟩ := readWhole_whole whole fraction exponent stops false index
    rw [← List.append_assoc, ← List.append_assoc, List.append_assoc w, ← same] at read
    have unsigned : c ≠ '-' := by
      rintro rfl
      cases whole with
      | zero => cases (List.cons.inj same).1
      | digits _ digits =>
        have first := digits.digits _ List.mem_cons_self
        rw [← (List.cons.inj same).1] at first
        cases first
    rw [if_neg unsigned]
    split
    · rename_i p d found
      rw [List.cons_append] at read
      rw [read] at found
      obtain ⟨rfl, rfl⟩ := Prod.mk.inj (Except.ok.inj found)
      exact ⟨rfl, j, _, rfl⟩
    · rename_i b found
      rw [List.cons_append] at read
      rw [read] at found
      cases found

/-- The text of a string behind its opening quote, with any escapes. -/
inductive IsQuoted : List Char → Prop
  | close : IsQuoted ['"']
  | plain {c : Char} {cs : List Char} :
    c ≠ '"' → c ≠ '\\' → ¬ c.toNat < 0x20 → IsQuoted cs → IsQuoted (c :: cs)
  | simple {e c : Char} {cs : List Char} :
    simpleEscape? e = some c → IsQuoted cs → IsQuoted ('\\' :: e :: cs)
  | code {a b d e : Char} {n : Nat} {cs : List Char} :
    hexCode? a b d e = some n → IsQuoted cs → IsQuoted ('\\' :: 'u' :: a :: b :: d :: e :: cs)

/-- `Quotes s cs`: behind the opening quote, `cs` spells the string of the characters `s`. -/
inductive Quotes : List Char → List Char → Prop
  | close : Quotes [] ['"']
  | plain {c : Char} {s cs : List Char} :
    c ≠ '"' → c ≠ '\\' → ¬ c.toNat < 0x20 → Quotes s cs → Quotes (c :: s) (c :: cs)
  | simple {e c : Char} {s cs : List Char} :
    simpleEscape? e = some c → Quotes s cs → Quotes (c :: s) ('\\' :: e :: cs)
  | code {a b d e : Char} {n : Nat} {s cs : List Char} :
    hexCode? a b d e = some n → isLowSurrogate n = false → isHighSurrogate n = false →
    Quotes s cs → Quotes (Char.ofNat n :: s) ('\\' :: 'u' :: a :: b :: d :: e :: cs)
  | pair {a b d e a' b' d' e' : Char} {high low : Nat} {s cs : List Char} :
    hexCode? a b d e = some high → isHighSurrogate high = true →
    hexCode? a' b' d' e' = some low → isLowSurrogate low = true → Quotes s cs →
    Quotes (Char.ofNat (pairCode high low) :: s)
      ('\\' :: 'u' :: a :: b :: d :: e :: '\\' :: 'u' :: a' :: b' :: d' :: e' :: cs)

theorem not_low_of_high {n : Nat} (high : isHighSurrogate n = true) : isLowSurrogate n = false := by
  simp only [isHighSurrogate, isLowSurrogate, Bool.and_eq_true, decide_eq_true_eq,
    Bool.and_eq_false_iff, decide_eq_false_iff_not] at high ⊢
  omega

theorem secondSurrogate_code {a b d e : Char} {n : Nat} (code : hexCode? a b d e = some n)
    (low : isLowSurrogate n = true) (index : Nat) :
    secondSurrogate index ('\\' :: 'u' :: a :: b :: d :: e :: r) = .ok (some (n, r)) := by
  have whole : readHex (a :: b :: d :: e :: r) = .code n r := by simp only [readHex, code]
  unfold secondSurrogate
  simp only [whole, low, if_true]

/-- A string reads as what it spells. -/
theorem readString_quotes {s : List Char} (quotes : Quotes s cs) (rest : List Char) (index : Nat) :
    (readString index (cs ++ rest)).Gives s rest := by
  induction quotes generalizing index with
  | close =>
    rw [List.singleton_append, readString]
    exact ⟨rfl, index + 1, rfl⟩
  | plain quote slash visible _ ih =>
    rw [List.cons_append, readString_plain quote slash visible]
    exact (ih _).push
  | simple known _ ih => exact readString_simple known ih
  | code code low high _ ih =>
    simp only [List.cons_append]
    rw [readString_code code]
    simp only [low, high, Bool.false_eq_true, if_false]
    exact (ih _).push
  | pair first high second low _ ih =>
    simp only [List.cons_append]
    rw [readString_code first]
    simp only [high, not_low_of_high high, secondSurrogate_code second low,
      Bool.false_eq_true, if_false,
      if_true]
    exact (ih _).push

/-- A second surrogate is an escape of the string. -/
theorem isQuoted_of_secondSurrogate (quoted : IsQuoted cs) {low : Nat} {after : List Char}
    (second : secondSurrogate index (cs ++ rest) = .ok (some (low, after))) :
    ∃ ds, after = ds ++ rest ∧ IsQuoted ds ∧ ds.length < cs.length := by
  cases quoted with
  | close => cases second
  | @plain c cs _ slash _ _ =>
    exfalso
    rw [List.cons_append] at second
    unfold secondSurrogate at second
    split at second
    · cases second
    · exact slash (List.cons.inj ‹_›).1
    · exact slash (List.cons.inj ‹_›).1
    · cases second
    · cases second
  | @simple e c cs known _ =>
    exfalso
    rw [List.cons_append, List.cons_append] at second
    unfold secondSurrogate at second
    split at second
    · cases second
    · cases second
    · rename_i same
      rw [(List.cons.inj (List.cons.inj same).2).1] at known
      cases known
    · cases second
    · cases second
  | @code a b d e n cs code quoted =>
    have whole : readHex (a :: b :: d :: e :: (cs ++ rest)) = .code n (cs ++ rest) := by
      simp only [readHex, code]
    simp only [List.cons_append] at second
    unfold secondSurrogate at second
    simp only [whole] at second
    by_cases isLow : isLowSurrogate n = true
    · rw [if_pos isLow] at second
      obtain ⟨-, rfl⟩ := Prod.mk.inj (Option.some.inj (Except.ok.inj second))
      exact ⟨cs, rfl, quoted, by simp only [List.length_cons]; omega⟩
    · rw [if_neg isLow] at second
      cases second

/-- Every string comes to its end. -/
theorem readString_isQuoted (quoted : IsQuoted cs) (rest : List Char) (index : Nat) :
    (readString index (cs ++ rest)).Ends rest := by
  -- by the length, since two escapes may be read at once
  induction length : cs.length using Nat.strong_induction_on generalizing cs index with
  | _ n ih =>
    subst length
    cases quoted with
    | close =>
      rw [List.singleton_append, readString]
      exact ⟨index + 1, rfl⟩
    | @plain c cs quote slash visible quoted =>
      rw [List.cons_append, readString_plain quote slash visible]
      exact ih cs.length (by simp) quoted _ rfl
    | @simple e c cs known quoted =>
      rw [List.cons_append, List.cons_append, readString_escape known]
      exact ih cs.length (by simp only [List.length_cons] at *; omega) quoted _ rfl
    | @code a b d e n cs code quoted =>
      have next :=
        fun index => ih cs.length (by simp only [List.length_cons] at *; omega) quoted index rfl
      simp only [List.cons_append]
      rw [readString_code code]
      split
      · exact next _
      · split
        · split
          · exact next _
          · exact next _
          · rename_i second
            obtain ⟨ds, rfl, quoted, shorter⟩ := isQuoted_of_secondSurrogate quoted second
            exact ih ds.length (by simp only [List.length_cons] at *; omega) quoted _ rfl
        · exact next _

/-- A character that a string holds as it is. -/
def isPlain (c : Char) : Bool := c ≠ '"' && c ≠ '\\' && 0x20 ≤ c.toNat

theorem quotes_of_plain {s : List Char} (plain : s.all isPlain = true) : Quotes s (s ++ ['"']) := by
  induction s with
  | nil => exact .close
  | cons c s ih =>
    rw [List.all_cons, Bool.and_eq_true] at plain
    obtain ⟨first, others⟩ := plain
    simp only [isPlain, Bool.and_eq_true, decide_eq_true_eq] at first
    obtain ⟨⟨quote, slash⟩, visible⟩ := first
    exact .plain quote slash (Nat.not_lt.mpr visible) (ih others)

mutual
/-- The texts that are values. -/
inductive IsValue : List Char → Prop
  | null : IsValue ['n', 'u', 'l', 'l']
  | bool (b : Bool) : IsValue (Value.boolText b).toList
  | number {cs : List Char} : IsNumber cs → IsValue cs
  | text {cs : List Char} : IsQuoted cs → IsValue ('"' :: cs)
  | array {cs : List Char} : IsItems true cs → IsValue ('[' :: cs)
  | object {cs : List Char} : IsFields true cs → IsValue ('\x7b' :: cs)

/-- The items of a list and the bracket after them; the flag says whether none has been before. -/
inductive IsItems : Bool → List Char → Prop
  | nil {first : Bool} {front : List Char} : Blank front → IsItems first (front ++ [']'])
  | cons {first : Bool} {lead cs more : List Char} :
    Lead first lead → IsValue cs → IsItems false more → IsItems first (lead ++ (cs ++ more))

inductive IsFields : Bool → List Char → Prop
  | nil {first : Bool} {front : List Char} : Blank front → IsFields first (front ++ ['\x7d'])
  | cons {first : Bool} {lead key front back cs more : List Char} :
    Lead first lead → IsQuoted key → Blank front → Blank back → IsValue cs →
      IsFields false more →
    IsFields first (lead ++ '"' :: (key ++ (front ++ ':' :: (back ++ (cs ++ more)))))
end

theorem stops_of_blank {front : List Char} (blank : Blank front) (stops : Stops rest) :
    Stops (front ++ rest) := by
  cases front with
  | nil => exact stops
  | cons c r =>
    refine stops_cons ?_
    have space := blank c List.mem_cons_self
    simp only [isSpace, Bool.or_eq_true, beq_iff_eq] at space
    rcases space with ((rfl | rfl) | rfl) | rfl <;> decide

theorem stops_of_lead {lead : List Char} (leads : Lead false lead) (rest : List Char) :
    Stops (lead ++ rest) := by
  cases leads with
  | later before _ =>
    rw [List.append_assoc]
    exact stops_of_blank before (stops_cons (by decide))

theorem IsItems.stops (items : IsItems false cs) (rest : List Char) : Stops (cs ++ rest) := by
  cases items with
  | nil blank =>
    rw [List.append_assoc]
    exact stops_of_blank blank (stops_cons (by decide))
  | cons leads _ _ =>
    rw [List.append_assoc]
    exact stops_of_lead leads _

theorem IsFields.stops (fields : IsFields false cs) (rest : List Char) : Stops (cs ++ rest) := by
  cases fields with
  | nil blank =>
    rw [List.append_assoc]
    exact stops_of_blank blank (stops_cons (by decide))
  | cons leads _ _ _ _ _ =>
    rw [List.append_assoc]
    exact stops_of_lead leads _

theorem IsNumber.exists_head (number : IsNumber cs) :
    ∃ c r, cs = c :: r ∧ (c = '-' ∨ c.isDigit = true) := by
  have head {w f e : List Char} (whole : IsWhole w) :
      ∃ c r, w ++ (f ++ e) = c :: r ∧ c.isDigit = true := by
    cases whole with
    | zero => exact ⟨'0', _, rfl, rfl⟩
    | digits _ digits => exact ⟨_, _, rfl, digits.digits _ List.mem_cons_self⟩
  cases number with
  | plain whole _ _ =>
    obtain ⟨c, r, same, digit⟩ := head whole
    exact ⟨c, r, same, .inr digit⟩
  | negative _ _ _ => exact ⟨'-', _, rfl, .inl rfl⟩

theorem number_head (first : c = '-' ∨ c.isDigit = true) :
    isSpace c = false ∧ c ≠ ']' ∧ c ≠ 'n' ∧ c ≠ 't' ∧ c ≠ 'f' := by
  have apart (d : Char) (other : d ≠ '-') (plain : d.isDigit = false) : c ≠ d := by
    rintro rfl
    rw [plain] at first
    exact first.elim other Bool.false_ne_true
  refine ⟨?_, apart ']' (by decide) rfl, apart 'n' (by decide) rfl, apart 't' (by decide) rfl,
    apart 'f' (by decide) rfl⟩
  simp only [isSpace, Bool.or_eq_false_iff, beq_eq_false_iff_ne]
  exact ⟨⟨⟨apart ' ' (by decide) rfl, apart '\n' (by decide) rfl⟩,
    apart '\t' (by decide) rfl⟩, apart '\r' (by decide) rfl⟩

/-- The first character of a value opens no white space and closes no list. -/
theorem IsValue.exists_head (value : IsValue cs) :
    ∃ c r, cs = c :: r ∧ isSpace c = false ∧ c ≠ ']' := by
  cases value with
  | null => exact ⟨'n', _, rfl, rfl, by decide⟩
  | bool b => cases b <;> exact ⟨_, _, rfl, rfl, by decide⟩
  | number number =>
    obtain ⟨c, r, rfl, first⟩ := number.exists_head
    obtain ⟨solid, other, -⟩ := number_head first
    exact ⟨c, r, rfl, solid, other⟩
  | text _ => exact ⟨'"', _, rfl, rfl, by decide⟩
  | array _ => exact ⟨'[', _, rfl, rfl, by decide⟩
  | object _ => exact ⟨'\x7b', _, rfl, rfl, by decide⟩

/-- One entry of an object, with the entries behind it. -/
theorem readFields_entry {first : Bool} {lead key front back more : List Char} {P : Node → Prop}
    {Q : Except Fault String → Prop} (leads : Lead first lead) (before : Blank front)
    (name : ∀ behind i, (readString i (key ++ behind)).Ends behind ∧
      Q ((readString i (key ++ behind)).text.map String.ofList))
    (value : ∀ k, (readValue k (back ++ (cs ++ (more ++ rest)))).Gives P (more ++ rest))
    (index : Nat) :
    ∃ text next node l, Q text ∧ P node ∧
      (readFields first index
        (lead ++ '"' :: (key ++ (front ++ ':' :: (back ++ (cs ++ more)))) ++ rest)).Continues
        [⟨text, next, node⟩] (readFields false l (more ++ rest)) := by
  have whole : lead ++ '"' :: (key ++ (front ++ ':' :: (back ++ (cs ++ more)))) ++ rest =
      lead ++ '"' :: (key ++ (front ++ ':' :: (back ++ (cs ++ (more ++ rest))))) := by simp
  rw [whole]
  exact readFields_field leads before (name _) value index

mutual
/-- Every value is passed over. -/
theorem readValue_isValue {cs : List Char} (value : IsValue cs) {front : List Char}
    (blank : Blank front) {rest : List Char} (stops : Stops rest) (index : Nat) :
    (readValue index (front ++ (cs ++ rest))).Gives Node.Passes rest := by
  cases value with
  | null =>
    refine (readValue_spells .null blank rest index).imp fun n shows => ?_
    obtain ⟨i, j, rfl⟩ := shows_null shows
    rfl
  | bool b =>
    refine (readValue_spells (.bool b) blank rest index).imp fun n shows => ?_
    obtain ⟨i, j, rfl⟩ := shows_bool shows
    rfl
  | number number =>
    obtain ⟨c, r, rfl, first⟩ := number.exists_head
    obtain ⟨solid, -, notN, notT, notF⟩ := number_head first
    obtain ⟨start, hs, skipped⟩ := skipBlanks_append blank solid index (r ++ rest)
    rw [List.cons_append, readValue, skipped]
    simp only [notN, notT, notF, if_false, first, if_true]
    exact (readNumber_isNumber number stops start).widen hs
  | @text cs quoted =>
    obtain ⟨start, hs, skipped⟩ := skipBlanks_append blank (c := '"') rfl index (cs ++ rest)
    rw [List.cons_append, readValue, skipped]
    refine ((readText_of_ends (readString_isQuoted quoted rest (start + 1))).imp fun n tree =>
      ?_).widen hs
    obtain ⟨i, j, rfl⟩ := tree
    rfl
  | @array cs items =>
    obtain ⟨start, hs, skipped⟩ := skipBlanks_append blank (c := '[') rfl index (cs ++ rest)
    have inner := readItems_isItems items rest (start + 1)
    obtain ⟨_, next⟩ := inner.widen (Nat.le_of_lt hs)
    obtain ⟨passed, stop, closed⟩ := inner.1
    rw [List.cons_append, readValue, skipped]
    refine ⟨?_, next⟩
    simp [Node.Passes, Node.pass, passed, closed, Ending.passed, Except.bind]
  | @object cs fields =>
    obtain ⟨start, hs, skipped⟩ := skipBlanks_append blank (c := '\x7b') rfl index (cs ++ rest)
    have inner := readFields_isFields fields rest (start + 1)
    obtain ⟨_, next⟩ := inner.widen (Nat.le_of_lt hs)
    obtain ⟨passed, stop, closed⟩ := inner.1
    rw [List.cons_append, readValue, skipped]
    refine ⟨?_, next⟩
    simp [Node.Passes, Node.pass, passed, closed, Ending.passed, Except.bind]
termination_by 2 * cs.length
decreasing_by all_goals (simp only [List.length_cons]; omega)

theorem readItems_isItems {first : Bool} {cs : List Char} (items : IsItems first cs)
    (rest : List Char) (index : Nat) : (readItems first index (cs ++ rest)).Gives
      (fun r => Node.passItems r.items = .ok () ∧ ∃ stop, r.ending = .closed stop) rest := by
  cases items with
  | @nil _ front blank =>
    obtain ⟨j, h, turn⟩ := nextItem_end blank first index rest
    rw [List.append_assoc, List.singleton_append, readItems, turn]
    exact ⟨⟨rfl, j, rfl⟩, j, h, rfl⟩
  | @cons _ lead cs more leads value others =>
    obtain ⟨c, r, spelled, solid, notEnd⟩ := value.exists_head
    have filled : 0 < cs.length := by simp [spelled]
    have turn : ∃ j h, nextItem first index (lead ++ (cs ++ (more ++ rest))) =
        .entry ⟨j, cs ++ (more ++ rest)⟩ h := by
      rw [spelled, List.cons_append]
      exact nextItem_entry leads solid notEnd index _
    obtain ⟨j, h, turn⟩ := turn
    have here : (readValue j (cs ++ (more ++ rest))).Gives Node.Passes (more ++ rest) :=
      readValue_isValue value .nil (others.stops rest) j
    obtain ⟨node, k, hk, passes, read⟩ := here.eq
    obtain ⟨⟨passed, closed⟩, next⟩ := (readItems_isItems others rest k).widen
      (show _ ≤ (lead ++ (cs ++ (more ++ rest))).length by
        dsimp only at hk h
        omega)
    rw [List.append_assoc, List.append_assoc, readItems, turn]
    simp only [read]
    refine ⟨⟨?_, closed⟩, next⟩
    rw [Node.passItems, passes, Except.bind]
    exact passed
termination_by 2 * cs.length + 1
decreasing_by all_goals (simp only [List.length_append]; omega)

theorem readFields_isFields {first : Bool} {cs : List Char} (fields : IsFields first cs)
    (rest : List Char) (index : Nat) : (readFields first index (cs ++ rest)).Gives
      (fun r => Node.passFields r.fields = .ok () ∧ ∃ stop, r.ending = .closed stop) rest := by
  cases fields with
  | @nil _ front blank =>
    rw [List.append_assoc, List.singleton_append]
    refine (readFields_close blank first index rest).imp fun v closed => ?_
    obtain ⟨stop, rfl⟩ := closed
    exact ⟨rfl, stop, rfl⟩
  | @cons _ lead key front back cs more leads quoted before after value others =>
    obtain ⟨text, next, node, l, -, passes, continues⟩ :=
      readFields_entry (Q := fun _ => True) leads before
        (fun _ i => ⟨readString_isQuoted quoted _ i, trivial⟩)
        (readValue_isValue value after (others.stops rest)) index
    obtain ⟨⟨w, ⟨passed, closed⟩, read⟩, follows⟩ :=
      continues.gives (readFields_isFields others rest l)
    refine ⟨?_, follows⟩
    rw [read]
    refine ⟨?_, closed⟩
    rw [List.singleton_append, Node.passFields, passes, Except.bind, passed]
termination_by 2 * cs.length + 1
decreasing_by all_goals (simp only [List.length_append, List.length_cons]; omega)
end

/-- The texts of a boolean, and of a string with any escapes. -/
inductive SpellsScalar : Value → List Char → Prop
  | bool (b : Bool) : SpellsScalar (.bool b) (Value.boolText b).toList
  | text {s : String} {cs : List Char} : Quotes s.toList cs → SpellsScalar (.text s) ('"' :: cs)

theorem readValue_spellsScalar {v : Value} (spells : SpellsScalar v cs) {front : List Char}
    (blank : Blank front) (rest : List Char) (index : Nat) :
    (readValue index (front ++ (cs ++ rest))).Gives (Shows v) rest := by
  cases spells with
  | bool b => exact readValue_spells (.bool b) blank rest index
  | @text s cs quotes =>
    obtain ⟨start, hs, skipped⟩ := skipBlanks_append blank (c := '"') rfl index (cs ++ rest)
    rw [List.cons_append, readValue, skipped]
    exact (readText_of_gives (readString_quotes quotes rest (start + 1))).widen hs

theorem readKey_quotes {s : String} (quotes : Quotes s.toList cs) (rest : List Char) (index : Nat) :
    (readString index (cs ++ rest)).Ends rest ∧
      (readString index (cs ++ rest)).text.map String.ofList = .ok s := by
  have read := readString_quotes quotes rest index
  refine ⟨read.ends, ?_⟩
  rw [read.1, Except.map, String.ofList_toList]

/-- After its brace, an object is read as its fields are. -/
theorem readValue_object {front : List Char} (blank : Blank front) (r : List Char) (index : Nat) :
    ∃ start, (readValue index (front ++ '\x7b' :: r)).value =
        .object start (readFields true (start + 1) r).value.fields
          (readFields true (start + 1) r).value.ending ∧
      (readValue index (front ++ '\x7b' :: r)).next.map Subtype.val =
        (readFields true (start + 1) r).next.map Subtype.val := by
  obtain ⟨start, hs, skipped⟩ := skipBlanks_append blank (c := '\x7b') rfl index r
  refine ⟨start, ?_⟩
  rw [readValue, skipped]
  refine ⟨rfl, ?_⟩
  simp [Reading.widen, Option.map_map, Function.comp_def]

theorem decodeText_of_error {α : Type} {decoder : Node → Decoded α} {text : String}
    {fault : Fault} (failed : decoder (readValue 0 text.toList).value = .error fault) :
    decodeText decoder text = .error fault := by
  have value : (Document.read text).value = (readValue 0 text.toList).value := by
    unfold Document.read
    split
    · rename_i same
      rw [same]
    · rename_i same
      rw [same]
      split <;> rfl
  rw [decodeText]
  simp only [value, failed, Except.bind]

theorem decodeText_of_gives {α : Type} {decoder : Node → Decoded α} {text : String} {x : α}
    {back : List Char} (gives : (readValue 0 text.toList).Gives (fun n => decoder n = .ok x) back)
    (blank : Blank back) : decodeText decoder text = .ok x := by
  obtain ⟨node, decoded, document⟩ := Document.exists_read_eq gives blank
  rw [decodeText, document]
  simp only [decoded, Except.bind]

end Ambient.Json
