import Ambient.Proofs.Source.Locality
import Ambient.Proofs.Source.Names
import Mathlib.Data.List.Chain

/-!
# The grammar of types

A type is a core with suffixes behind it. The core is a tuple, or a name whose segments may
have type arguments:

    Type = Core Suffix*
    Core = "(" Element ("," Element)* ")" | Name
    Element = Type Ident?
    Name = Id Arguments? (("." Ident | "::" Id) Arguments?)*
    Arguments = "<" Type ("," Type)* ">"
    Suffix = "?" | "[" ","* "]" | "*"

where no question mark follows another, stars apart. What the reader takes is a phrase
of this grammar.
-/
namespace Ambient

namespace Token

/-- Identifiers, and the keywords that are names wherever they do not begin something else. -/
inductive IsId : Token → Prop
  | ident (name : String) : IsId (.ident name)
  | keyword {k : Keyword} :
    k ∈ [Keyword.recordKw, .whereKw, .partialKw, .requiredKw, .implicitKw, .explicitKw] →
    IsId (.keyword k)

theorem isId_iff {t : Token} : t.IsId ↔ ∃ name, nameOf? t = some name := by
  constructor
  · intro h
    cases h with
    | ident name => exact ⟨name, rfl⟩
    | keyword contextual =>
      simp only [List.mem_cons, List.not_mem_nil, or_false] at contextual
      rcases contextual with rfl | rfl | rfl | rfl | rfl | rfl <;> exact ⟨_, rfl⟩
  · rintro ⟨name, named⟩
    cases t with
    | ident n => exact .ident n
    | keyword k => cases k <;> first | exact .keyword (by decide) | cases named
    | _ => cases named

theorem IsId.isPlain {t : Token} (h : t.IsId) : t.IsPlain := by
  cases h <;> trivial

end Token

namespace TypeSyntax

/-- What may stand behind the core of a type. -/
inductive Suffix where
  | question
  | rank (commas : Nat)
  | star
  deriving DecidableEq

namespace Suffix

def tokens : Suffix → List Token
  | question => [.mark .question]
  | rank commas =>
    .mark .openBracket :: (List.replicate commas (.mark .comma) ++ [.mark .closeBracket])
  | star => [.mark .star]

/-- The suffixes may stand together: the last one before a question mark, stars apart, is
no question mark. -/
def Admitted (suffixes : List Suffix) : Prop :=
  (suffixes.filter (· ≠ star)).IsChain fun before s => ¬ (before = question ∧ s = question)

instance (suffixes : List Suffix) : Decidable (Admitted suffixes) :=
  inferInstanceAs (Decidable (List.IsChain _ _))

end Suffix

/-- The sorts of phrases in a type. -/
inductive Phrase where
  | type | core | elements | element | name | segments | arguments? | types

/-- The tokens are a phrase of the grammar. -/
inductive Derives : Phrase → List Token → Prop
  | type {core : List Token} {suffixes : List Suffix} : Derives .core core →
    Suffix.Admitted suffixes → Derives .type (core ++ suffixes.flatMap Suffix.tokens)
  | tuple {elements : List Token} : Derives .elements elements →
    Derives .core (.mark .openParen :: (elements ++ [.mark .closeParen]))
  | plain {name : List Token} : Derives .name name → Derives .core name
  | lastElement {element : List Token} : Derives .element element → Derives .elements element
  | moreElements {element others : List Token} : Derives .element element →
    Derives .elements others → Derives .elements (element ++ .mark .comma :: others)
  | unnamed {type : List Token} : Derives .type type → Derives .element type
  | named {type : List Token} (name : String) : Derives .type type →
    Derives .element (type ++ [.ident name])
  | name {id : Token} {args more : List Token} : id.IsId → Derives .arguments? args →
    Derives .segments more → Derives .name (id :: (args ++ more))
  | lastSegment : Derives .segments []
  | dot {args more : List Token} (name : String) : Derives .arguments? args →
    Derives .segments more → Derives .segments (.mark .dot :: .ident name :: (args ++ more))
  | double {id : Token} {args more : List Token} : id.IsId → Derives .arguments? args →
    Derives .segments more → Derives .segments (.mark .doubleColon :: id :: (args ++ more))
  | noArguments : Derives .arguments? []
  | arguments {types : List Token} : Derives .types types →
    Derives .arguments? (.mark .openAngle :: (types ++ [.mark .closeAngle]))
  | lastType {type : List Token} : Derives .type type → Derives .types type
  | moreTypes {type others : List Token} : Derives .type type → Derives .types others →
    Derives .types (type ++ .mark .comma :: others)

/-- The items of `ts` before `rest` are a phrase. -/
def Consumes (p : Phrase) (ts rest : List Item) : Prop :=
  ∃ taken, ts = taken ++ rest ∧ Derives p (taken.map (·.token))

/-- In front of the suffixes of `core` stands the question mark that made it what
it is, if one did. -/
def Suffix.last (core : TypeSyntax) : List Suffix := if core.isNullable then [.question] else []

/-- The items of `ts` before `rest` are suffixes that may stand behind `core`. -/
def ConsumesSuffixes (core : TypeSyntax) (ts rest : List Item) : Prop :=
  ∃ taken suffixes, ts = taken ++ rest ∧
    taken.map (·.token) = suffixes.flatMap Suffix.tokens ∧
    Suffix.Admitted (Suffix.last core ++ suffixes)

namespace Suffix
variable {core : TypeSyntax} {suffixes : List Suffix}

theorem admitted_last : Admitted (last core ++ []) := by
  unfold last
  split <;> decide

theorem last_of_single (single : core.isNullable = false) : last core = [] := by
  rw [last, single]
  rfl

theorem admitted_question (single : core.isNullable = false) :
    Admitted (last core ++ question :: suffixes) ↔
      Admitted (last (nullable core) ++ suffixes) := by
  rw [last_of_single single]
  rfl

theorem admitted_star : Admitted (last core ++ star :: suffixes) ↔
    Admitted (last core ++ suffixes) := by
  simp [Admitted]

theorem admitted_rank {commas : Nat} :
    Admitted (last core ++ rank commas :: suffixes) ↔
      Admitted (last (array core) ++ suffixes) := by
  have behind : ∀ front : List Suffix, front = [] ∨ front = [.question] →
      (Admitted (front ++ rank commas :: suffixes) ↔ Admitted suffixes) := by
    rintro front (rfl | rfl) <;> simp [Admitted, List.isChain_cons]
  refine behind (last core) ?_
  unfold last
  split
  · exact .inr rfl
  · exact .inl rfl

end Suffix

namespace ConsumesSuffixes
variable {core : TypeSyntax} {ts rest : List Item} {t : Item}

theorem none (core : TypeSyntax) (ts : List Item) : ConsumesSuffixes core ts ts :=
  ⟨[], [], rfl, rfl, Suffix.admitted_last⟩

theorem question (marked : t.token = .mark .question) (single : core.isNullable = false)
    (h : ConsumesSuffixes (nullable core) ts rest) : ConsumesSuffixes core (t :: ts) rest := by
  obtain ⟨taken, suffixes, rfl, spelled, admitted⟩ := h
  refine ⟨t :: taken, .question :: suffixes, rfl, ?_,
    (Suffix.admitted_question single).mpr admitted⟩
  rw [List.map_cons, marked, spelled]
  rfl

theorem star (marked : t.token = .mark .star) (h : ConsumesSuffixes core ts rest) :
    ConsumesSuffixes core (t :: ts) rest := by
  obtain ⟨taken, suffixes, rfl, spelled, admitted⟩ := h
  refine ⟨t :: taken, .star :: suffixes, rfl, ?_, Suffix.admitted_star.mpr admitted⟩
  rw [List.map_cons, marked, spelled]
  rfl

theorem rank {u : Item} {us : List Item} (opens : t.token = .mark .openBracket)
    (behind : dropCommas ts = u :: us) (closes : u.token = .mark .closeBracket)
    (h : ConsumesSuffixes (array core) us rest) : ConsumesSuffixes core (t :: ts) rest := by
  obtain ⟨taken, suffixes, rfl, spelled, admitted⟩ := h
  let commas := ts.takeWhile (·.token == .mark .comma)
  have whole : ts = commas ++ u :: (taken ++ rest) := by
    rw [← behind]
    exact List.takeWhile_append_dropWhile.symm
  have all : commas.map (·.token) = List.replicate commas.length (.mark .comma) := by
    rw [List.map_eq_replicate_iff]
    intro i hi
    simpa using List.all_eq_true.mp List.all_takeWhile i hi
  refine ⟨t :: (commas ++ u :: taken), .rank commas.length :: suffixes, ?_, ?_,
    Suffix.admitted_rank.mpr admitted⟩
  · rw [whole]
    simp
  · simp [opens, all, closes, spelled, Suffix.tokens]

end ConsumesSuffixes

namespace Consumes
variable {ts us vs rest : List Item} {t u : Item}

theorem type {core : TypeSyntax} (single : core.isNullable = false) (h : Consumes .core ts us)
    (suffixes : ConsumesSuffixes core us rest) : Consumes .type ts rest := by
  obtain ⟨front, rfl, derives⟩ := h
  obtain ⟨taken, suffixes, rfl, spelled, admitted⟩ := suffixes
  rw [Suffix.last_of_single single] at admitted
  refine ⟨front ++ taken, (List.append_assoc front taken rest).symm, ?_⟩
  rw [List.map_append, spelled]
  exact .type derives admitted

theorem tuple (opens : t.token = .mark .openParen) (h : Consumes .elements ts (u :: rest))
    (closes : u.token = .mark .closeParen) : Consumes .core (t :: ts) rest := by
  obtain ⟨taken, rfl, elements⟩ := h
  refine ⟨t :: (taken ++ [u]), by simp, ?_⟩
  simpa [opens, closes] using Derives.tuple elements

theorem plain (h : Consumes .name ts rest) : Consumes .core ts rest := by
  obtain ⟨taken, rfl, name⟩ := h
  exact ⟨taken, rfl, .plain name⟩

theorem lastElement (h : Consumes .element ts rest) : Consumes .elements ts rest := by
  obtain ⟨taken, rfl, element⟩ := h
  exact ⟨taken, rfl, .lastElement element⟩

theorem moreElements (h : Consumes .element ts (t :: us)) (comma : t.token = .mark .comma)
    (others : Consumes .elements us rest) : Consumes .elements ts rest := by
  obtain ⟨front, rfl, element⟩ := h
  obtain ⟨taken, rfl, elements⟩ := others
  refine ⟨front ++ t :: taken, by simp, ?_⟩
  simpa [comma] using Derives.moreElements element elements

/-- The name of an element goes with its type. -/
theorem element (h : Consumes .type ts us) : Consumes .element ts (dropElementName us) := by
  obtain ⟨taken, rfl, type⟩ := h
  unfold dropElementName
  split
  · rename_i name found
    cases us with
    | nil => cases found
    | cons i r =>
      have token : i.token = .ident name := Option.some.inj found
      refine ⟨taken ++ [i], by simp, ?_⟩
      simpa [token] using Derives.named name type
  · exact ⟨taken, rfl, .unnamed type⟩

theorem lastType (h : Consumes .type ts rest) : Consumes .types ts rest := by
  obtain ⟨taken, rfl, type⟩ := h
  exact ⟨taken, rfl, .lastType type⟩

theorem moreTypes (h : Consumes .type ts (t :: us)) (comma : t.token = .mark .comma)
    (others : Consumes .types us rest) : Consumes .types ts rest := by
  obtain ⟨front, rfl, type⟩ := h
  obtain ⟨taken, rfl, types⟩ := others
  refine ⟨front ++ t :: taken, by simp, ?_⟩
  simpa [comma] using Derives.moreTypes type types

theorem arguments (opens : t.token = .mark .openAngle) (h : Consumes .types ts (u :: rest))
    (closes : u.token = .mark .closeAngle) : Consumes .arguments? (t :: ts) rest := by
  obtain ⟨taken, rfl, types⟩ := h
  refine ⟨t :: (taken ++ [u]), by simp, ?_⟩
  simpa [opens, closes] using Derives.arguments types

theorem noArguments (ts : List Item) : Consumes .arguments? ts ts := ⟨[], rfl, .noArguments⟩

theorem lastSegment (ts : List Item) : Consumes .segments ts ts := ⟨[], rfl, .lastSegment⟩

theorem name (named : t.token.IsId) (args : Consumes .arguments? ts us)
    (more : Consumes .segments us rest) : Consumes .name (t :: ts) rest := by
  obtain ⟨front, rfl, args⟩ := args
  obtain ⟨taken, rfl, more⟩ := more
  refine ⟨t :: (front ++ taken), by simp, ?_⟩
  simpa using Derives.name named args more

theorem dot {name : String} (marked : t.token = .mark .dot) (named : u.token = .ident name)
    (args : Consumes .arguments? ts us) (more : Consumes .segments us rest) :
    Consumes .segments (t :: u :: ts) rest := by
  obtain ⟨front, rfl, args⟩ := args
  obtain ⟨taken, rfl, more⟩ := more
  refine ⟨t :: u :: (front ++ taken), by simp, ?_⟩
  simpa [marked, named] using Derives.dot name args more

theorem double (marked : t.token = .mark .doubleColon) (named : u.token.IsId)
    (args : Consumes .arguments? ts us) (more : Consumes .segments us rest) :
    Consumes .segments (t :: u :: ts) rest := by
  obtain ⟨front, rfl, args⟩ := args
  obtain ⟨taken, rfl, more⟩ := more
  refine ⟨t :: u :: (front ++ taken), by simp, ?_⟩
  simpa [marked] using Derives.double named args more

end Consumes

theorem consumes_readSuffixes {core : TypeSyntax} {ts : List Item} {l : Left TypeSyntax ts}
    (h : readSuffixes core ts = .ok l) : ConsumesSuffixes core ts l.rest := by
  fun_induction readSuffixes core ts with
  | case1 core => cases h; exact .none core []
  | case2 core t r => cases h; exact .none core (t :: r)
  | case3 core t r question single ih =>
    obtain ⟨inner, read, rfl⟩ := map_eq_ok h
    exact .question question (eq_false_of_ne_true single) (ih read)
  | case4 core t r star ih =>
    obtain ⟨inner, read, rfl⟩ := map_eq_ok h
    exact .star star (ih read)
  | case5 => cases h
  | case6 core t r bracket _ _ after short closes _ ih =>
    obtain ⟨inner, read, rfl⟩ := map_eq_ok h
    obtain ⟨u, behind, closing⟩ := exists_of_readMark closes
    exact .rank bracket behind closing (ih read)
  | case7 core t r => cases h; exact .none core (t :: r)
  | case8 core t r => cases h; exact .none core (t :: r)

theorem single_of_readSegments {name : String} {args : List TypeSyntax} {ts : List Item}
    {l : Left TypeSyntax ts} (h : readSegments name args ts = .ok l) :
    l.value.isNullable = false := by
  rw [readSegments] at h
  split at h
  · cases h
  · rename_i args' after short read
    split at h
    · obtain ⟨m, more, rfl⟩ := map_eq_ok h
      have single := single_of_readSegments more
      exact single
    · split at h
      · have short' := short_tail after
        split at h
        · cases h
        · obtain ⟨m, more, rfl⟩ := map_eq_ok h
          have single := single_of_readSegments more
          exact single
      · cases h
        rfl
termination_by ts.length
decreasing_by all_goals omega

theorem single_of_readNamed {ts : List Item} {s : Step TypeSyntax ts} (h : readNamed ts = .ok s) :
    s.value.isNullable = false := by
  rw [readNamed] at h
  split at h
  · cases h
  · obtain ⟨l, segments, rfl⟩ := map_eq_ok h
    exact single_of_readSegments segments

/-- The phrase of a list is made from the phrases of its types, whatever these are. -/
theorem ListForm.ReadBy.consumes {f : ListForm}
    {more : (us : List Item) → Read (Step (List TypeSyntax) us)} {ts : List Item}
    (reads : f.ReadBy more) {listed : Phrase}
    (last : ∀ s : Step TypeSyntax ts, read ts = .ok s → ∀ t us, f.drop s.rest = t :: us →
      t.token = .mark f.close → Consumes listed ts (t :: us))
    (next : ∀ s : Step TypeSyntax ts, read ts = .ok s → ∀ t us vs, f.drop s.rest = t :: us →
      t.token = .mark .comma → Consumes listed us vs → Consumes listed ts vs)
    (list : ∀ us, Shorter us ts → ∀ s : Step (List TypeSyntax) us, more us = .ok s →
      ∃ t, t.token = .mark f.close ∧ Consumes listed us (t :: s.rest))
    {s : Step (List TypeSyntax) ts} (h : more ts = .ok s) :
    ∃ t, t.token = .mark f.close ∧ Consumes listed ts (t :: s.rest) := by
  obtain ⟨first, type,
      ⟨closes, -, left⟩ | ⟨comma, others, passed, again, shorter, -, left⟩⟩ :=
    reads.exists_of_ok h
  · obtain ⟨t, whole, closing⟩ := exists_of_isMark closes
    rw [left]
    exact ⟨t, closing, last first type t _ whole closing⟩
  · obtain ⟨t, whole, separates⟩ := exists_of_readMark passed
    obtain ⟨u, closing, more⟩ := list _ shorter others again
    rw [left]
    exact ⟨u, closing, next first type t _ _ whole separates more⟩

mutual
theorem consumes_read {ts : List Item} {s : Step TypeSyntax ts} (h : read ts = .ok s) :
    Consumes .type ts s.rest := by
  match ts with
  | [] =>
    rw [read] at h
    cases h
  | t :: r =>
    rw [read] at h
    split at h
    · rename_i opens
      split at h
      · cases h
      · rename_i items after shorter tuple
        obtain ⟨l, suffixes, rfl⟩ := map_eq_ok h
        obtain ⟨u, closes, elements⟩ := consumes_readTuple tuple
        exact .type rfl (.tuple opens elements closes) (consumes_readSuffixes suffixes)
    · split at h
      · cases h
      · rename_i core after shorter named
        obtain ⟨l, suffixes, rfl⟩ := map_eq_ok h
        exact .type (single_of_readNamed named) (.plain (consumes_readNamed named))
          (consumes_readSuffixes suffixes)
termination_by 5 * ts.length + 1
decreasing_by all_goals simp only [List.length_cons] at *; omega

theorem consumes_readTuple {ts : List Item} {s : Step (List TypeSyntax) ts}
    (h : readTuple ts = .ok s) : ∃ t, t.token = .mark .closeParen ∧
      Consumes .elements ts (t :: s.rest) := by
  have element : ∀ s : Step TypeSyntax ts, read ts = .ok s →
      Consumes .element ts (dropElementName s.rest) := fun _ read => (consumes_read read).element
  refine ListForm.elements_readBy.consumes ?_ ?_ (fun _ _ _ => consumes_readTuple) h
  · intro s read t us dropped closes
    exact .lastElement (dropped ▸ element s read)
  · intro s read t us vs dropped separates others
    exact .moreElements (dropped ▸ element s read) separates others
termination_by 5 * ts.length + 2
decreasing_by all_goals omega

theorem consumes_readNamed {ts : List Item} {s : Step TypeSyntax ts} (h : readNamed ts = .ok s) :
    Consumes .name ts s.rest := by
  rw [readNamed] at h
  split at h
  · cases h
  · rename_i name after shorter read
    obtain ⟨l, segments, rfl⟩ := map_eq_ok h
    have short := dropGlobal_short ts
    obtain ⟨us, args, more⟩ := consumes_readSegments segments
    obtain ⟨i, whole, named⟩ := exists_of_readName read
    have id := Token.isId_iff.mpr ⟨name, named⟩
    by_cases global : isGlobalQualifier ts = true
    · -- the qualifier is a first segment of its own
      match ts with
      | [] => simp [isGlobalQualifier, Item.ahead, Item.token?] at global
      | [t] => simp [isGlobalQualifier, Item.ahead, Item.token?] at global
      | t :: u :: r =>
        have drop : dropGlobal (t :: u :: r) = r := if_pos global
        obtain ⟨first, double⟩ : t.token = .ident "global" ∧
            u.token = .mark .doubleColon := by
          simpa [isGlobalQualifier, Item.ahead, Item.token?] using global
        have whole : r = i :: after := drop.symm.trans whole
        subst whole
        exact .name (first ▸ .ident "global") (.noArguments _) (.double double id args more)
    · have keep : dropGlobal ts = ts := if_neg global
      have whole : ts = i :: after := keep.symm.trans whole
      show Consumes .name ts l.rest
      rw [whole]
      exact .name id args more
termination_by 5 * ts.length + 0
decreasing_by omega

theorem consumes_readSegments {name : String} {args : List TypeSyntax} {ts : List Item}
    {l : Left TypeSyntax ts} (h : readSegments name args ts = .ok l) :
    ∃ us, Consumes .arguments? ts us ∧ Consumes .segments us l.rest := by
  rw [readSegments] at h
  split at h
  · cases h
  · rename_i args' after short read
    refine ⟨after, consumes_readArguments? read, ?_⟩
    split at h
    · rename_i segment next shorter found
      obtain ⟨m, more, rfl⟩ := map_eq_ok h
      obtain ⟨t, u, whole, dot, named⟩ := exists_of_dotted? found
      obtain ⟨us, args, others⟩ := consumes_readSegments more
      have whole : after = t :: u :: next := whole
      show Consumes .segments after m.rest
      rw [whole]
      exact .dot dot named args others
    · split at h
      · rename_i colons
        split at h
        · cases h
        · rename_i segment next shorter read'
          obtain ⟨m, more, rfl⟩ := map_eq_ok h
          have short' := short_tail after
          obtain ⟨t, whole, double⟩ := exists_of_isMark colons
          obtain ⟨u, whole', named⟩ := exists_of_readName read'
          obtain ⟨us, args, others⟩ := consumes_readSegments more
          have whole : after = t :: u :: next := whole.trans (congrArg (t :: ·) whole')
          show Consumes .segments after m.rest
          rw [whole]
          exact .double double (Token.isId_iff.mpr ⟨segment, named⟩) args others
      · cases h
        exact .lastSegment _
termination_by 5 * ts.length + 4
decreasing_by all_goals omega

theorem consumes_readArguments? {args : List TypeSyntax} {ts : List Item}
    {l : Left (List TypeSyntax) ts} (h : readArguments? args ts = .ok l) :
    Consumes .arguments? ts l.rest := by
  match ts with
  | [] =>
    rw [readArguments?] at h
    cases h
    exact .noArguments []
  | t :: r =>
    rw [readArguments?] at h
    split at h
    · rename_i opens
      obtain ⟨s, read, rfl⟩ := map_eq_ok h
      obtain ⟨u, closes, types⟩ := consumes_readArguments read
      exact .arguments opens types closes
    · cases h
      exact .noArguments (t :: r)
termination_by 5 * ts.length + 3
decreasing_by
  simp only [List.length_cons]
  omega

theorem consumes_readArguments {ts : List Item} {s : Step (List TypeSyntax) ts}
    (h : readArguments ts = .ok s) : ∃ t, t.token = .mark .closeAngle ∧
      Consumes .types ts (t :: s.rest) := by
  have type : ∀ s : Step TypeSyntax ts, read ts = .ok s → Consumes .type ts s.rest :=
    fun _ => consumes_read
  refine ListForm.arguments_readBy.consumes ?_ ?_ (fun _ _ _ => consumes_readArguments) h
  · intro s read t us left closes
    exact .lastType (left ▸ type s read)
  · intro s read t us vs left separates others
    exact .moreTypes (left ▸ type s read) separates others
termination_by 5 * ts.length + 2
decreasing_by all_goals omega
end

theorem Suffix.isPlain {suffix : Suffix} : ∀ t ∈ suffix.tokens, t.IsPlain := by
  cases suffix with
  | question | star => exact List.forall_mem_singleton.mpr trivial
  | rank commas =>
    refine List.forall_mem_cons.mpr ⟨trivial, List.forall_mem_append.mpr ⟨?_, ?_⟩⟩
    · intro t ht
      rw [List.eq_of_mem_replicate ht]
      trivial
    · exact List.forall_mem_singleton.mpr trivial

theorem Derives.isPlain {p : Phrase} {tokens : List Token} (derives : Derives p tokens) :
    ∀ t ∈ tokens, t.IsPlain := by
  induction derives with
  | type _ _ core =>
    refine List.forall_mem_append.mpr ⟨core, fun t ht => ?_⟩
    obtain ⟨suffix, -, inside⟩ := List.mem_flatMap.mp ht
    exact suffix.isPlain t inside
  | plain _ ih | lastElement _ ih | unnamed _ ih | lastType _ ih => exact ih
  | tuple _ ih | arguments _ ih =>
    exact List.forall_mem_cons.mpr ⟨trivial,
      List.forall_mem_append.mpr ⟨ih, List.forall_mem_singleton.mpr trivial⟩⟩
  | moreElements _ _ first others | moreTypes _ _ first others =>
    exact List.forall_mem_append.mpr ⟨first, List.forall_mem_cons.mpr ⟨trivial, others⟩⟩
  | named _ _ ih => exact List.forall_mem_append.mpr ⟨ih, List.forall_mem_singleton.mpr trivial⟩
  | name id _ _ args more =>
    exact List.forall_mem_cons.mpr ⟨id.isPlain, List.forall_mem_append.mpr ⟨args, more⟩⟩
  | lastSegment | noArguments => nofun
  | dot _ _ _ args more =>
    exact List.forall_mem_cons.mpr ⟨trivial,
      List.forall_mem_cons.mpr ⟨trivial, List.forall_mem_append.mpr ⟨args, more⟩⟩⟩
  | double id _ _ args more =>
    exact List.forall_mem_cons.mpr ⟨trivial,
      List.forall_mem_cons.mpr ⟨id.isPlain, List.forall_mem_append.mpr ⟨args, more⟩⟩⟩

/-- Every item that the reader takes is a name or a mark. -/
theorem plain_of_read {ts : List Item} {s : Step TypeSyntax ts} (h : read ts = .ok s) :
    ∃ taken, ts = taken ++ s.rest ∧ ∀ i ∈ taken, i.token.IsPlain := by
  obtain ⟨taken, whole, derives⟩ := consumes_read h
  exact ⟨taken, whole, fun i hi => derives.isPlain _ (List.mem_map_of_mem hi)⟩

end TypeSyntax
end Ambient
