import Ambient.Proofs.Canonical.Types
import Ambient.Proofs.Source.Bodies
import Ambient.Proofs.Source.Phrases

/-!
# Types from their tokens

A type is read whole if no mark behind it could carry it on, whatever else stands there. What the
tokens of a type are is said the way C# does: a name with arguments and further segments or a tuple,
and then question marks, stars and ranks. They are a type of the grammar that the reader accepts.
-/
namespace Ambient

namespace Token
open TypeSyntax (Suffix Derives)

/-- What follows the core of a type. No question mark follows another, stars apart. -/
inductive IsSuffixes : Bool → List Token → Prop
  | nil {nullable : Bool} : IsSuffixes nullable []
  | question {ts : List Token} : IsSuffixes true ts → IsSuffixes false (.mark .question :: ts)
  | star {nullable : Bool} {ts : List Token} : IsSuffixes nullable ts →
    IsSuffixes nullable (.mark .star :: ts)
  | rank {nullable : Bool} {ts : List Token} (commas : Nat) : IsSuffixes false ts →
    IsSuffixes nullable (.mark .openBracket :: (List.replicate commas (.mark .comma) ++
      .mark .closeBracket :: ts))

/-- The name of a tuple element, which may be left out. -/
inductive IsElementName : Bool → List Token → Prop
  | unnamed {elements : Bool} : IsElementName elements []
  | named (name : String) : IsElementName true [.ident name]

mutual
/-- The tokens of a type. -/
inductive IsType : List Token → Prop
  | named {name : String} {more suffixes : List Token} : IsSegment more →
    IsSuffixes false suffixes → IsType (.ident name :: (more ++ suffixes))
  | tuple {elements suffixes : List Token} : IsListed true elements →
    IsSuffixes false suffixes →
    IsType (.mark .openParen :: (elements ++ .mark .closeParen :: suffixes))

/-- What follows the name of a segment: arguments, and further segments. -/
inductive IsSegment : List Token → Prop
  | bare {more : List Token} : IsTail more → IsSegment more
  | arguments {args more : List Token} : IsListed false args → IsTail more →
    IsSegment (.mark .openAngle :: (args ++ .mark .closeAngle :: more))

/-- Further segments of a name. -/
inductive IsTail : List Token → Prop
  | nil : IsTail []
  | dot {name : String} {more : List Token} : IsSegment more →
    IsTail (.mark .dot :: .ident name :: more)
  | double {name : String} {more : List Token} : IsSegment more →
    IsTail (.mark .doubleColon :: .ident name :: more)

/-- Types with commas between them. In a tuple they may have names. -/
inductive IsListed : Bool → List Token → Prop
  | last {elements : Bool} {type name : List Token} : IsType type →
    IsElementName elements name → IsListed elements (type ++ name)
  | more {elements : Bool} {type name others : List Token} : IsType type →
    IsElementName elements name → IsListed elements others →
    IsListed elements (type ++ name ++ .mark .comma :: others)

end

theorem isFlat_keyword (k : Keyword) : (keyword k).IsFlat := fun _ _ _ => ⟨nofun, nofun⟩

theorem isFlat_ident (name : String) : (ident name).IsFlat := fun _ _ _ => ⟨nofun, nofun⟩

theorem Bodied.balanced {blocks : Bool} {ts : List Token} (bodied : Bodied blocks ts) :
    Balanced true ts := by
  induction bodied with
  | nil => exact .nil
  | flat flat _ _ ih => exact .flat flat (.inl rfl) ih
  | group pair _ balanced _ ih => exact .group pair balanced ih

theorem IsSuffixes.bodied {nullable : Bool} {ts : List Token} (h : IsSuffixes nullable ts) :
    Bodied false ts := by
  induction h with
  | nil => exact .nil
  | question _ ih | star _ ih => exact .flat (by decide) (by decide) ih
  | rank commas _ ih =>
    refine .group .brackets (.inr (by decide)) ?_ ih
    induction commas with
    | zero => exact .nil
    | succ n more => exact .flat (by decide) (.inl rfl) more

theorem IsElementName.bodied {elements : Bool} {ts : List Token} (h : IsElementName elements ts) :
    Bodied false ts := by
  cases h with
  | unnamed => exact .nil
  | named name => exact .flat (isFlat_ident name) nofun .nil

mutual
theorem IsType.bodied {ts : List Token} (h : IsType ts) : Bodied false ts := by
  match h with
  | .named segments suffixes =>
    exact .flat (isFlat_ident _) nofun ((IsSegment.bodied segments).append suffixes.bodied)
  | .tuple elements suffixes =>
    exact .group .parens (.inr (by decide)) (IsListed.bodied elements).balanced suffixes.bodied

theorem IsSegment.bodied {ts : List Token} (h : IsSegment ts) : Bodied false ts := by
  match h with
  | .bare tail => exact IsTail.bodied tail
  | .arguments listed tail =>
    exact .flat (by decide) (by decide)
      ((IsListed.bodied listed).append (.flat (by decide) (by decide) (IsTail.bodied tail)))

theorem IsTail.bodied {ts : List Token} (h : IsTail ts) : Bodied false ts := by
  match h with
  | .nil => exact .nil
  | .dot segments | .double segments =>
    exact .flat (by decide) (by decide) (.flat (isFlat_ident _) nofun (IsSegment.bodied segments))

theorem IsListed.bodied {elements : Bool} {ts : List Token} (h : IsListed elements ts) :
    Bodied false ts := by
  match h with
  | .last type named => exact (IsType.bodied type).append named.bodied
  | .more type named others =>
    exact ((IsType.bodied type).append named.bodied).append
      (.flat (by decide) (by decide) (IsListed.bodied others))
end

theorem IsSuffixes.exists_admitted {nullable : Bool} {ts : List Token}
    (h : IsSuffixes nullable ts) :
    ∃ suffixes : List Suffix, ts = suffixes.flatMap Suffix.tokens ∧
      ∀ core : TypeSyntax, core.isNullable = nullable →
      Suffix.Admitted (Suffix.last core ++ suffixes) := by
  induction h with
  | nil => exact ⟨[], rfl, fun _ _ => Suffix.admitted_last⟩
  | question _ ih =>
    obtain ⟨suffixes, rfl, admitted⟩ := ih
    exact ⟨.question :: suffixes, rfl, fun core single =>
      (Suffix.admitted_question single).mpr (admitted (.nullable core) rfl)⟩
  | star _ ih =>
    obtain ⟨suffixes, rfl, admitted⟩ := ih
    exact ⟨.star :: suffixes, rfl,
      fun core same => Suffix.admitted_star.mpr (admitted core same)⟩
  | rank commas _ ih =>
    obtain ⟨suffixes, rfl, admitted⟩ := ih
    refine ⟨.rank commas :: suffixes, ?_,
      fun core _ => Suffix.admitted_rank.mpr (admitted (.array core) rfl)⟩
    simp [Suffix.tokens]

theorem IsSuffixes.derives {core ts : List Token} (derives : Derives .core core)
    (h : IsSuffixes false ts) :
    Derives .type (core ++ ts) := by
  obtain ⟨suffixes, rfl, admitted⟩ := h.exists_admitted
  have admitted := admitted (.tuple []) rfl
  exact .type derives admitted

theorem IsElementName.derives {elements : Bool} {type ts : List Token}
    (derives : Derives .type type)
    (h : IsElementName elements ts) : Derives .element (type ++ ts) := by
  cases h with
  | unnamed =>
    rw [List.append_nil]
    exact .unnamed derives
  | named name => exact .named name derives

theorem IsElementName.eq_nil {elements : Bool} {ts : List Token} (h : IsElementName elements ts)
    (plain : elements = false) : ts = [] := by
  subst plain
  cases h
  rfl

mutual
theorem IsType.derives {ts : List Token} (h : IsType ts) : Derives .type ts := by
  match h with
  | .named segments suffixes =>
    obtain ⟨args, more, same, arguments, others⟩ := IsSegment.derives segments
    rw [same]
    exact suffixes.derives (.plain (.name (.ident _) arguments others))
  | .tuple elements suffixes =>
    have core := Derives.tuple ((IsListed.derives elements).1 rfl)
    simpa using suffixes.derives core

/-- A segment begins with its arguments, if it has some. -/
theorem IsSegment.derives {ts : List Token} (h : IsSegment ts) :
    ∃ args more, ts = args ++ more ∧ Derives .arguments? args ∧ Derives .segments more := by
  match h with
  | .bare tail => exact ⟨[], ts, rfl, .noArguments, IsTail.derives tail⟩
  | .arguments listed tail =>
    refine ⟨_, _, ?_, .arguments ((IsListed.derives listed).2 rfl), IsTail.derives tail⟩
    simp

theorem IsTail.derives {ts : List Token} (h : IsTail ts) : Derives .segments ts := by
  match h with
  | .nil => exact .lastSegment
  | .dot segments =>
    obtain ⟨args, more, same, arguments, others⟩ := IsSegment.derives segments
    rw [same]
    exact .dot _ arguments others
  | .double segments =>
    obtain ⟨args, more, same, arguments, others⟩ := IsSegment.derives segments
    rw [same]
    exact .double (.ident _) arguments others

/-- Types in parentheses may have names, types in angle brackets have none. -/
theorem IsListed.derives {elements : Bool} {ts : List Token} (h : IsListed elements ts) :
    (elements = true → Derives .elements ts) ∧ (elements = false → Derives .types ts) := by
  match h with
  | .last type named =>
    have type := IsType.derives type
    refine ⟨fun _ => .lastElement (named.derives type), fun plain => ?_⟩
    rw [named.eq_nil plain, List.append_nil]
    exact .lastType type
  | .more type named others =>
    have type := IsType.derives type
    have others := IsListed.derives others
    refine ⟨fun tuple => .moreElements (named.derives type) (others.1 tuple), fun plain => ?_⟩
    rw [named.eq_nil plain, List.append_nil]
    exact .moreTypes type (others.2 plain)
end

end Token

namespace TypeSyntax
open Token
variable {rest : List Item}

theorem isMark_append {m : Mark} {tokens : List Token} (other : tokens.head? ≠ some (.mark m))
    (ends : Item.isMark m rest = false) (read : List Item)
    (spelled : read.map (·.token) = tokens) :
    Item.isMark m (read ++ rest) = false := by
  cases read with
  | nil => exact ends
  | cons t r =>
    subst spelled
    simpa [Item.isMark, Item.token?] using other

theorem head?_suffixes {nullable : Bool} {suffixes : List Token}
    (h : IsSuffixes nullable suffixes) :
    suffixes.head? ≠ some (.mark .openParen) := by
  cases h <;> simp

theorem head?_segment {more : List Token} (h : IsSegment more) :
    more.head? ≠ some (.mark .openParen) := by
  cases h with
  | arguments => simp
  | bare tail => cases tail <;> simp

theorem startsType {tokens : List Token} (h : IsType tokens) (read : List Item)
    (spelled : read.map (·.token) = tokens) (rest : List Item) :
    StartsType (Item.docsAt (read ++ rest)) (read ++ rest) rest := by
  refine ⟨rfl, ?_⟩
  cases h with
  | tuple =>
    obtain ⟨t, _, rfl, opens, -⟩ := List.map_eq_cons_iff.mp spelled
    exact .inl (congrArg some opens)
  | named segments suffixes =>
    obtain ⟨i, later, rfl, named, others⟩ := List.map_eq_cons_iff.mp spelled
    obtain ⟨middle, last, rfl, inner, outer⟩ := List.map_eq_append_iff.mp others
    refine .inr ⟨⟨_, congrArg some named⟩, fun ends => ?_⟩
    have behind := isMark_append (head?_suffixes suffixes) ends last outer
    have whole := isMark_append (head?_segment segments) behind middle inner
    rw [← List.append_assoc] at whole
    simpa [Item.isMark, Item.ahead] using whole

end TypeSyntax
end Ambient
