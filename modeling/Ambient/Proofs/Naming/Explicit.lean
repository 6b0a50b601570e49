import Ambient.Naming
import Ambient.Proofs.Json.Layouts

/-!
# Explicit names

An explicit name stands as it is where it is an identifier, and otherwise as a JSON string. Neither
form looks like the other and neither ends in a question mark, so the declared text tells the name
and whether the member is optional.
-/
namespace Ambient

namespace Json
variable {text name : String} {c : Char}

/-- A JSON string between its quotes, without controls, that decodes to `name`. -/
structure IsLiteral (text name : String) : Prop where
  quoted : ∃ inner, text.toList = '"' :: (inner ++ ['"'])
  decodes : decodeText Node.asText text = .ok name
  plain : ∀ c ∈ text.toList, 0x20 ≤ c.toNat

theorem hexDigit_plain : ∀ n < 16, 0x20 ≤ (hexDigit n).toNat := by decide

/-- A character that is written as it is is no control. -/
theorem plain_quoteChar (c : Char) : ∀ d ∈ quoteChar c, 0x20 ≤ d.toNat := by
  unfold quoteChar
  iterate 7
    split
    · simp
  split
  · rename_i control
    have high := hexDigit_plain (c.toNat / 16) (by omega)
    have low := hexDigit_plain (c.toNat % 16) (by omega)
    intro d hd
    simp only [List.mem_cons, List.not_mem_nil, or_false] at hd
    rcases hd with rfl | rfl | rfl | rfl | rfl | rfl
    · decide
    · decide
    · decide
    · decide
    · exact high
    · exact low
  · rename_i visible
    intro d hd
    rw [List.mem_singleton.mp hd]
    exact Nat.le_of_not_lt visible

theorem isLiteral_quote (name : String) : IsLiteral (quote name) name where
  quoted := ⟨_, toList_quote name⟩
  decodes := (Node.reads_asText name).decodeText (Spells.text name).isWrittenAs
  plain := by
    rw [toList_quote]
    intro c hc
    rcases List.mem_cons.mp hc with rfl | later
    · decide
    rcases List.mem_append.mp later with inner | last
    · obtain ⟨d, -, hd⟩ := List.mem_flatMap.mp inner
      exact plain_quoteChar d c hd
    · rw [List.mem_singleton.mp last]
      decide

/-- A text is a literal of one name at most. -/
theorem IsLiteral.unique {a b : String} (one : IsLiteral text a) (two : IsLiteral text b) : a = b :=
  Except.ok.inj (one.decodes.symm.trans two.decodes)

theorem IsLiteral.getLast? (h : IsLiteral text name) : text.toList.getLast? = some '"' := by
  obtain ⟨inner, spelled⟩ := h.quoted
  rw [spelled, ← List.cons_append, List.getLast?_concat]

end Json

/-- A name that needs no quotes: a letter, an underscore or a dollar sign, and then also digits. -/
def IsBareName (name : String) : Prop :=
  ∃ c r, name.toList = c :: r ∧ isNameStart c = true ∧ ∀ d ∈ r, isNamePart d = true

theorem isIdentifier_iff {name : String} : isIdentifier name = true ↔ IsBareName name := by
  unfold isIdentifier IsBareName
  cases name.toList with
  | nil => simp
  | cons c r => simp [List.all_eq_true]

theorem isNamePart_of_isNameStart {c : Char} (h : isNameStart c = true) : isNamePart c = true := by
  simp only [isNameStart, isNamePart, Text.isAlphanumeric, Bool.or_eq_true] at h ⊢
  tauto

theorem IsBareName.isNamePart {name : String} (h : IsBareName name) {c : Char}
    (hc : c ∈ name.toList) :
    isNamePart c = true := by
  obtain ⟨first, others, spelled, start, rest⟩ := h
  rw [spelled] at hc
  rcases List.mem_cons.mp hc with rfl | later
  · exact isNamePart_of_isNameStart start
  · exact rest c later

theorem IsBareName.not_isLiteral {name other : String} (h : IsBareName name) :
    ¬ Json.IsLiteral name other := by
  intro literal
  have quote := h.isNamePart (List.mem_of_getLast? literal.getLast?)
  exact absurd quote (by decide)

/-- `Declares text name`: the text is the name itself, or a literal of it. -/
def Declares (text name : String) : Prop :=
  text = name ∧ IsBareName name ∨ Json.IsLiteral text name

namespace Declares
variable {text a b : String}

theorem unique (one : Declares text a) (two : Declares text b) : a = b := by
  rcases one with ⟨rfl, bare⟩ | literal
  · rcases two with ⟨same, -⟩ | quoted
    · exact same
    · exact absurd quoted bare.not_isLiteral
  · rcases two with ⟨rfl, bare⟩ | quoted
    · exact absurd literal bare.not_isLiteral
    · exact literal.unique quoted

/-- What declares a name does not end like the mark of an optional member. -/
theorem getLast?_ne (h : Declares text a) : text.toList.getLast? ≠ some '?' := by
  intro mark
  rcases h with ⟨rfl, bare⟩ | literal
  · exact absurd (bare.isNamePart (List.mem_of_getLast? mark)) (by decide)
  · exact absurd (literal.getLast?.symm.trans mark) (by decide)

end Declares

namespace MemberOf
variable {τ : Type}

/-- A member, required or optional, whose name is given explicitly. -/
def explicit (marked : Bool) (name : String) (type : τ) : MemberOf τ :=
  (if marked then MemberOf.optional name type else MemberOf.required name type).withExplicitName

variable (marked : Bool) (name : String) (type : τ)

@[simp] theorem name_explicit : (explicit marked name type).name = name := by
  cases marked <;> rfl

@[simp] theorem isOptional_explicit : (explicit marked name type).isOptional = marked := by
  cases marked with
  | false => simp [explicit, required, withExplicitName, isOptional]
  | true =>
    have longer : name.utf8ByteSize < (name ++ "?").utf8ByteSize := by
      rw [String.utf8ByteSize_append]
      exact Nat.lt_add_of_pos_right (by decide)
    have last : Text.endsWith (name ++ "?") "?" = true := by
      rw [Text.endsWith, String.toList_append, List.isSuffixOf_iff_suffix]
      exact List.suffix_append _ _
    simp only [explicit, MemberOf.optional, withExplicitName, isOptional, if_true, longer, last,
      decide_true, Bool.and_self]

end MemberOf

namespace Options
variable {τ : Type}

def optionalMark (isOptional : Bool) : String := if isOptional then "?" else ""

theorem exists_memberName (o : Options) (m : MemberOf τ) (h : m.explicitName = true) :
    ∃ text, o.memberName m = text ++ optionalMark m.isOptional ∧ Declares text m.name := by
  unfold memberName
  rw [if_pos h]
  by_cases bare : isIdentifier m.name = true
  · rw [if_pos bare]
    exact ⟨m.name, rfl, .inl ⟨rfl, isIdentifier_iff.mp bare⟩⟩
  · rw [if_neg bare]
    exact ⟨Json.quote m.name, rfl, .inr (Json.isLiteral_quote m.name)⟩

/-- The mark is told from the text in front of it. -/
theorem append_mark_inj {a b x y : String} {p q : Bool} (left : Declares a x) (right : Declares b y)
    (same : a ++ optionalMark p = b ++ optionalMark q) : a = b ∧ p = q := by
  have mark : "?".toList = ['?'] := rfl
  have chars := congrArg String.toList same
  cases p <;> cases q <;>
    simp only [optionalMark, Bool.false_eq_true, if_true, if_false, String.append_empty,
      String.toList_append, mark] at same chars
  · exact ⟨same, rfl⟩
  · exact absurd (by rw [chars, List.getLast?_concat]) left.getLast?_ne
  · exact absurd (by rw [← chars, List.getLast?_concat]) right.getLast?_ne
  · exact ⟨String.toList_inj.mp (List.append_inj_left' chars rfl), rfl⟩

/-- Members with explicit names are declared alike, under whatever options, exactly if they have the
same name and both or neither are optional. The text is the name itself or a JSON string of it, with
a question mark behind it if the member is optional. -/
theorem memberName_explicit (o o' : Options) :
    (∀ (p q : Bool) (a b : String) (s t : τ),
      o.memberName (MemberOf.explicit p a s) = o'.memberName (MemberOf.explicit q b t) ↔
        a = b ∧ p = q) ∧
      ∀ (p : Bool) (a : String) (t : τ), ∃ text,
        o.memberName (MemberOf.explicit p a t) = text ++ (if p then "?" else "") ∧
        (text = a ∧ IsBareName a ∨ Json.IsLiteral text a) := by
  constructor
  · intro p q a b s t
    obtain ⟨left, shown, declares⟩ := o.exists_memberName (MemberOf.explicit p a s) rfl
    obtain ⟨right, shown', declares'⟩ := o'.exists_memberName (MemberOf.explicit q b t) rfl
    rw [MemberOf.isOptional_explicit] at shown shown'
    rw [MemberOf.name_explicit] at declares declares'
    constructor
    · intro same
      rw [shown, shown'] at same
      obtain ⟨rfl, mark⟩ := append_mark_inj declares declares' same
      exact ⟨declares.unique declares', mark⟩
    · rintro ⟨rfl, rfl⟩
      simp only [memberName, MemberOf.name_explicit, MemberOf.isOptional_explicit]
      rfl
  · intro p a t
    obtain ⟨text, shown, declares⟩ := o.exists_memberName (MemberOf.explicit p a t) rfl
    rw [MemberOf.isOptional_explicit] at shown
    rw [MemberOf.name_explicit] at declares
    exact ⟨text, shown, declares⟩

/-- A name that looks quoted and optional is quoted once more. -/
example : Options.default.memberName (MemberOf.explicit true "\"a\"?" TypeRef.unknown) =
    "\"\\\"a\\\"?\"?" := by decide

end Options

end Ambient
