import Ambient.Proofs.Text.Trimming
import Ambient.Render
import Ambient.Resolution.Member

/-!
# A shape on one line and on many

The members of an inlined class are written on lines of their own in a generated file, and on a
single line where they are part of a longer text, as in the value type of a dictionary. The two
texts are the same up to white space: each break of a line, with the tabs behind it, stands where
the other text has a space.
-/
namespace Ambient

namespace Text

/-- Every run of white space becomes one space. The run that stands right before the text has been
written already, if `behind`. -/
def squeezeChars (behind : Bool) : List Char → List Char
  | [] => []
  | c :: r =>
    if isBlank c then if behind then squeezeChars true r else ' ' :: squeezeChars true r
    else c :: squeezeChars false r

/-- The text with one space for every run of white space in it. -/
def squeeze (text : String) : String := String.ofList (squeezeChars false text.toList)

/-- What follows a run of white space follows one space. -/
theorem squeezeChars_blank {cs : List Char} (blank : ∀ c ∈ cs, isBlank c = true)
    (some : cs ≠ []) (behind : Bool) (rest : List Char) :
    squeezeChars behind (cs ++ rest) = squeezeChars behind (' ' :: rest) := by
  have space : isBlank ' ' = true := by decide
  induction cs generalizing behind with
  | nil => exact absurd rfl some
  | cons c more ih =>
    have first : squeezeChars behind (c :: (more ++ rest)) =
        squeezeChars behind (' ' :: (more ++ rest)) := by
      rw [squeezeChars, squeezeChars, if_pos (blank c List.mem_cons_self), if_pos space]
    rw [List.cons_append, first]
    cases more with
    | nil => rfl
    | cons d more =>
      have later :=
        ih (fun e he => blank e (List.mem_cons_of_mem c he)) (List.cons_ne_nil d more) true
      rw [squeezeChars, squeezeChars, later]
      simp only [squeezeChars, space, if_true]

/-- Two texts that differ in their runs of white space alone, also where they stand
within another text. -/
def SpacedAlike (a b : String) : Prop :=
  ∀ behind rest, squeezeChars behind (a.toList ++ rest) = squeezeChars behind (b.toList ++ rest)

namespace SpacedAlike
variable {a b c d : String}

theorem refl (a : String) : SpacedAlike a a := fun _ _ => rfl

theorem trans (h : SpacedAlike a b) (h' : SpacedAlike b c) : SpacedAlike a c :=
  fun behind rest => (h behind rest).trans (h' behind rest)

instance : Trans SpacedAlike SpacedAlike SpacedAlike := ⟨trans⟩

theorem append (h : SpacedAlike a b) (h' : SpacedAlike c d) : SpacedAlike (a ++ c) (b ++ d) := by
  have past : ∀ (xs : List Char) behind rest, squeezeChars behind (xs ++ (c.toList ++ rest)) =
      squeezeChars behind (xs ++ (d.toList ++ rest)) := by
    intro xs
    induction xs with
    | nil => exact h'
    | cons x more ih =>
      intro behind rest
      simp only [List.cons_append, squeezeChars, ih]
  intro behind rest
  rw [String.toList_append, String.toList_append, List.append_assoc, List.append_assoc,
    h behind (c.toList ++ rest), past]

/-- One run of white space is as good as another. -/
theorem of_blank (ha : blank a = true) (hb : blank b = true) (some : a ≠ "") (some' : b ≠ "") :
    SpacedAlike a b := by
  have run : ∀ {text : String}, blank text = true → text ≠ "" → ∀ behind rest,
      squeezeChars behind (text.toList ++ rest) = squeezeChars behind (' ' :: rest) := by
    intro text blank some
    refine squeezeChars_blank (List.all_eq_true.mp blank) fun none => some ?_
    exact String.toList_eq_nil_iff.mp none
  intro behind rest
  rw [run ha some, run hb some']

theorem squeeze_eq (h : SpacedAlike a b) : squeeze a = squeeze b := by
  have whole := h false []
  rw [List.append_nil, List.append_nil] at whole
  rw [squeeze, squeeze, whole]

end SpacedAlike

end Text

open Text

mutual
/-- No member in the type has a summary, at any depth. -/
def TypeRef.Undocumented : TypeRef → Prop
  | .known _ _ => True
  | .shape members _ => TypeRef.UndocumentedIn members
  | .untyped _ => True

def TypeRef.UndocumentedIn : List (MemberOf TypeRef) → Prop
  | [] => True
  | m :: more => TypeRef.UndocumentedMember m ∧ TypeRef.UndocumentedIn more

def TypeRef.UndocumentedMember : MemberOf TypeRef → Prop
  | ⟨_, _, type, _, summary, _⟩ => summary = none ∧ TypeRef.Undocumented type
end

namespace Render
variable {o : Options} {indent lines fields : String}

/-- Behind a break the closing brace stands at `indent`, behind a space right there. -/
theorem spacedAlike_block (spaces : blank indent = true)
    (body : SpacedAlike ("\n" ++ lines) (" " ++ fields ++ " ")) :
    SpacedAlike (block indent lines) ("\x7b " ++ fields ++ " \x7d") := by
  have closing : SpacedAlike (" " ++ indent) " " :=
    .of_blank (by rw [blank_append, spaces]; rfl) (by decide) (by simp) (by decide)
  have opened : block indent lines = "\x7b" ++ ("\n" ++ lines) ++ indent ++ "\x7d" := by
    have brace : "\x7b\n" = "\x7b" ++ "\n" := rfl
    rw [block, brace]
    simp only [String.append_assoc]
  have shut : "\x7b " ++ fields ++ " \x7d" = "\x7b" ++ (" " ++ fields) ++ " " ++ "\x7d" := by
    have before : "\x7b " = "\x7b" ++ " " := rfl
    have behind : " \x7d" = " " ++ "\x7d" := rfl
    rw [before, behind]
    simp only [String.append_assoc]
  rw [opened, shut]
  refine .append ?_ (.refl "\x7d")
  have inside := ((SpacedAlike.refl "\x7b").append body).append (.refl indent)
  have last := (SpacedAlike.refl ("\x7b" ++ (" " ++ fields))).append closing
  simp only [String.append_assoc] at inside last ⊢
  exact inside.trans last

theorem spacedAlike_intercalate (first : String) (others : List String) :
    SpacedAlike (" " ++ first ++ (" " ++ " ".intercalate others ++ " "))
      (" " ++ " ".intercalate (first :: others) ++ " ") := by
  cases others with
  | nil =>
    rw [String.intercalate_singleton]
    exact .append (.refl _) (.of_blank (by decide) (by decide) (by decide) (by decide))
  | cons next rest =>
    rw [String.intercalate_cons_cons]
    simp only [String.append_assoc]
    exact .refl _

mutual
theorem spacedAlike_typeText : (type : TypeRef) → type.Undocumented → ∀ {indent : String},
    blank indent = true → SpacedAlike (typeText o indent type) (type.text o)
  | .known rendered isArray, _, indent, _ => by
    rw [typeText, TypeRef.text]
    exact .refl _
  | .shape members isArray, undocumented, indent, spaces => by
    rw [typeText, TypeRef.text]
    have deeper : blank (indent ++ "\t") = true := by
      rw [blank_append, spaces]
      rfl
    exact (spacedAlike_block spaces (spacedAlike_memberLines members undocumented deeper)).append
      (.refl _)
  | .untyped isArray, _, indent, _ => by
    rw [typeText, TypeRef.text]
    exact .refl _

/-- Behind a break the members stand one on each line, behind a space they stand on one line. -/
theorem spacedAlike_memberLines : (members : List Member) → TypeRef.UndocumentedIn members →
    ∀ {indent : String}, blank indent = true →
      SpacedAlike ("\n" ++ memberLines o indent members)
        (" " ++ " ".intercalate (TypeRef.fieldTexts o members) ++ " ")
  | [], _, indent, _ => by
    rw [memberLines, TypeRef.fieldTexts]
    exact .of_blank (by decide) (by decide) (by decide) (by decide)
  | m :: more, undocumented, indent, spaces => by
    have first := spacedAlike_memberLine m undocumented.1 spaces
    have others := spacedAlike_memberLines more undocumented.2 spaces
    rw [memberLines, TypeRef.fieldTexts]
    calc
      SpacedAlike ("\n" ++ (memberLine o indent m ++ memberLines o indent more))
          (" " ++ TypeRef.fieldText o m ++ ("\n" ++ memberLines o indent more)) := by
        simpa only [String.append_assoc] using first.append (.refl (memberLines o indent more))
      SpacedAlike _ (" " ++ TypeRef.fieldText o m ++
          (" " ++ " ".intercalate (TypeRef.fieldTexts o more) ++ " ")) := .append (.refl _) others
      SpacedAlike _ _ := spacedAlike_intercalate _ _

theorem spacedAlike_memberLine : (m : Member) → TypeRef.UndocumentedMember m →
    ∀ {indent : String}, blank indent = true →
      SpacedAlike ("\n" ++ memberLine o indent m) (" " ++ TypeRef.fieldText o m ++ "\n")
  | ⟨name, shownName, type, init, summary, explicitName⟩, undocumented, indent, spaces => by
    obtain ⟨rfl, undocumented⟩ := undocumented
    rw [memberLine, TypeRef.fieldText]
    have undescribed : doc indent none = "" := rfl
    have ending : ";\n" = ";" ++ "\n" := rfl
    have margin : SpacedAlike ("\n" ++ indent) " " :=
      .of_blank (by rw [blank_append, spaces]; rfl) (by decide) (by simp) (by decide)
    have named := (margin.append (.refl (o.memberName
      (MemberOf.mk name shownName type init none explicitName)))).append (.refl ": ")
    have typed :=
      (named.append (spacedAlike_typeText type undocumented spaces)).append (.refl ";\n")
    rw [undescribed, String.empty_append]
    rw [ending] at typed ⊢
    simpa only [String.append_assoc] using typed
end

/-- The text of a type over several lines and its text on one line differ in white space alone, for
every type whose members have no summaries. -/
theorem squeeze_typeText (o : Options) {indent : String} (spaces : blank indent = true)
    (type : TypeRef)
    (undocumented : type.Undocumented) : squeeze (typeText o indent type) = squeeze (type.text o) :=
  (spacedAlike_typeText type undocumented spaces).squeeze_eq

/-- A list of shapes with a quoted name that may be left out, a shape in a shape
and an empty one. -/
def orderLines : TypeRef :=
  .shape [⟨"line no", "line no?", .plain "number", none, none, true⟩,
    ⟨"Item", "Item", .shape [⟨"Tags", "Tags", .known "string" true, none, none, false⟩,
      ⟨"Extra", "Extra", .shape [] false, none, none, false⟩] false, none, none, false⟩,
    ⟨"Rest", "Rest", .untyped true, none, none, false⟩] true

theorem squeeze_typeText_of_orderLines :
    (blank "\t\t" = true ∧ orderLines.Undocumented) ∧
      squeeze (typeText .default "\t\t" orderLines) = squeeze (orderLines.text .default) ∧
      squeeze (orderLines.text .default) = "\x7b \"line no\"?: number; item: " ++
        "\x7b tags: string[]; extra: \x7b \x7d; \x7d; rest: any[]; \x7d[]" := by
  have undocumented : orderLines.Undocumented :=
    ⟨⟨rfl, trivial⟩, ⟨rfl, ⟨rfl, trivial⟩, ⟨rfl, trivial⟩, trivial⟩,
      ⟨rfl, trivial⟩, trivial⟩
  exact ⟨⟨by decide, undocumented⟩,
    squeeze_typeText .default (by decide) orderLines undocumented, by decide⟩

end Render
end Ambient
