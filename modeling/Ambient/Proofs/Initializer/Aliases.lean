import Ambient.Proofs.Source.Cuts
import Ambient.Proofs.Text.Casing
import Ambient.Render

/-!
# Initializers that refer to members

A member of an enum may be written with names of members. They stay as they are written, in
whatever case the members are declared: the initializer means these members if the case of
their names is kept.
-/
namespace Ambient

open Text

namespace Initializer

/-- The text does not begin like a number with or without a sign. -/
def Unnumbered (cs : List Char) : Prop := ∀ c ∈ (splitSign cs).2.head?, c.isDigit = false

/-- A name, or names with bars between them. -/
structure IsReference (text : String) : Prop where
  tidy : IsTidy text.toList
  unnumbered : Unnumbered text.toList

theorem splitSign_cons {c : Char} (unsigned : c ≠ '-') (r : List Char) :
    splitSign (c :: r) = ([], c :: r) := by
  rw [splitSign]
  rintro _ ⟨⟩
  exact unsigned rfl

theorem Unnumbered.append {cs : List Char} (h : Unnumbered cs) (some : cs ≠ [])
    (more : List Char) :
    Unnumbered (cs ++ ' ' :: '|' :: more) := by
  obtain ⟨c, r, rfl⟩ := List.exists_cons_of_ne_nil some
  by_cases signed : c = '-'
  · subst signed
    have head : ∀ d ∈ (trimStart r).head?, d.isDigit = false := h
    show ∀ d ∈ (trimStart (r ++ ' ' :: '|' :: more)).head?, d.isDigit = false
    rw [trimStart, List.dropWhile_append]
    split
    · -- only white space follows the sign, so the bar is next
      rintro d ⟨⟩
      decide
    · rename_i some
      intro d hd
      rw [List.head?_append_of_ne_nil _ fun none => some (List.isEmpty_iff.mpr none)] at hd
      exact head d hd
  · unfold Unnumbered at *
    rw [splitSign_cons signed] at h
    rw [List.cons_append, splitSign_cons signed]
    exact h

theorem clean_reference {text : String} (h : IsReference text) : clean text = text := by
  have unnumbered : ((splitSign text.toList).2.head?.any Char.isDigit) = false := by
    cases head : (splitSign text.toList).2.head? with
    | none => rfl
    | some c => exact h.unnumbered c head
  rw [clean, cleanChars]
  simp [h.tidy.trim_eq, unnumbered]

theorem IsReference.bar {a b : String} (ha : IsReference a) (hb : IsReference b) :
    IsReference (a ++ " | " ++ b) := by
  have chars : (a ++ " | " ++ b).toList = a.toList ++ ' ' :: '|' :: ' ' :: b.toList := by
    simp [String.toList_append]
  obtain ⟨c, _, head, _, first, _⟩ := ha.tidy
  obtain ⟨_, d, _, last, _, final⟩ := hb.tidy
  refine ⟨?_, ?_⟩
  · rw [chars]
    refine ⟨c, d, ?_, ?_, first, final⟩
    · rw [List.head?_append, head]
      rfl
    · simp [List.getLast?_append, List.getLast?_cons, last]
  · rw [chars]
    refine ha.unnumbered.append (fun none => ?_) _
    rw [none] at head
    cases head

theorem isReference_intercalate {names : List String} (some : names ≠ [])
    (each : ∀ name ∈ names, IsReference name) : IsReference (" | ".intercalate names) := by
  induction names with
  | nil => exact absurd rfl some
  | cons name more ih =>
    have first := each name List.mem_cons_self
    cases more with
    | nil => simpa using first
    | cons next others =>
      rw [String.intercalate_cons_cons]
      exact first.bar
        (ih (List.cons_ne_nil next others) fun n hn => each n (List.mem_cons_of_mem name hn))

theorem isBlank_of_namePart {c : Char} (h : isNamePart c = true) : isBlank c = false := by
  unfold isNamePart at h
  by_cases dollar : c = '$'
  · subst dollar
    decide
  · refine (Lexeme.isSolid_of_part (c := c) ?_).2.1
    simpa [Lexeme.isWordPart, dollar] using h

theorem isDigit_of_nameStart {c : Char} (h : isNameStart c = true) : c.isDigit = false := by
  refine eq_false_of_ne_true fun digit => ?_
  simp only [Char.isDigit, Bool.and_eq_true, decide_eq_true_eq] at digit
  have low : 48 ≤ c.toNat := digit.1
  have high : c.toNat ≤ 57 := digit.2
  exact of_code (fun c => isNameStart c ≠ true) 48 10 (by decide +kernel) low (by omega) h

/-- An identifier is no number. -/
theorem isReference_of_isIdentifier {name : String} (h : isIdentifier name = true) :
    IsReference name := by
  unfold isIdentifier at h
  split at h
  · cases h
  · rename_i c r chars
    obtain ⟨start, parts⟩ := Bool.and_eq_true_iff.mp h
    have first : isNamePart c = true := by
      simp only [isNameStart, isNamePart, isAlphanumeric, Bool.or_eq_true] at start ⊢
      tauto
    have all : ∀ d ∈ c :: r, isNamePart d = true := by
      simpa [first] using parts
    have unsigned : c ≠ '-' := by
      rintro rfl
      exact absurd start (by decide +kernel)
    refine ⟨?_, ?_⟩
    · rw [chars]
      exact isTidy_cons (isBlank_of_namePart first) fun d hd =>
        isBlank_of_namePart (all d (List.mem_of_getLast? hd))
    · rw [chars, Unnumbered, splitSign_cons unsigned]
      rintro d ⟨⟩
      exact isDigit_of_nameStart start

end Initializer

section
variable {f : String → String} (grows : ∀ name, name.length ≤ (f name).length) (sep : String)

include grows in
theorem length_intercalate_le (names : List String) :
    (sep.intercalate names).length ≤ (sep.intercalate (names.map f)).length := by
  induction names with
  | nil => exact Nat.le_refl _
  | cons name more ih =>
    cases more with
    | nil => simpa using grows name
    | cons next others =>
      have longer := grows name
      rw [List.map_cons] at ih
      rw [List.map_cons, List.map_cons, String.intercalate_cons_cons, String.intercalate_cons_cons]
      simp only [String.length_append]
      omega

include grows in
/-- Names that do not get shorter are put together to the same text only if none of
them is changed. -/
theorem intercalate_map_eq_iff (names : List String) :
    sep.intercalate names = sep.intercalate (names.map f) ↔
      ∀ name ∈ names, f name = name := by
  constructor
  · intro same
    induction names with
    | nil => exact fun _ none => absurd none List.not_mem_nil
    | cons name more ih =>
      cases more with
      | nil =>
        rw [List.map_singleton, String.intercalate_singleton, String.intercalate_singleton] at same
        exact List.forall_mem_singleton.mpr same.symm
      | cons next others =>
        rw [List.map_cons, List.map_cons, String.intercalate_cons_cons,
          String.intercalate_cons_cons, String.append_assoc, String.append_assoc] at same
        have longer := grows name
        have behind := length_intercalate_le grows sep (next :: others)
        have lengths := congrArg String.length same
        rw [List.map_cons] at behind
        simp only [String.length_append] at lengths
        have chars := congrArg String.toList same
        simp only [String.toList_append] at chars
        have short : name.toList.length = (f name).toList.length := by
          rw [String.length_toList, String.length_toList]
          omega
        obtain ⟨first, later⟩ := List.append_inj chars short
        have others := String.toList_injective (List.append_cancel_left later)
        exact List.forall_mem_cons.mpr ⟨(String.toList_injective first).symm, ih others⟩
  · intro kept
    rw [(List.map_congr_left kept).trans (List.map_id' names)]

end

/-- The member is written with the names of members of its enum. -/
structure Aliases (d : Declaration) (m : Member) (names : List String) : Prop where
  member : m ∈ d.members
  some : names ≠ []
  written : m.init = .some (" | ".intercalate names)
  refers : ∀ name ∈ names, name ∈ d.members.map (·.name)

theorem declares_iff (o : Options) {d : Declaration} {m : Member} {names : List String}
    (aliases : Aliases d m names) :
    (∀ name ∈ names, name ∈ d.members.map fun v => o.enumValueName v.name) ↔
      ∀ name ∈ names, o.enumValueName name = name := by
  constructor
  · intro declared name member
    obtain ⟨v, -, rfl⟩ := List.mem_map.mp (declared name member)
    exact o.enumValueName_enumValueName v.name
  · intro kept name member
    obtain ⟨v, there, same⟩ := List.mem_map.mp (aliases.refers name member)
    refine List.mem_map.mpr ⟨v, there, ?_⟩
    rw [same, kept name member]

/-- An initializer of names is written as it is. It is the same expression over the names that are
declared, and all its names are declared, exactly if their case is kept. -/
theorem enumValue_aliases (o : Options) (indent : String) {d : Declaration} {m : Member}
    {names : List String} (aliases : Aliases d m names)
    (plain : ∀ name ∈ names, Initializer.IsReference name) :
    Render.enumValue o indent m = Render.doc indent m.summary ++ indent ++ o.enumValueName m.name ++
        (" = " ++ " | ".intercalate names) ++ ",\n" ∧
      (" | ".intercalate names = " | ".intercalate (names.map o.enumValueName) ↔
        ∀ name ∈ names, o.enumValueName name = name) ∧
      ((∀ name ∈ names, name ∈ d.members.map fun v => o.enumValueName v.name) ↔
        ∀ name ∈ names, o.enumValueName name = name) := by
  refine ⟨?_, intercalate_map_eq_iff o.length_le_enumValueName " | " names,
    declares_iff o aliases⟩
  rw [Render.enumValue, aliases.written]
  simp only [Initializer.clean_reference (Initializer.isReference_intercalate aliases.some plain)]

def levelValue (name : String) (init : Option String) : Member :=
  ⟨name, name, .unknown, init, none, false⟩

def levelsOf (members : List Member) : Declaration :=
  ⟨"Level", "App", true, none, none, members, []⟩

theorem enumValue_aliases_of_levels :
    let names := ["normal", "all"]
    let both := levelValue "Both" (some "normal | all")
    let o := { Options.default with camelCaseEnumerationValues := true }
    let d := levelsOf [levelValue "normal" (some "1"), levelValue "all" (some "2"), both]
    (Aliases d both names ∧ ∀ name ∈ names, Initializer.IsReference name) ∧
      Render.enumValue o "\t\t" both = "\t\tboth = normal | all,\n" ∧
      ∀ name ∈ names, name ∈ d.members.map fun v => o.enumValueName v.name := by
  intro names both o d
  have aliases : Aliases d both names :=
    ⟨by simp [d, levelsOf], by decide, by decide, by decide⟩
  have plain : ∀ name ∈ names, Initializer.IsReference name := by
    have identifiers : ∀ name ∈ names, isIdentifier name = true := by decide +kernel
    exact fun name member => Initializer.isReference_of_isIdentifier (identifiers name member)
  obtain ⟨line, -, declared⟩ := enumValue_aliases o "\t\t" aliases plain
  exact ⟨⟨aliases, plain⟩, line.trans (by decide), declared.mpr (by decide)⟩

/-- In camel case a member is declared under another name than the one it is referred to by, and a
name that is a number is written as another number. -/
theorem enumValue_misses_members :
    (let named := levelValue "Default" (some "Normal")
      let o := { Options.default with camelCaseEnumerationValues := true }
      let d := levelsOf [levelValue "Normal" (some "1"), named]
      Aliases d named ["Normal"] ∧ Render.enumValue o "\t\t" named = "\t\tdefault = Normal,\n" ∧
        o.enumValueName "Normal" = "normal" ∧
        "Normal" ∉ d.members.map fun v => o.enumValueName v.name) ∧
      let bond := levelValue "Bond" (some "007")
      let d := levelsOf [levelValue "007" none, bond]
      Aliases d bond ["007"] ∧ Render.enumValue .default "\t\t" bond = "\t\tBond = 7,\n" ∧
        Options.default.enumValueName "007" = "007" := by
  refine ⟨⟨⟨by simp [levelsOf], by decide, by decide, by decide⟩,
      by decide, by decide, by decide⟩,
    ⟨⟨by simp [levelsOf], by decide, by decide, by decide⟩, by decide, by decide⟩⟩

end Ambient
