import Ambient.Proofs.Rendering.Directives
import Ambient.Proofs.Rendering.Lines
import Ambient.Proofs.Text.Trimming

/-!
# Generated texts read back

Of a generated text whose names, types and values lie on one line each, exactly the directives of
its header are read back. Where directives are kept these are settled on again, whatever the
declarations have come to refer to, so a header in order stays.
-/
namespace Ambient

open Text

theorem Text.blank_join {texts : List String} (h : Text.blank (String.join texts) = true) :
    ∀ text ∈ texts, Text.blank text = true := by
  induction texts with
  | nil => intro text ht; cases ht
  | cons first more ih =>
    rw [String.join_cons, Text.blank_append, Bool.and_eq_true] at h
    intro text ht
    rcases List.mem_cons.mp ht with rfl | later
    · exact h.1
    · exact ih h.2 text later

namespace Render
variable {o : Options} {d : Declaration} {indent : String} {declarations : List Declaration}

theorem not_blank_declaration : Text.blank (declaration o indent d) = false := by
  have words : Text.blank "const enum " = false ∧ Text.blank "interface" = false ∧
      Text.blank "class" = false ∧ Text.blank "declare class" = false := by decide
  have word : Text.blank (classWord o) = false := by
    unfold classWord
    split
    · split
      · exact words.2.2.2
      · exact words.2.2.1
    · exact words.2.1
  unfold declaration
  split
  · simp only [enumeration, Text.blank_append, words.1, Bool.false_and, Bool.and_false]
  · simp only [classText, Text.blank_append, word, Bool.false_and, Bool.and_false]

/-- Declarations are never blank. -/
theorem not_blank_groups (some : declarations ≠ []) :
    Text.blank (groups o declarations) = false := by
  obtain ⟨d, more, rfl⟩ := List.exists_cons_of_ne_nil some
  by_contra blank
  have each := Text.blank_join (eq_true_of_ne_false blank)
  have space : d.space ∈ spaces (d :: more) := by
    unfold spaces
    rw [List.map_cons, List.eraseDups_cons]
    exact List.mem_cons_self
  have here := each _ (List.mem_map_of_mem space)
  have member : d ∈ (d :: more).filter (·.space == d.space) :=
    List.mem_filter.mpr ⟨List.mem_cons_self, beq_self_eq_true d.space⟩
  unfold group at here
  split at here
  · have one := Text.blank_join here _ (List.mem_map_of_mem member)
    rw [not_blank_declaration] at one
    cases one
  · have word : Text.blank "declare module " = false := by decide
    simp only [Text.blank_append, word, Bool.false_and, Bool.false_eq_true] at here

end Render

mutual
/-- Every name in a type, and every type that is written out, lies on one line. -/
def TypeRef.Unbroken : TypeRef → Prop
  | .known rendered _ => OneLine rendered
  | .shape members _ => TypeRef.UnbrokenIn members
  | .untyped _ => True

def TypeRef.UnbrokenIn : List (MemberOf TypeRef) → Prop
  | [] => True
  | m :: more => TypeRef.UnbrokenMember m ∧ TypeRef.UnbrokenIn more

def TypeRef.UnbrokenMember : MemberOf TypeRef → Prop
  | ⟨name, shownName, type, init, _, _⟩ =>
    OneLine name ∧ OneLine shownName ∧ (∀ value ∈ init, OneLine value) ∧
      TypeRef.Unbroken type
end

/-- Namespaces, names, written types and initializers lie on one line; summaries need not. -/
structure Declaration.Unbroken (d : Declaration) : Prop where
  name : OneLine d.name
  space : OneLine d.space
  base : ∀ b ∈ d.base, OneLine b.space ∧ OneLine b.name
  members : TypeRef.UnbrokenIn d.members

namespace TypeRef
variable {o : Options}

mutual
theorem Unbroken.lined : (type : TypeRef) → type.Unbroken → type.Lined o
  | .known _ _, unbroken => unbroken
  | .shape members _, unbroken => UnbrokenIn.lined members unbroken
  | .untyped _, _ => trivial

theorem UnbrokenIn.lined : (members : List Member) → UnbrokenIn members → LinedIn o members
  | [], _ => trivial
  | m :: more, unbroken =>
    ⟨UnbrokenMember.lined m unbroken.1, UnbrokenIn.lined more unbroken.2⟩

theorem UnbrokenMember.lined : (m : Member) → UnbrokenMember m → LinedMember o m
  | ⟨_, _, type, _, _, _⟩, ⟨_, shown, _, unbroken⟩ =>
    ⟨Options.oneLine_memberName fun _ => shown, Unbroken.lined type unbroken⟩
end

theorem unbrokenIn_iff {members : List Member} :
    UnbrokenIn members ↔ ∀ m ∈ members, UnbrokenMember m := by
  induction members with
  | nil => simp [UnbrokenIn]
  | cons m more ih => simp [UnbrokenIn, ih]

theorem unbrokenMember_iff {m : Member} : UnbrokenMember m ↔ OneLine m.name ∧
    OneLine m.shownName ∧ (∀ value ∈ m.init, OneLine value) ∧ m.type.Unbroken :=
  match m with
  | ⟨_, _, _, _, _, _⟩ => Iff.rfl

end TypeRef

theorem Declaration.Unbroken.lined {o : Options} {d : Declaration} (h : d.Unbroken) :
    d.Lined o where
  name := h.name
  space := h.space
  base := h.base
  members _ := TypeRef.UnbrokenIn.lined d.members h.members
  values _ m hm := by
    obtain ⟨name, -, init, -⟩ :=
      TypeRef.unbrokenMember_iff.mp (TypeRef.unbrokenIn_iff.mp h.members m hm)
    exact ⟨name, init⟩

section
variable {declarations : List Declaration} {references : List String} {o : Options}
  {mode : RenderMode}

theorem text_render (shown : (render declarations references o mode).isEmpty = false) :
    declarations.filter mode.includes ≠ [] ∧
      (render declarations references o mode).text =
        Render.header references ++ Render.groups o (declarations.filter mode.includes) := by
  unfold render at shown ⊢
  by_cases none : (declarations.filter mode.includes).isEmpty = true
  · simp [none] at shown
  · simp only [none, Bool.false_eq_true, if_false, and_true]
    exact fun empty => none (List.isEmpty_iff.mpr empty)

theorem parse_text_render (unbroken : ∀ d ∈ declarations, d.Unbroken)
    (lines : ∀ path ∈ references, OneLine path)
    (shown : (render declarations references o mode).isEmpty = false) :
    Directive.parse (render declarations references o mode).text = references := by
  have body : Directive.parse (Render.groups o (declarations.filter mode.includes)) = [] :=
    Directive.parse_of_leads
      (Render.leads_groups fun d hd => (unbroken d (List.mem_filter.mp hd).1).lined)
  rw [(text_render shown).2, Directive.parse_header_append lines, body, List.append_nil]

theorem not_blank_text_render (shown : (render declarations references o mode).isEmpty = false) :
    Text.blank (render declarations references o mode).text = false := by
  obtain ⟨included, text⟩ := text_render shown
  rw [text, Text.blank_append, Render.not_blank_groups included, Bool.and_false]

theorem settle_keep {naming : OutputNaming} {sidecarOf : Path → Option Sidecar}
    {fresh : List Declaration} {source : Path} {text : String} (shown : Text.blank text = false) :
    Directive.settle naming true sidecarOf fresh source (some text) =
      Directive.sorted (Directive.parse text) := by
  unfold Directive.settle
  rw [Option.filter_some, shown]
  rfl

/-- The directives of a generated text are read back as they were written. Where they are kept, the
next run settles on them in order whatever its declarations refer to, and if they were in order it
generates the same text from the same declarations. -/
theorem parse_render (unbroken : ∀ d ∈ declarations, d.Unbroken)
    (lines : ∀ path ∈ references, OneLine path)
    (shown : (render declarations references o mode).isEmpty = false) :
    let text := (render declarations references o mode).text
    let again (naming : OutputNaming) (sidecarOf : Path → Option Sidecar)
        (fresh : List Declaration) (source : Path) :=
      Directive.settle naming true sidecarOf fresh source (some text)
    Directive.parse text = references ∧
      (∀ naming sidecarOf fresh source,
        again naming sidecarOf fresh source = Directive.sorted references) ∧
      (references.Pairwise (· ≤ ·) → ∀ naming sidecarOf fresh source,
        again naming sidecarOf fresh source = references ∧
          render declarations (again naming sidecarOf fresh source) o mode =
            render declarations references o mode) := by
  intro text again
  have readBack : Directive.parse text = references := parse_text_render unbroken lines shown
  have kept : ∀ naming sidecarOf fresh source,
      again naming sidecarOf fresh source = Directive.sorted references := by
    intro naming sidecarOf fresh source
    have settled : again naming sidecarOf fresh source = Directive.sorted (Directive.parse text) :=
      settle_keep (not_blank_text_render shown)
    rw [settled, readBack]
  refine ⟨readBack, kept, ?_⟩
  intro ordered naming sidecarOf fresh source
  have same : again naming sidecarOf fresh source = references := by
    rw [kept, Directive.sorted_of_pairwise ordered]
  exact ⟨same, by rw [same]⟩

/-- A declaration at global scope whose summary and whose quoted member are spelled
like directives. -/
def snare : Declaration where
  name := "Snare"
  space := ""
  isEnum := false
  base := none
  summary := some "first\n/// <reference path=\"summary.d.ts\" />"
  members := [⟨"/// <reference path=\"name.d.ts\" />", "/// <reference path=\"name.d.ts\" />",
    .shape [.required "inner" (.plain "string")] true, none, none, true⟩]
  references := []

/-- Quotation marks, the end of a directive and a carriage return in a path come back. -/
theorem parse_render_of_snare :
    let o := { Options.default with globalScope := true }
    let references := ["a\" />b.d.ts", "c\r"]
    snare.Unbroken ∧ (∀ path ∈ references, OneLine path) ∧
    references.Pairwise (· ≤ ·) ∧ (render [snare] references o .full).isEmpty = false ∧
      Directive.parse (render [snare] references o .full).text = references ∧
      Directive.settle (.ofOptions o) true (fun _ => none) [] ⟨"/p/Snare.cs"⟩
        (some (render [snare] references o .full).text) = references := by
  intro o references
  have inner : TypeRef.UnbrokenMember (.required "inner" (.plain "string")) :=
    have word : OneLine "string" := by decide
    ⟨by decide, by decide, by simp, word⟩
  have unbroken : snare.Unbroken :=
    ⟨by decide, by decide, by simp [snare],
      ⟨by decide, by decide, by simp, inner, trivial⟩, trivial⟩
  have lines : ∀ path ∈ references, OneLine path := by decide
  have ordered : references.Pairwise (· ≤ ·) := by decide
  have shown : (render [snare] references o .full).isEmpty = false := rfl
  have each : ∀ d ∈ [snare], d.Unbroken := fun d hd => List.mem_singleton.mp hd ▸ unbroken
  obtain ⟨readBack, -, fixed⟩ := @parse_render _ _ o .full each lines shown
  exact ⟨unbroken, lines, ordered, shown, readBack, (fixed ordered _ _ _ _).1⟩

end

end Ambient
