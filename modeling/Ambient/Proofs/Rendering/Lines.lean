import Ambient.Proofs.Text.OneLine

/-!
# Lines of a generated text

Where names, types and values lie on one line, no line of the declarations starts with two slashes.
So none of them is taken for a directive.
-/
namespace Ambient

open Text

mutual
/-- Every text in a type that is written out lies on one line. -/
def TypeRef.Lined (o : Options) : TypeRef → Prop
  | .known rendered _ => OneLine rendered
  | .shape members _ => TypeRef.LinedIn o members
  | .untyped _ => True

def TypeRef.LinedIn (o : Options) : List (MemberOf TypeRef) → Prop
  | [] => True
  | m :: more => TypeRef.LinedMember o m ∧ TypeRef.LinedIn o more

def TypeRef.LinedMember (o : Options) : MemberOf TypeRef → Prop
  | ⟨name, shownName, type, init, summary, explicitName⟩ =>
    OneLine (o.memberName (MemberOf.mk name shownName type init summary explicitName)) ∧
      TypeRef.Lined o type
end

structure Declaration.Lined (o : Options) (d : Declaration) : Prop where
  name : OneLine d.name
  space : OneLine d.space
  base : ∀ b, d.base = some b → OneLine b.space ∧ OneLine b.name
  members : d.isEnum = false → TypeRef.LinedIn o d.members
  values : d.isEnum = true → ∀ m ∈ d.members, OneLine m.name ∧
    ∀ init, m.init = some init → OneLine init

namespace TypeRef
variable {o : Options}

theorem linedIn_iff {members : List Member} :
    LinedIn o members ↔ ∀ m ∈ members, LinedMember o m := by
  induction members with
  | nil => simp [LinedIn]
  | cons m more ih => simp [LinedIn, ih]

theorem linedMember_iff {m : Member} :
    LinedMember o m ↔ OneLine (o.memberName m) ∧ m.type.Lined o :=
  match m with
  | ⟨_, _, _, _, _, _⟩ => Iff.rfl

end TypeRef

namespace Render
variable {o : Options} {indent text : String} {d : Declaration}

def Tabs (indent : String) : Prop := ∀ c ∈ indent.toList, c = '\t'

theorem Tabs.deeper (tabs : Tabs indent) : Tabs (indent ++ "\t") := by
  intro c hc
  rw [String.toList_append, List.mem_append] at hc
  rcases hc with outer | last
  · exact tabs c outer
  · exact List.mem_singleton.mp last

theorem Tabs.oneLine (tabs : Tabs indent) : OneLine indent :=
  fun feed => absurd (tabs '\n' feed) (by decide)

theorem leads_tabs (tabs : Tabs indent) (some : indent ≠ "") :
    Spot.start.Leads indent .inside := by
  cases spelled : indent.toList with
  | nil => exact absurd (String.toList_eq_nil_iff.mp spelled) some
  | cons c r =>
    have first : c = '\t' := tabs c (by rw [spelled]; exact List.mem_cons_self)
    have rest : OneLine (String.ofList r) := .ofList fun feed =>
      tabs.oneLine (by rw [spelled]; exact List.mem_cons_of_mem c feed)
    have whole : indent = "\t" ++ String.ofList r := by
      rw [← String.toList_inj, spelled, first]
      simp
    rw [whole]
    exact Spot.Leads.append (t := .inside) (by decide) (Spot.leads_inside rest)

/-- Behind tabs, or at the start of a line where there are none. -/
theorem leads_indented {u : Spot} (tabs : Tabs indent) (open_ : Spot.start.Leads text u)
    (inner : Spot.inside.Leads text u) : Spot.start.Leads (indent ++ text) u := by
  by_cases none : indent = ""
  · rw [none, String.empty_append]
    exact open_
  · exact (leads_tabs tabs none).append inner

theorem leads_deeper (tabs : Tabs indent) : Spot.start.Leads (indent ++ "\t") .inside :=
  leads_indented tabs (by decide) (by decide)

/-- A summary is a line of its own. -/
theorem leads_doc (tabs : Tabs indent) (summary : Option String) :
    Spot.start.Leads (doc indent summary) .start := by
  unfold doc
  split
  · exact Spot.leads_empty
  · exact Spot.leads_empty
  · rename_i text _ shown
    obtain ⟨written, -, rfl⟩ := Option.map_eq_some_iff.mp shown
    have opening : Spot.start.Leads (indent ++ "/** ") .inside :=
      leads_indented tabs (by decide) (by decide)
    have inside : Spot.inside.Leads (String.ofList (docText written)) .inside :=
      Spot.leads_inside (OneLine.ofList (newline_notMem_docText written))
    have closing : Spot.inside.Leads " */\n" .start := by decide
    exact (opening.append inside).append closing

mutual
/-- A type starts and ends within a line. -/
theorem leads_typeText : (type : TypeRef) → type.Lined o →
    ∀ {indent : String}, Tabs indent → Spot.inside.Leads (typeText o indent type) .inside
  | .known rendered isArray, lined, indent, _ => by
    rw [typeText]
    refine (Spot.leads_inside lined).append ?_
    cases isArray <;> decide
  | .shape members isArray, lined, indent, tabs => by
    rw [typeText]
    have opening : Spot.inside.Leads "\x7b\n" .start := by decide
    have closing : Spot.start.Leads (indent ++ "\x7d") .inside :=
      leads_indented tabs (by decide) (by decide)
    have body := leads_memberLines members lined tabs
    refine ((opening.append body).append_two closing).append ?_
    cases isArray <;> decide
  | .untyped isArray, _, indent, _ => by
    rw [typeText]
    cases isArray <;> decide

theorem leads_memberLines : (members : List Member) → TypeRef.LinedIn o members →
    ∀ {indent : String}, Tabs indent →
      Spot.start.Leads (memberLines o (indent ++ "\t") members) .start
  | [], _, indent, _ => by
    rw [memberLines]
    exact Spot.leads_empty
  | m :: more, lined, indent, tabs => by
    rw [memberLines]
    exact (leads_memberLine m lined.1 tabs).append (leads_memberLines more lined.2 tabs)

theorem leads_memberLine : (m : Member) → TypeRef.LinedMember o m →
    ∀ {indent : String}, Tabs indent → Spot.start.Leads (memberLine o (indent ++ "\t") m) .start
  | ⟨name, shownName, type, init, summary, explicitName⟩, lined, indent, tabs => by
    rw [memberLine]
    have type := leads_typeText type lined.2 tabs.deeper
    have named := (leads_doc tabs.deeper summary).append (leads_deeper tabs)
    have colon : Spot.inside.Leads ": " .inside := by decide
    have ending : Spot.inside.Leads ";\n" .start := by decide
    exact (((named.append (Spot.leads_inside lined.1)).append colon).append type).append ending
end

theorem leads_shape (tabs : Tabs indent) {members : List Member}
    (lined : TypeRef.LinedIn o members) :
    Spot.inside.Leads (shape o indent members) .inside := by
  have opening : Spot.inside.Leads "\x7b\n" .start := by decide
  have closing : Spot.start.Leads (indent ++ "\x7d") .inside :=
    leads_indented tabs (by decide) (by decide)
  exact (opening.append (leads_memberLines members lined tabs)).append_two closing

theorem leads_enumValue (tabs : Tabs indent) {m : Member} (name : OneLine m.name)
    (value : ∀ init, m.init = some init → OneLine init) :
    Spot.start.Leads (enumValue o (indent ++ "\t") m) .start := by
  have shown : OneLine (o.enumValueName m.name) := Options.oneLine_enumValueName name
  have named := ((leads_doc tabs.deeper m.summary).append (leads_deeper tabs)).append
    (Spot.leads_inside shown)
  have ending : Spot.inside.Leads ",\n" .start := by decide
  unfold enumValue
  refine Spot.Leads.append (named.append (Spot.leads_inside ?_)) ending
  cases found : m.init with
  | none => exact List.not_mem_nil
  | some init =>
    have sign : OneLine " = " := by decide
    exact sign.append (Initializer.oneLine_clean (value init found))

theorem leads_enumeration (tabs : Tabs indent) (isEnum : d.isEnum = true) (lined : d.Lined o) :
    Spot.start.Leads (enumeration o indent d) .start := by
  have name := Spot.leads_inside (@Options.oneLine_typeName o _ lined.name)
  have declares : Spot.start.Leads (indent ++ (if o.globalScope then "declare " else "") ++
      "const enum ") .inside := by
    rw [String.append_assoc]
    split
    · exact leads_indented tabs (by decide) (by decide)
    · exact leads_indented tabs (by decide) (by decide)
  have opening : Spot.inside.Leads " \x7b\n" .start := by decide
  have closing : Spot.start.Leads (indent ++ "\x7d\n") .start :=
    leads_indented tabs (by decide) (by decide)
  have values : Spot.start.Leads
      (String.join (d.members.map (enumValue o (indent ++ "\t")))) .start := by
    refine Spot.leads_join fun text ht => ?_
    obtain ⟨m, hm, rfl⟩ := List.mem_map.mp ht
    exact leads_enumValue tabs (lined.values isEnum m hm).1 (lined.values isEnum m hm).2
  exact (((declares.append name).append opening).append values).append_two closing

theorem oneLine_extension (lined : d.Lined o) : OneLine (extension o d) := by
  unfold extension
  split
  · decide
  · rename_i base found
    obtain ⟨space, name⟩ := lined.base base (Option.eq_some_of_filter_eq_some found)
    have fixed : OneLine "extends " ∧ OneLine "." ∧ OneLine " " := by decide
    refine ((fixed.1.append ?_).append (Options.oneLine_typeName name)).append fixed.2.2
    split
    · exact space.append fixed.2.1
    · exact List.not_mem_nil

theorem leads_classText (tabs : Tabs indent) (isClass : d.isEnum = false) (lined : d.Lined o) :
    Spot.start.Leads (classText o indent d) .start := by
  have declares : Spot.start.Leads (indent ++ classWord o) .inside := by
    unfold classWord
    split
    · split
      · exact leads_indented tabs (by decide) (by decide)
      · exact leads_indented tabs (by decide) (by decide)
    · exact leads_indented tabs (by decide) (by decide)
  have space : Spot.inside.Leads " " .inside := by decide
  have name := Spot.leads_inside (@Options.oneLine_typeName o _ lined.name)
  have base := Spot.leads_inside (oneLine_extension lined)
  have body := leads_shape tabs (lined.members isClass)
  have ending : Spot.inside.Leads "\n" .start := by decide
  exact (((((declares.append space).append name).append space).append base).append body).append
    ending

theorem leads_declaration (tabs : Tabs indent) (lined : d.Lined o) :
    Spot.start.Leads (declaration o indent d) .start := by
  refine (leads_doc tabs d.summary).append ?_
  split
  · exact leads_enumeration tabs (by assumption) lined
  · exact leads_classText tabs (by simpa using ‹¬ d.isEnum = true›) lined

theorem leads_group {space : String} {declarations : List Declaration} (module_ : OneLine space)
    (lined : ∀ d ∈ declarations, d.Lined o) :
    Spot.start.Leads (group o space declarations) .start := by
  have each : ∀ indent, Tabs indent →
      Spot.start.Leads (String.join (declarations.map (declaration o indent))) .start := by
    intro indent tabs
    refine Spot.leads_join fun text ht => ?_
    obtain ⟨d, hd, rfl⟩ := List.mem_map.mp ht
    exact leads_declaration tabs (lined d hd)
  unfold group
  split
  · exact each "" (by intro c hc; cases hc)
  · have opening : Spot.start.Leads "declare module " .inside := by decide
    have brace : Spot.inside.Leads " \x7b\n" .start := by decide
    have closing : Spot.start.Leads "\x7d\n" .start := by decide
    have tab : Tabs "\t" := fun c hc => List.mem_singleton.mp hc
    exact (((opening.append (Spot.leads_inside module_)).append brace).append
      (each "\t" tab)).append closing

/-- No line of the declarations starts with two slashes. -/
theorem leads_groups {declarations : List Declaration} (lined : ∀ d ∈ declarations, d.Lined o) :
    Spot.start.Leads (groups o declarations) .start := by
  refine Spot.leads_join fun text ht => ?_
  obtain ⟨space, hs, rfl⟩ := List.mem_map.mp ht
  have member := (Directive.eraseDups_sublist _).subset hs
  obtain ⟨d, hd, rfl⟩ := List.mem_map.mp member
  exact leads_group (lined d hd).space fun d hd => lined d (List.mem_filter.mp hd).1

end Render

end Ambient
