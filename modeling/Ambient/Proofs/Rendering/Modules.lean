import Ambient.Proofs.Rendering.Reading

/-!
# Declarations in modules and at global scope

What is rendered inside a module is what is rendered at global scope, line by line one tab further
in. Only the word that a declaration at the top level of a file needs is not written in a module.
The modules follow each other in the order of their first declaration, and a mode is the same as
leaving declarations out.
-/
namespace Ambient

open Text

/-- The same options with declarations at global scope. -/
def Options.atGlobalScope (o : Options) : Options := { o with globalScope := true }

namespace Options
variable {o : Options}

@[simp] theorem globalScope_atGlobalScope : o.atGlobalScope.globalScope = true := rfl

@[simp] theorem typeName_atGlobalScope (name : String) :
    o.atGlobalScope.typeName name = o.typeName name := rfl

@[simp] theorem enumValueName_atGlobalScope (name : String) :
    o.atGlobalScope.enumValueName name = o.enumValueName name := rfl

@[simp] theorem memberName_atGlobalScope {τ : Type} (m : MemberOf τ) :
    o.atGlobalScope.memberName m = o.memberName m := rfl

end Options

namespace Render

/-- The word in front of a declaration at the top level of a file. -/
def declareWord : List Char := "declare ".toList

/-- A line at global scope as it stands in a module. -/
def inModule (line : List Char) : List Char :=
  '\t' :: if declareWord.isPrefixOf line then line.drop declareWord.length else line

/-- The lines of a text at global scope as they stand in a module. -/
def moved (text : String) : String :=
  String.join ((lines text.toList).map fun line => String.ofList (inModule line) ++ "\n")

/-- A module around the lines of its declarations at global scope. -/
def wrapped (space text : String) : String :=
  "declare module " ++ space ++ " \x7b\n" ++ moved text ++ "\x7d\n"

/-- Lines and what they are in a module, whatever comes behind them. -/
def Moves (a b : String) : Prop := ∀ rest, moved (a ++ rest) = b ++ moved rest

/-- The start of a line and what it is in a module, whatever follows on the line. -/
def Fronts (head head' : String) : Prop :=
  ∀ more, inModule (head.toList ++ more) = head'.toList ++ more

section
variable {a a' b b' head head' line more indent : String}

theorem Moves.append (first : Moves a a') (second : Moves b b') : Moves (a ++ b) (a' ++ b') := by
  intro rest
  rw [String.append_assoc, first, second, String.append_assoc]

theorem moves_empty : Moves "" "" := fun rest => by rw [String.empty_append, String.empty_append]

theorem moves_join {α : Type} {xs : List α} {f g : α → String}
    (each : ∀ x ∈ xs, Moves (f x) (g x)) :
    Moves (String.join (xs.map f)) (String.join (xs.map g)) := by
  induction xs with
  | nil => exact moves_empty
  | cons x more ih =>
    rw [List.map_cons, List.map_cons, String.join_cons, String.join_cons]
    exact (each x List.mem_cons_self).append (ih fun y hy => each y (List.mem_cons_of_mem x hy))

theorem Moves.eq (moves : Moves a b) : moved a = b := by
  have nothing : moved "" = "" := rfl
  have whole := moves ""
  rwa [nothing, String.append_empty, String.append_empty] at whole

/-- The text ends in a character that a line feed behind it leaves alone. -/
def EndsLine (text : String) : Prop := ∃ c, text.toList.getLast? = some c ∧ c ≠ '\r'

theorem EndsLine.behind (ends : EndsLine b) (a : String) : EndsLine (a ++ b) := by
  obtain ⟨c, last, other⟩ := ends
  refine ⟨c, ?_, other⟩
  rw [String.toList_append, List.getLast?_append, last]
  rfl

theorem EndsLine.dropReturn_eq (ends : EndsLine a) : dropReturn a.toList = a.toList := by
  obtain ⟨c, last, other⟩ := ends
  unfold dropReturn
  split
  · rename_i r spelled
    rw [List.getLast?_eq_head?_reverse, spelled] at last
    exact absurd (Option.some.inj last).symm other
  · rfl

theorem Fronts.append (fronts : Fronts head head') (more : String) :
    Fronts (head ++ more) (head' ++ more) := by
  intro rest
  rw [String.toList_append, String.toList_append, List.append_assoc, fronts, List.append_assoc]

theorem fronts_declare (more : String) : Fronts ("declare " ++ more) ("\t" ++ more) := by
  intro rest
  have word : declareWord.isPrefixOf (declareWord ++ (more.toList ++ rest)) = true :=
    List.isPrefixOf_iff_prefix.mpr (List.prefix_append _ _)
  have whole : ("declare " ++ more).toList ++ rest = declareWord ++ (more.toList ++ rest) := by
    rw [String.toList_append, List.append_assoc]
    rfl
  rw [whole, inModule, if_pos word, List.drop_left, String.toList_append, List.append_assoc]
  rfl

/-- A start of a line that is no start of the word goes one tab further in. -/
theorem fronts_other {c : Char} {r : List Char} (spelled : head.toList = c :: r)
    (other : c ≠ 'd') :
    Fronts head ("\t" ++ head) := by
  intro rest
  have word : ¬ declareWord.isPrefixOf (head.toList ++ rest) = true := by
    rw [List.isPrefixOf_iff_prefix, spelled]
    intro starts
    exact other (List.cons_prefix_cons.mp starts).1.symm
  rw [inModule, if_neg word, String.toList_append, List.append_assoc]
  rfl

theorem fronts_indented {c : Char} {r : List Char} (tabs : Tabs indent)
    (spelled : head.toList = c :: r)
    (other : c ≠ 'd') : Fronts (indent ++ head) ("\t" ++ indent ++ head) := by
  rw [String.append_assoc]
  cases tab : indent.toList with
  | nil =>
    rw [String.toList_eq_nil_iff.mp tab, String.empty_append]
    exact fronts_other spelled other
  | cons d s =>
    have first : d = '\t' := tabs d (by rw [tab]; exact List.mem_cons_self)
    have whole : (indent ++ head).toList = d :: (s ++ head.toList) := by
      rw [String.toList_append, tab, List.cons_append]
    exact fronts_other whole (by rw [first]; decide)

theorem moves_line (fronts : Fronts head head') (one : OneLine (head ++ more))
    (ends : EndsLine (head ++ more)) : Moves (head ++ more ++ "\n") (head' ++ more ++ "\n") := by
  intro rest
  have feed : "\n".toList = ['\n'] := rfl
  have whole : (head ++ more ++ "\n" ++ rest).toList =
      (head ++ more).toList ++ '\n' :: rest.toList := by
    rw [String.toList_append, String.toList_append, feed, List.append_assoc, List.singleton_append]
  have shifted : String.ofList (inModule (head ++ more).toList) = head' ++ more := by
    rw [String.toList_append, fronts, ← String.toList_append, String.ofList_toList]
  have step : moved (head ++ more ++ "\n" ++ rest) =
      String.ofList (inModule (head ++ more).toList) ++ "\n" ++ moved rest := by
    unfold moved
    rw [whole, lines_cons one, List.map_cons, String.join_cons, ends.dropReturn_eq]
  rw [step, shifted]

end

/-- A text within a line, and what it is in a module: alike on one line, and otherwise a block whose
lines move. -/
inductive Runs : String → String → Prop where
  | flat {text : String} : OneLine text → Runs text text
  | block {body body' close : String} : Moves body body' → OneLine close → close ≠ "" →
    Fronts close ("\t" ++ close) →
      Runs ("\x7b\n" ++ body ++ close) ("\x7b\n" ++ body' ++ ("\t" ++ close))

theorem Runs.moves {head head' text text' tail : String} (runs : Runs text text')
    (fronts : Fronts head head') (one : OneLine head) (oneTail : OneLine tail)
    (ends : EndsLine (text ++ tail)) :
    Moves (head ++ (text ++ tail) ++ "\n") (head' ++ (text' ++ tail) ++ "\n") := by
  cases runs with
  | flat line => exact moves_line fronts (one.append (line.append oneTail)) (ends.behind head)
  | @block body body' close moves oneClose some closes =>
    have brace : OneLine "\x7b" ∧ EndsLine "\x7b" := ⟨by decide, '\x7b', rfl, by decide⟩
    have first : Moves (head ++ "\x7b" ++ "\n") (head' ++ "\x7b" ++ "\n") :=
      moves_line fronts (one.append brace.1) (brace.2.behind head)
    have lastEnds : EndsLine (close ++ tail) := by
      obtain ⟨c, last, other⟩ := ends
      refine ⟨c, ?_, other⟩
      rw [String.append_assoc, String.append_assoc, String.toList_append, List.getLast?_append,
        String.toList_append, List.getLast?_append] at last
      cases found : (close ++ tail).toList.getLast? with
      | some d =>
        rw [found] at last
        exact last
      | none =>
        have nothing := List.getLast?_eq_none_iff.mp found
        rw [String.toList_append, List.append_eq_nil_iff] at nothing
        exact absurd (String.toList_eq_nil_iff.mp nothing.1) some
    have last := moves_line closes (oneClose.append oneTail) lastEnds
    have whole := (first.append moves).append last
    have open_ : "\x7b\n" = "\x7b" ++ "\n" := rfl
    simpa only [open_, String.append_assoc] using whole

section
variable {o : Options} {indent : String} {d : Declaration}

theorem moves_doc (tabs : Tabs indent) (summary : Option String) :
    Moves (doc indent summary) (doc ("\t" ++ indent) summary) := by
  unfold doc
  split
  · exact moves_empty
  · exact moves_empty
  · rename_i text _ shown
    obtain ⟨written, -, rfl⟩ := Option.map_eq_some_iff.mp shown
    have fronts : Fronts (indent ++ "/** ") ("\t" ++ indent ++ "/** ") :=
      fronts_indented tabs rfl (by decide)
    have inside : OneLine (String.ofList (docText written)) :=
      .ofList (newline_notMem_docText written)
    have fixed : OneLine "/** " ∧ OneLine " */" := by decide
    have ends : EndsLine " */" := ⟨'/', rfl, by decide⟩
    have line := moves_line fronts ((tabs.oneLine.append fixed.1).append (inside.append fixed.2))
      ((ends.behind _).behind _)
    have close : " */\n" = " */" ++ "\n" := rfl
    simpa only [close, String.append_assoc] using line

theorem fronts_member (tabs : Tabs indent) (more : String) :
    Fronts (indent ++ "\t" ++ more) ("\t" ++ indent ++ "\t" ++ more) :=
  Fronts.append (fronts_indented tabs rfl (by decide)) more

mutual
/-- A type within a line goes on in lines that move. -/
theorem runs_typeText : (type : TypeRef) → type.Unbroken →
    ∀ {indent : String}, Tabs indent →
    Runs (typeText o.atGlobalScope indent type) (typeText o ("\t" ++ indent) type)
  | .known rendered isArray, line, indent, _ => by
    have mark : OneLine (arrayMark isArray) := by cases isArray <;> decide
    rw [typeText, typeText]
    exact .flat (line.append mark)
  | .shape members isArray, unbroken, indent, tabs => by
    have mark : OneLine (arrayMark isArray) := by cases isArray <;> decide
    have brace : OneLine "\x7d" := by decide
    have body := moves_memberLines members unbroken tabs
    have closes : Fronts (indent ++ "\x7d" ++ arrayMark isArray)
        ("\t" ++ (indent ++ "\x7d" ++ arrayMark isArray)) := by
      rw [← String.append_assoc, ← String.append_assoc]
      exact Fronts.append (fronts_indented tabs rfl (by decide)) _
    have some : indent ++ "\x7d" ++ arrayMark isArray ≠ "" := by
      intro nothing
      have chars := congrArg String.toList nothing
      simp at chars
    have whole := Runs.block body ((tabs.oneLine.append brace).append mark) some closes
    rw [typeText, typeText, block, block]
    simpa only [String.append_assoc] using whole
  | .untyped isArray, _, indent, _ => by
    rw [typeText, typeText]
    exact .flat (by cases isArray <;> decide)

theorem moves_memberLines : (members : List Member) → TypeRef.UnbrokenIn members →
    ∀ {indent : String}, Tabs indent →
      Moves (memberLines o.atGlobalScope (indent ++ "\t") members)
        (memberLines o ("\t" ++ indent ++ "\t") members)
  | [], _, indent, _ => by
    rw [memberLines, memberLines]
    exact moves_empty
  | m :: more, unbroken, indent, tabs => by
    rw [memberLines, memberLines]
    exact (moves_memberLine m unbroken.1 tabs).append (moves_memberLines more unbroken.2 tabs)

theorem moves_memberLine : (m : Member) → TypeRef.UnbrokenMember m →
    ∀ {indent : String}, Tabs indent →
      Moves (memberLine o.atGlobalScope (indent ++ "\t") m)
        (memberLine o ("\t" ++ indent ++ "\t") m)
  | ⟨name, shownName, type, init, summary, explicitName⟩, ⟨_, shown, _, unbroken⟩,
      indent, tabs => by
    have written := runs_typeText type unbroken tabs.deeper
    have named : OneLine (o.memberName ⟨name, shownName, type, init, summary, explicitName⟩) :=
      Options.oneLine_memberName fun _ => shown
    have colon : OneLine ": " ∧ OneLine ";" := by decide
    have ends : EndsLine ";" := ⟨';', rfl, by decide⟩
    have line := written.moves (fronts_member tabs
        (o.memberName ⟨name, shownName, type, init, summary, explicitName⟩ ++ ": "))
      (tabs.deeper.oneLine.append (named.append colon.1)) colon.2 (ends.behind _)
    have whole := (moves_doc tabs.deeper summary).append line
    have close : ";\n" = ";" ++ "\n" := rfl
    rw [memberLine, memberLine, Options.memberName_atGlobalScope]
    simpa only [close, String.append_assoc] using whole
end

theorem moves_enumValue (tabs : Tabs indent) {m : Member} (name : OneLine m.name)
    (value : ∀ init ∈ m.init, OneLine init) :
    Moves (enumValue o.atGlobalScope (indent ++ "\t") m)
      (enumValue o ("\t" ++ indent ++ "\t") m) := by
  have named : OneLine (o.enumValueName m.name) := Options.oneLine_enumValueName name
  have comma : OneLine "," ∧ OneLine " = " := by decide
  have ends : EndsLine "," := ⟨',', rfl, by decide⟩
  have close : ",\n" = "," ++ "\n" := rfl
  have doc := moves_doc tabs.deeper m.summary
  unfold enumValue
  rw [Options.enumValueName_atGlobalScope]
  cases written : m.init with
  | none =>
    have line := moves_line (fronts_member tabs (o.enumValueName m.name))
      ((tabs.deeper.oneLine.append named).append comma.1) (ends.behind _)
    simpa only [close, String.append_assoc, String.empty_append] using doc.append line
  | some init =>
    have cleaned : OneLine (" = " ++ Initializer.clean init) :=
      comma.2.append (Initializer.oneLine_clean (value init written))
    have line := moves_line
      (fronts_member tabs (o.enumValueName m.name ++ (" = " ++ Initializer.clean init)))
      ((tabs.deeper.oneLine.append (named.append cleaned)).append comma.1) (ends.behind _)
    simpa only [close, String.append_assoc] using doc.append line

theorem moves_enumeration (unbroken : d.Unbroken) (inside : o.globalScope = false) :
    Moves (enumeration o.atGlobalScope "" d) (enumeration o "\t" d) := by
  have top : Tabs "" := by intro c hc; cases hc
  have name : OneLine (o.typeName d.name) := Options.oneLine_typeName unbroken.name
  have fixed : OneLine "const enum " ∧ OneLine "declare " ∧ OneLine " \x7b" ∧
      OneLine "\x7d" := by decide
  have ends : EndsLine " \x7b" ∧ EndsLine "\x7d" :=
    ⟨⟨'\x7b', rfl, by decide⟩, ⟨'\x7d', rfl, by decide⟩⟩
  have first := moves_line (fronts_declare ("const enum " ++ o.typeName d.name))
    ((fixed.2.1.append (fixed.1.append name)).append fixed.2.2.1) (ends.1.behind _)
  have values : Moves (String.join (d.members.map (enumValue o.atGlobalScope ("" ++ "\t"))))
      (String.join (d.members.map (enumValue o ("\t" ++ "" ++ "\t")))) := by
    refine moves_join fun m hm => ?_
    obtain ⟨name, -, init, -⟩ :=
      TypeRef.unbrokenMember_iff.mp (TypeRef.unbrokenIn_iff.mp unbroken.members m hm)
    exact moves_enumValue top name init
  have closes : Fronts "\x7d" ("\t" ++ "\x7d") := fronts_other rfl (by decide)
  have last : Moves ("\x7d" ++ "" ++ "\n") ("\t" ++ "\x7d" ++ "" ++ "\n") :=
    moves_line closes (by decide) ends.2
  have whole := (first.append values).append last
  have close : "\x7d\n" = "\x7d" ++ "\n" ∧ " \x7b\n" = " \x7b" ++ "\n" := ⟨rfl, rfl⟩
  unfold enumeration
  simp only [inside, Options.globalScope_atGlobalScope, Options.typeName_atGlobalScope, if_true,
    Bool.false_eq_true, if_false]
  simpa only [close.1, close.2, String.append_assoc, String.empty_append, String.append_empty]
    using whole

/-- A base in the module of its class, or in none, is written without a module. -/
theorem extension_atGlobalScope
    (based : ∀ b ∈ d.base, b.name = "" ∨ b.space = "" ∨ b.space = d.space) :
    extension o.atGlobalScope d = extension o d := by
  unfold extension
  cases found : d.base? with
  | none => rfl
  | some base =>
    obtain ⟨written, named⟩ := Option.filter_eq_some_iff.mp found
    have own : base.space = "" ∨ base.space = d.space :=
      (based base written).resolve_left (by simpa using named)
    have bare : ¬ (base.space ≠ "" ∧ base.space ≠ d.space ∧ (!o.globalScope) = true) :=
      fun ⟨filled, other, _⟩ => own.elim filled other
    have global : ¬ (base.space ≠ "" ∧ base.space ≠ d.space ∧
        (!o.atGlobalScope.globalScope) = true) := fun ⟨filled, other, _⟩ =>
          own.elim filled other
    simp only [if_neg bare, if_neg global, Options.typeName_atGlobalScope]

theorem moves_classText (unbroken : d.Unbroken) (inside : o.globalScope = false)
    (based : ∀ b ∈ d.base, b.name = "" ∨ b.space = "" ∨ b.space = d.space) :
    Moves (classText o.atGlobalScope "" d) (classText o "\t" d) := by
  have top : Tabs "" := by intro c hc; cases hc
  have name : OneLine (o.typeName d.name) := Options.oneLine_typeName unbroken.name
  have base : OneLine (extension o d) := oneLine_extension (o := o) unbroken.lined
  have space : OneLine " " ∧ OneLine "" := by decide
  have word : OneLine (classWord o.atGlobalScope) ∧
      Fronts (classWord o.atGlobalScope) ("\t" ++ classWord o) := by
    unfold classWord
    have same : o.atGlobalScope.classInsteadOfInterface = o.classInsteadOfInterface := rfl
    rw [same, Options.globalScope_atGlobalScope, inside]
    cases o.classInsteadOfInterface with
    | true => exact ⟨by decide, fronts_declare "class"⟩
    | false => exact ⟨by decide, fronts_other rfl (by decide)⟩
  have body := moves_memberLines (o := o) d.members unbroken.members top
  have closes : Fronts "\x7d" ("\t" ++ "\x7d") := fronts_other rfl (by decide)
  have ends : EndsLine "\x7d" := ⟨'\x7d', rfl, by decide⟩
  have shape := Runs.block body (by decide) (by decide) closes
  have more : OneLine (" " ++ o.typeName d.name ++ " " ++ extension o d) :=
    ((space.1.append name).append space.1).append base
  have whole := shape.moves (word.2.append (" " ++ o.typeName d.name ++ " " ++ extension o d))
    (word.1.append more) space.2 (by rw [String.append_empty]; exact ends.behind _)
  unfold classText Render.shape block
  rw [extension_atGlobalScope based, Options.typeName_atGlobalScope]
  simpa only [String.append_assoc, String.empty_append, String.append_empty] using whole

theorem moves_declaration (unbroken : d.Unbroken) (inside : o.globalScope = false)
    (based : ∀ b ∈ d.base, b.name = "" ∨ b.space = "" ∨ b.space = d.space) :
    Moves (declaration o.atGlobalScope "" d) (declaration o "\t" d) := by
  have top : Tabs "" := by intro c hc; cases hc
  have doc : Moves (doc "" d.summary) (doc ("\t" ++ "") d.summary) := moves_doc top d.summary
  refine doc.append ?_
  by_cases isEnum : d.isEnum = true
  · rw [if_pos isEnum, if_pos isEnum]
    exact moves_enumeration unbroken inside
  · rw [if_neg isEnum, if_neg isEnum]
    exact moves_classText unbroken inside based

/-- A module is its declarations at global scope with a wrapper around. -/
theorem group_eq_wrapped {space : String} {declarations : List Declaration}
    (inside : o.globalScope = false) (unbroken : ∀ d ∈ declarations, d.Unbroken)
    (based : ∀ d ∈ declarations, ∀ b ∈ d.base,
      b.name = "" ∨ b.space = "" ∨ b.space = d.space) :
    group o space declarations = wrapped space (group o.atGlobalScope space declarations) := by
  have each : Moves (String.join (declarations.map (declaration o.atGlobalScope "")))
      (String.join (declarations.map (declaration o "\t"))) :=
    moves_join fun d hd => moves_declaration (unbroken d hd) inside (based d hd)
  unfold group wrapped
  rw [Options.globalScope_atGlobalScope, inside, if_pos rfl, if_neg Bool.false_ne_true, each.eq]

theorem eraseDups_of_forall {α : Type} [BEq α] [LawfulBEq α] {x : α} {xs : List α}
    (same : ∀ y ∈ xs, y = x) (some : xs ≠ []) : xs.eraseDups = [x] := by
  cases xs with
  | nil => exact absurd rfl some
  | cons y more =>
    have none : more.filter (fun z => !z == y) = [] := by
      rw [List.filter_eq_nil_iff]
      intro z hz
      have first := same y List.mem_cons_self
      have other := same z (List.mem_cons_of_mem y hz)
      simp [first, other]
    rw [List.eraseDups_cons, none, List.eraseDups_nil, same y List.mem_cons_self]

/-- The declarations of one module rendered by themselves are the group of this module. -/
theorem groups_filter {space : String} {declarations : List Declaration}
    (member : space ∈ spaces declarations) :
    groups o (declarations.filter (·.space == space)) =
      group o space (declarations.filter (·.space == space)) := by
  obtain ⟨d, hd, same⟩ := List.mem_map.mp ((Directive.eraseDups_sublist _).subset member)
  have all : ∀ e ∈ declarations.filter (·.space == space), (e.space == space) = true :=
    fun e he => (List.mem_filter.mp he).2
  have alone : spaces (declarations.filter (·.space == space)) = [space] := by
    refine eraseDups_of_forall ?_ ?_
    · intro name hn
      obtain ⟨e, he, rfl⟩ := List.mem_map.mp hn
      exact eq_of_beq (all e he)
    · have kept : d ∈ declarations.filter (·.space == space) := by simp [hd, same]
      exact fun nothing => List.ne_nil_of_mem kept (List.map_eq_nil_iff.mp nothing)
  rw [groups, alone, List.map_singleton, List.filter_eq_self.mpr all]
  rw [String.join_cons]
  exact String.append_empty

end

end Render

section
variable {declarations : List Declaration} {references : List String} {o : Options}
  {mode : RenderMode}

theorem text_render_full :
    (render declarations [] o .full).text = Render.groups o declarations := by
  have all : declarations.filter RenderMode.full.includes = declarations :=
    List.filter_eq_self.mpr fun _ _ => rfl
  have header : Render.header [] = "" := rfl
  unfold render
  rw [all, header]
  cases declarations with
  | nil => rfl
  | cons d more => exact String.empty_append

theorem render_filter (declarations : List Declaration) (references : List String) (o : Options)
    (mode : RenderMode) : render declarations references o mode =
      render (declarations.filter mode.includes) references o .full := by
  have all : (declarations.filter mode.includes).filter RenderMode.full.includes =
      declarations.filter mode.includes := List.filter_eq_self.mpr fun _ _ => rfl
  unfold render
  rw [all]

theorem isEmpty_render_eq : (render declarations references o mode).isEmpty =
    (declarations.filter mode.includes).isEmpty := by
  unfold render
  simp only
  split <;> simp_all

theorem isEmpty_render_iff_text : (render declarations references o mode).isEmpty = true ↔
    (render declarations references o mode).text = "" := by
  constructor
  · intro none
    rw [isEmpty_render_eq] at none
    unfold render
    simp only [none, if_true]
  · intro nothing
    by_contra shown
    have some := not_blank_text_render (eq_false_of_ne_true shown)
    rw [nothing] at some
    exact absurd some (by decide)

/-- A mode renders what it includes, and there is a text exactly where it includes something.
Modules are the declarations at global scope, those of each module together, with a wrapper
around their lines. -/
theorem render_modules (declarations : List Declaration) (o : Options) :
    (∀ references mode,
      render declarations references o mode =
          render (declarations.filter mode.includes) references o .full ∧
        ((render declarations references o mode).isEmpty = true ↔
          (render declarations references o mode).text = "") ∧
        ((render declarations references o mode).isEmpty = true ↔
          ∀ d ∈ declarations, mode.includes d = false)) ∧
      (o.globalScope = false → (∀ d ∈ declarations, d.Unbroken) →
        (∀ d ∈ declarations, ∀ b ∈ d.base,
          b.name = "" ∨ b.space = "" ∨ b.space = d.space) →
        (render declarations [] o .full).text =
          String.join ((declarations.map (·.space)).eraseDups.map fun space =>
            Render.wrapped space
              (render (declarations.filter (·.space == space))
                [] o.atGlobalScope .full).text)) := by
  refine ⟨fun references mode => ⟨render_filter _ _ _ _, isEmpty_render_iff_text, ?_⟩, ?_⟩
  · rw [isEmpty_render_eq, List.isEmpty_iff, List.filter_eq_nil_iff]
    simp only [Bool.not_eq_true]
  · intro inside unbroken based
    have each : ∀ space ∈ Render.spaces declarations,
        Render.group o space (declarations.filter (·.space == space)) =
          Render.wrapped space
            (render (declarations.filter (·.space == space)) [] o.atGlobalScope .full).text := by
      intro space member
      have kept : ∀ d ∈ declarations.filter (·.space == space), d ∈ declarations :=
        fun d hd => (List.mem_filter.mp hd).1
      rw [text_render_full, Render.groups_filter member]
      exact Render.group_eq_wrapped inside (fun d hd => unbroken d (kept d hd))
        fun d hd => based d (kept d hd)
    rw [text_render_full, Render.groups, List.map_congr_left each]
    rfl

/-- A class with a base, a shape and a summary, an enum of another module, and the
class of the base. -/
def mixed : List Declaration :=
  [⟨"Order", "App", false, some ⟨"App", "Entity"⟩, some "An order\nof lines",
    [.optional "Lines" (.shape [.required "Name" (.plain "string")] true)], []⟩,
    ⟨"Kind", "Lib", true, none, none,
      [⟨"Open", "Open", .unknown, some "01L", none, false⟩], []⟩,
    ⟨"Entity", "App", false, none, none, [], []⟩]

/-- The two classes come together, in front of the enum between them. -/
theorem render_modules_of_mixed :
    let o := { Options.default with classInsteadOfInterface := true }
    let inSpace := fun space => mixed.filter (·.space == space)
    o.globalScope = false ∧ (∀ d ∈ mixed, d.Unbroken) ∧
      (∀ d ∈ mixed, ∀ b ∈ d.base, b.name = "" ∨ b.space = "" ∨ b.space = d.space) ∧
      (render (inSpace "App") [] o.atGlobalScope .full).text =
        "/** An order of lines */\ndeclare class Order extends Entity \x7b\n\tlines?: \x7b\n" ++
        "\t\tname: string;\n\t\x7d[];\n\x7d\ndeclare class Entity \x7b\n\x7d\n" ∧
      (render mixed [] o .full).text =
        Render.wrapped "App" (render (inSpace "App") [] o.atGlobalScope .full).text ++
          Render.wrapped "Lib" (render (inSpace "Lib") [] o.atGlobalScope .full).text := by
  intro o inSpace
  have name : TypeRef.UnbrokenMember (.required "Name" (.plain "string")) :=
    have word : OneLine "string" := by decide
    ⟨by decide, by decide, by simp, word⟩
  have unbroken : ∀ d ∈ mixed, d.Unbroken := by
    intro d hd
    simp only [mixed, List.mem_cons, List.not_mem_nil, or_false] at hd
    rcases hd with rfl | rfl | rfl
    · exact ⟨by decide, by decide, by simp; decide,
        ⟨by decide, by decide, by simp, name, trivial⟩, trivial⟩
    · exact ⟨by decide, by decide, by simp,
        ⟨by decide, by decide, by simp; decide, trivial⟩, trivial⟩
    · exact ⟨by decide, by decide, by simp, trivial⟩
  have based : ∀ d ∈ mixed, ∀ b ∈ d.base, b.name = "" ∨ b.space = "" ∨
      b.space = d.space := by decide
  have text := (render_modules mixed o).2 rfl unbroken based
  have two : (mixed.map (·.space)).eraseDups = ["App", "Lib"] := by decide
  have none : String.join [] = "" := rfl
  rw [two, List.map_cons, List.map_singleton, String.join_cons, String.join_cons, none,
    String.append_empty] at text
  exact ⟨rfl, unbroken, based, by with_unfolding_all rfl, text⟩

end

end Ambient
