import Ambient.Proofs.Index.Keys
import Ambient.Proofs.Path.Descend
import Ambient.Proofs.Resolution.Subject
import Ambient.Proofs.Translation.Dangling
import Ambient.Render

/-!
# Runs from recorded homes

A full run records the home of every declared type of another file that it meets. A later run that
reads the file alone, with types elsewhere assumed to exist, finds these homes by the names that are
written. This module says when the later run gives the same objects. It does so for classes and for
enums at the top level of a file; an enum nested in a class of another file is the exception, since
a home does not tell the class around a type from a namespace.

Whether types elsewhere are assumed to exist decides how names are resolved and nothing else: texts
of types, members and whole files are spelled the same.
-/

namespace Ambient

/-- The options with types elsewhere assumed to exist, or not. -/
def Options.assuming (o : Options) (assumes : Bool) : Options :=
  { o with assumeExternalType := assumes }

variable {o : Options} {assumes : Bool}

mutual
theorem TypeRef.text_assuming : (r : TypeRef) → r.text (o.assuming assumes) = r.text o
  | .known rendered isArray => by rw [TypeRef.text, TypeRef.text]
  | .shape members isArray => by
    rw [TypeRef.text, TypeRef.text, TypeRef.fieldTexts_assuming members]
  | .untyped isArray => by rw [TypeRef.text, TypeRef.text]

theorem TypeRef.fieldTexts_assuming : (members : List (MemberOf TypeRef)) →
    TypeRef.fieldTexts (o.assuming assumes) members = TypeRef.fieldTexts o members
  | [] => by rw [TypeRef.fieldTexts, TypeRef.fieldTexts]
  | m :: more => by
    rw [TypeRef.fieldTexts, TypeRef.fieldTexts, TypeRef.fieldText_assuming m,
      TypeRef.fieldTexts_assuming more]

theorem TypeRef.fieldText_assuming : (m : MemberOf TypeRef) →
    TypeRef.fieldText (o.assuming assumes) m = TypeRef.fieldText o m
  | ⟨name, shownName, type, init, summary, explicitName⟩ => by
    rw [TypeRef.fieldText, TypeRef.fieldText, TypeRef.text_assuming type]
    rfl
end

theorem TypeRef.listOf_assuming (inner : TypeRef) :
    inner.listOf (o.assuming assumes) = inner.listOf o := by
  rw [TypeRef.listOf, TypeRef.listOf, TypeRef.text_assuming]

theorem TypeRef.dictionaryOf_assuming (numericKey : Bool) (value : TypeRef) :
    value.dictionaryOf (o.assuming assumes) numericKey = value.dictionaryOf o numericKey := by
  rw [TypeRef.dictionaryOf, TypeRef.dictionaryOf, TypeRef.text_assuming]

theorem TypeSyntax.wrap_assuming (ty : TypeSyntax) (leaf : TypeRef) :
    ty.wrap (o.assuming assumes) leaf = ty.wrap o leaf := by
  fun_induction TypeSyntax.wrap o ty leaf with
  | case1 ty rendered h => rw [wrap_primitive h]
  | case2 ty inner h _ ih => rw [wrap_nullable h, ih]
  | case3 ty element h _ ih =>
    rw [wrap_collection h, ← ih]
    exact TypeRef.listOf_assuming _
  | case4 ty key value h _ ih =>
    rw [wrap_dictionary h, ← ih]
    exact TypeRef.dictionaryOf_assuming _ _
  | case5 ty h => rw [wrap_unknown h]

theorem Host.Member.declare_assuming (m : Host.Member) (leaf : TypeRef) :
    m.declare (o.assuming assumes) leaf = m.declare o leaf := by
  unfold declare
  cases TypeSyntax.parse m.typeName with
  | error fault => rfl
  | ok ty => simp only [TypeSyntax.wrap_assuming]

namespace Render

mutual
theorem memberLines_assuming (indent : String) : (members : List Member) →
    memberLines (o.assuming assumes) indent members = memberLines o indent members
  | [] => by rw [memberLines, memberLines]
  | m :: more => by
    rw [memberLines, memberLines, memberLine_assuming indent m, memberLines_assuming indent more]

theorem memberLine_assuming (indent : String) : (m : Member) →
    memberLine (o.assuming assumes) indent m = memberLine o indent m
  | ⟨name, shownName, type, init, summary, explicitName⟩ => by
    rw [memberLine, memberLine, typeText_assuming indent type]
    rfl

theorem typeText_assuming (indent : String) : (type : TypeRef) →
    typeText (o.assuming assumes) indent type = typeText o indent type
  | .known rendered isArray => by rw [typeText, typeText]
  | .shape members isArray => by
    rw [typeText, typeText, memberLines_assuming (indent ++ "\t") members]
  | .untyped isArray => by rw [typeText, typeText]
end

theorem declaration_assuming (indent : String) (d : Declaration) :
    declaration (o.assuming assumes) indent d = declaration o indent d := by
  have members : shape (o.assuming assumes) indent d.members = shape o indent d.members := by
    rw [shape, shape, memberLines_assuming]
  simp only [declaration, classText, members]
  rfl

theorem groups_assuming (ds : List Declaration) :
    groups (o.assuming assumes) ds = groups o ds := by
  have each : ∀ indent, declaration (o.assuming assumes) indent = declaration o indent :=
    fun indent => funext (declaration_assuming indent)
  simp only [groups, group, each]
  rfl

end Render

/-- A file is rendered alike whether or not types are assumed. -/
theorem render_assuming (ds : List Declaration) (references : List String) (mode : RenderMode) :
    render ds references (o.assuming assumes) mode = render ds references o mode := by
  simp only [render, Render.groups_assuming]

end Ambient

namespace Ambient

open Host

/-- A file of a project with the other files, and what a run starts from. -/
structure Scene where
  file : File
  others : List File
  name : String
  root : Path
  options : Options
  sidecar : Sidecar

namespace Scene

/-- The run that reads the whole project. -/
def full (c : Scene) : Setting :=
  .of c.file (.ofFiles c.name c.root (c.file :: c.others)) (c.options.assuming false)

/-- The run that reads the file alone. -/
def cached (c : Scene) : Setting :=
  .of c.file (.ofFiles c.name c.root [c.file]) (c.options.assuming true)

/-- The sidecar that the full run starts from and the one that it leaves. -/
def start (c : Scene) : Sidecar := c.full.startingSidecar c.sidecar

def left (c : Scene) : Sidecar := (c.full.translate c.sidecar).2

/-- The files are read from sources, lie below the root and have different paths. -/
structure Project (c : Scene) : Prop where
  source : ∀ g ∈ c.file :: c.others, ∃ text, File.parse g.path text = .ok g
  below : ∀ g ∈ c.others, ∃ names, names ≠ [] ∧ (∀ n ∈ names, Path.IsEntry n) ∧
    g.path = c.root.descend names
  distinct : (c.file :: c.others).Pairwise fun g h => g.path.same h.path = false

variable {c : Scene} {site : Site} {written key : String} {e : Entry}

theorem lookup?_full :
    c.full.lookup? site written =
      (c.full.own.lookup? (c.full.scope site) written).or
        (c.full.project.lookup? (c.full.scope site) written) := rfl

theorem lookup?_cached :
    c.cached.lookup? site written = c.full.own.lookup? (c.full.scope site) written := by
  have own : ∀ key, c.cached.own.get? key = c.full.own.get? key := fun key =>
    (Setting.get?_own key).trans (Setting.get?_own key).symm
  have project : ∀ key, c.cached.project.get? key = c.full.own.get? key := by
    intro key
    refine (Index.get?_ofFiles [c.file] key).trans ?_
    rw [List.flatMap_singleton]
    exact (Setting.get?_own key).symm
  show (c.cached.own.lookup? (c.full.scope site) written).or
    (c.cached.project.lookup? (c.full.scope site) written) = _
  rw [Index.lookup?_congr own, Index.lookup?_congr project, Option.or_self]

theorem fromSource (project : c.Project) {g : File} (hg : g ∈ c.file :: c.others) :
    g.FromSource := by
  obtain ⟨text, parsed⟩ := project.source g hg
  exact (fromSource_of_parse parsed).1

/-- A type that is found in the file at hand belongs to it. -/
theorem file_of_own (project : c.Project)
    (h : c.full.own.lookup? (c.full.scope site) written = some (key, e)) :
    e.file = some c.file.path := by
  have found := (Setting.get?_own key).symm.trans (Index.get?_of_lookup? h)
  exact (Index.key_of_mem_entriesOfFile (fromSource project List.mem_cons_self)
    (Index.mem_of_first? found)).2.2

/-- A type that is found elsewhere in the project belongs to one of the other files. -/
theorem file_of_project (project : c.Project)
    (missing : c.full.own.lookup? (c.full.scope site) written = none)
    (h : c.full.project.lookup? (c.full.scope site) written = some (key, e)) :
    ∃ g ∈ c.others, (key, e) ∈ Index.entriesOfFile g ∧ e.file = some g.path ∧
      g.path.same c.file.path = false := by
  have found := (Index.get?_ofFiles (c.file :: c.others) key).symm.trans (Index.get?_of_lookup? h)
  have absent := Index.get?_of_lookup?_eq_none missing (Index.mem_candidates_of_lookup? h)
  have notOwn := (Setting.get?_own key).symm.trans absent
  rw [List.flatMap_cons, Index.first?_append, notOwn, Option.none_or] at found
  obtain ⟨g, hg, entry⟩ := List.mem_flatMap.mp (Index.mem_of_first? found)
  refine ⟨g, hg, entry, (Index.key_of_mem_entriesOfFile
    (fromSource project (List.mem_cons_of_mem _ hg)) entry).2.2, ?_⟩
  have apart := (List.pairwise_cons.mp project.distinct).1 g hg
  rw [Path.same, beq_eq_false_iff_ne] at apart ⊢
  exact apart.symm

/-- A key stands for one type, whether it is found in the file at hand or elsewhere. -/
theorem get?_of_lookup? (h : c.full.lookup? site written = some (key, e)) :
    c.full.project.get? key = some e := by
  rcases Option.or_eq_some_iff.mp h with own | ⟨_, project⟩
  · have found := (Setting.get?_own key).symm.trans (Index.get?_of_lookup? own)
    refine (Index.get?_ofFiles (c.file :: c.others) key).trans ?_
    rw [List.flatMap_cons, Index.first?_append, found, Option.some_or]
  · exact Index.get?_of_lookup? project

/-- A lookup puts a name behind the place where it is declared. -/
theorem exists_outer_of_lookup? (h : c.full.lookup? site written = some (key, e)) :
    ∃ outer, key = qualify outer written := by
  have candidate : key ∈ (c.full.scope site).candidates written := by
    rcases Option.or_eq_some_iff.mp h with own | ⟨_, project⟩
    · exact Index.mem_candidates_of_lookup? own
    · exact Index.mem_candidates_of_lookup? project
  obtain ⟨outer, _, rfl⟩ := List.mem_map.mp candidate
  exact ⟨outer, rfl⟩

/-- The key of a type of another file is its name behind the class around it or its namespace. -/
theorem key_of_other (project : c.Project)
    (missing : c.full.own.lookup? (c.full.scope site) written = none)
    (h : c.full.lookup? site written = some (key, e)) :
    key = qualify (e.container.getD e.host.space) e.host.name ∧ IsWord e.host.name := by
  rw [lookup?_full, missing, Option.none_or] at h
  obtain ⟨g, hg, entry, _⟩ := file_of_project project missing h
  obtain ⟨spelled, word, _⟩ :=
    Index.key_of_mem_entriesOfFile (fromSource project (List.mem_cons_of_mem _ hg)) entry
  exact ⟨spelled, word⟩

/-- The home of a type that another file declares. -/
def home (c : Scene) (key : String) (file : Path) : TypeHome :=
  ⟨key, c.full.project.name, c.full.itemName file⟩

/-- `c.Meets key e file`: a class of the file at hand mentions the type `e` of another file. -/
def Meets (c : Scene) (key : String) (e : Entry) (file : Path) : Prop :=
  (∃ t ∈ c.file.types, t.kind = .classKind ∧ c.full.Mentions c.start t key e) ∧
    e.file = some file ∧ file.same c.file.path = false

theorem not_assuming : c.full.options.assumeExternalType = false := rfl

theorem homes_start : c.start.homes = [] := rfl

theorem homeOf?_declared {file : Path} (declares : e.file = some file)
    (other : file.same c.file.path = false) :
    c.full.homeOf? (.declared key e) = some (c.home key file) := by
  have own : c.full.file.path = c.file.path := rfl
  simp [Setting.homeOf?, declares, own, other, home]

theorem mem_homesOf {h : TypeHome} :
    h ∈ c.full.homesOf c.start c.file.types ↔
      ∃ key e file, c.Meets key e file ∧ h = c.home key file := by
  rw [Setting.homesOf, List.mem_filterMap]
  constructor
  · rintro ⟨v, met, recorded⟩
    obtain ⟨t, ht, met⟩ := List.mem_flatMap.mp met
    unfold Setting.visitsOf at met
    split at met
    · rename_i kind
      obtain ⟨key, e, rfl⟩ := Setting.declared_of_mem_classVisits not_assuming met
      have mentions := Setting.mem_classVisits_iff.mp met
      cases declares : e.file with
      | none => simp [Setting.homeOf?, declares] at recorded
      | some file =>
        cases own : file.same c.file.path with
        | true =>
          have same : c.full.file.path = c.file.path := rfl
          simp [Setting.homeOf?, declares, same, own] at recorded
        | false =>
          rw [homeOf?_declared declares own] at recorded
          exact ⟨key, e, file, ⟨⟨t, ht, kind, mentions⟩, declares, own⟩,
            (Option.some.inj recorded).symm⟩
    · cases met
  · rintro ⟨key, e, file, ⟨⟨t, ht, kind, mentions⟩, declares, own⟩, rfl⟩
    refine ⟨.declared key e, List.mem_flatMap.mpr ⟨t, ht, ?_⟩,
      homeOf?_declared declares own⟩
    rw [Setting.visitsOf, kind]
    exact Setting.mem_classVisits_iff.mpr mentions

/-- What the full run leaves are the homes of the types it mentions. -/
theorem mem_homes_left {h : TypeHome} :
    h ∈ c.left.homes ↔ ∃ key e file, c.Meets key e file ∧ h = c.home key file := by
  have left : c.left = (c.full.homesOf c.start c.file.types).foldl Sidecar.record c.start := by
    rw [Scene.left, Setting.translate_eq c.sidecar fun assumes =>
      absurd assumes (by simp [not_assuming])]
    rfl
  rw [left, Sidecar.homes_foldl_record, Sidecar.mem_foldl_insertHome, homes_start, List.nil_append,
    mem_homesOf]
  · rw [homes_start]
    exact List.Pairwise.nil
  · intro a ha b hb same
    rw [homes_start, List.nil_append] at ha
    obtain ⟨key, e, file, ⟨⟨t, _, _, mentions⟩, declares, _⟩, rfl⟩ := mem_homesOf.mp ha
    obtain ⟨key', e', file', ⟨⟨t', _, _, mentions'⟩, declares', _⟩, rfl⟩ :=
      mem_homesOf.mp hb
    have keys : key = key' := same
    subst keys
    obtain ⟨_, _, looked, _⟩ := Setting.lookup?_of_mentions mentions
    obtain ⟨_, _, looked', _⟩ := Setting.lookup?_of_mentions mentions'
    have entries := (get?_of_lookup? looked).symm.trans (get?_of_lookup? looked')
    rw [Option.some.inj entries] at declares
    rw [Option.some.inj (declares.symm.trans declares')]

/-- No two types that are mentioned share the last segment of their names. -/
def Apart (c : Scene) : Prop :=
  ∀ t ∈ c.file.types, ∀ t' ∈ c.file.types, ∀ key e key' e',
    c.full.Mentions c.start t key e → c.full.Mentions c.start t' key' e' →
      TypeSyntax.lastSegment key = TypeSyntax.lastSegment key' → key = key'

/-- A name that means a mentioned type of another file finds its home again. -/
theorem findHome?_left (apart : c.Apart) {file : Path} (meets : c.Meets key e file)
    (looked : c.full.lookup? site written = some (key, e)) :
    c.left.findHome? written = some (c.home key file) := by
  obtain ⟨outer, rfl⟩ := exists_outer_of_lookup? looked
  refine Sidecar.findHome?_eq (mem_homes_left.mpr ⟨_, e, file, meets, rfl⟩)
    (Sidecar.endsIn_qualify outer written) ?_
  intro h recorded ends
  obtain ⟨key', e', file', meets', rfl⟩ := mem_homes_left.mp recorded
  obtain ⟨⟨t, ht, kind, mentions⟩, declares, other⟩ := meets
  obtain ⟨⟨t', ht', kind', mentions'⟩, declares', other'⟩ := meets'
  have segments : TypeSyntax.lastSegment key' = TypeSyntax.lastSegment (qualify outer written) := by
    rw [TypeSyntax.lastSegment, TypeSyntax.lastSegment, lastPiece_qualify]
    exact congrArg String.ofList ends
  have same := apart t' ht' t ht key' e' _ e mentions' mentions segments
  subst same
  obtain ⟨_, _, looked', _⟩ := Setting.lookup?_of_mentions mentions'
  have entries := (get?_of_lookup? looked).symm.trans (get?_of_lookup? looked')
  rw [Option.some.inj entries] at declares
  rw [Option.some.inj (declares.symm.trans declares')]

theorem displayName_cached (space name : String) :
    c.cached.displayName site space name = c.full.displayName site space name := rfl

theorem typeOf_full {done : List String} (looked : c.full.lookup? site written = some (key, e))
    (declared : e.isDeclared = true) :
    c.full.typeOf c.start done site written =
      .plain (c.full.displayName site e.host.space e.host.name) := by
  have sense : c.full.sense done site written = .declared key e :=
    Setting.sense_eq_declared looked declared
  rw [Setting.typeOf_eq, sense]

/-- A type of the file at hand is written the same way in both runs. -/
theorem typeOf_cached_own {done : List String}
    (own : c.full.own.lookup? (c.full.scope site) written = some (key, e))
    (declared : e.isDeclared = true) :
    c.cached.typeOf c.left done site written =
      .plain (c.full.displayName site e.host.space e.host.name) := by
  have looked := lookup?_cached.trans own
  have sense : c.cached.sense done site written = .declared key e :=
    Setting.sense_eq_declared looked declared
  rw [Setting.typeOf_eq, sense]
  exact congrArg TypeRef.plain (displayName_cached _ _)

/-- A type of another file is written with what precedes its name in its key. -/
theorem typeOf_cached_other {done : List String} (project : c.Project) (apart : c.Apart)
    {file : Path} (missing : c.full.own.lookup? (c.full.scope site) written = none)
    (looked : c.full.lookup? site written = some (key, e)) (meets : c.Meets key e file) :
    c.cached.typeOf c.left done site written =
      .plain (c.full.displayName site (e.container.getD e.host.space) e.host.name) := by
  have sense : c.cached.sense done site written = .missing := by
    rw [Setting.sense, lookup?_cached, missing]
  have found := findHome?_left apart meets looked
  obtain ⟨spelled, word⟩ := key_of_other project missing looked
  have simple : (splitQualified written).name = e.host.name := by
    obtain ⟨outer, same⟩ := exists_outer_of_lookup? looked
    have last :=
      congrArg (fun k => Text.lastPiece (· == '.') (String.toList k)) (same.symm.trans spelled)
    simp only [lastPiece_qualify, lastPiece_of_isWord word] at last
    rw [splitQualified, last, String.ofList_toList]
  have assumes : c.cached.options.assumeExternalType = true := rfl
  have space : (splitQualified key).space = e.container.getD e.host.space := by
    rw [spelled, splitQualified_qualify word]
  rw [Setting.typeOf_eq, sense]
  simp only [assumes, if_true, Setting.assumed, found, home, simple, space, displayName_cached]

end Scene

end Ambient
