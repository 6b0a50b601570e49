import Ambient.Proofs.Formatting.Rewording
import Ambient.Proofs.Resolution.Visits
import Ambient.Proofs.Resolution.Base
import Ambient.Translation

/-!
# Types spelled in another way

A translation reads the types it finds written, and looks at nothing else of them. If every type and
base is spelled in another way that reads as the same type, the declarations and the sidecar are the
same. The lemmas go from the entries of an index over the search for a name to the whole file.
-/
namespace Ambient

open Host

/-- What a written type is read as, if it can be read. -/
def TypeSyntax.reading (written : String) : Option TypeSyntax :=
  (TypeSyntax.parse written).toOption

namespace Host

/-- Types alone are spelled in another way. -/
def Rewording.ofTypes (f : String → String) : Rewording := ⟨f, id, id⟩

/-- The other spelling of a type reads as the same type, and all else stays. -/
structure Rewording.Respells (r : Rewording) : Prop where
  types : ∀ written, TypeSyntax.reading (r.type written) = TypeSyntax.reading written
  values : ∀ value, r.value value = value
  inits : ∀ init, r.init init = init

variable {r : Rewording}

theorem Attribute.reword_eq_self (respells : r.Respells) (a : Attribute) : a.reword r = a := by
  have same : ∀ arg : Argument, arg.reword r = arg := by
    intro arg
    rw [Argument.reword, respells.values]
  rw [Attribute.reword, List.map_congr_left fun arg _ => same arg, List.map_id']

theorem attributes_reword (respells : r.Respells) (attributes : List Attribute) :
    attributes.map (·.reword r) = attributes := by
  rw [List.map_congr_left fun a _ => a.reword_eq_self respells, List.map_id']

theorem Member.isIgnored_reword (respells : r.Respells) (m : Member) :
    (m.reword r).isIgnored = m.isIgnored := by
  simp only [Member.isIgnored, Member.attribute?, Member.reword, attributes_reword respells]

theorem Member.serializedName?_reword (respells : r.Respells) (m : Member) :
    (m.reword r).serializedName? = m.serializedName? := by
  simp only [Member.serializedName?, Member.attribute?, Member.reword, attributes_reword respells]

theorem filter_reword (respells : r.Respells) (members : List Member) :
    (members.map (·.reword r)).filter (!·.isIgnored) =
      (members.filter (!·.isIgnored)).map (·.reword r) := by
  rw [List.filter_map]
  exact congrArg (List.map _) (List.filter_congr fun m _ => by
    rw [Function.comp_apply, m.isIgnored_reword respells])

@[simp] theorem TypeDecl.name_reword (t : TypeDecl) : (t.reword r).name = t.name := by
  cases t
  rfl

@[simp] theorem TypeDecl.space_reword (t : TypeDecl) : (t.reword r).space = t.space := by
  cases t
  rfl

@[simp] theorem TypeDecl.kind_reword (t : TypeDecl) : (t.reword r).kind = t.kind := by
  cases t
  rfl

@[simp] theorem TypeDecl.summary_reword (t : TypeDecl) : (t.reword r).summary = t.summary := by
  cases t
  rfl

@[simp] theorem TypeDecl.bases_reword (t : TypeDecl) :
    (t.reword r).bases = t.bases.map r.type := by
  cases t
  rfl

@[simp] theorem TypeDecl.members_reword (t : TypeDecl) :
    (t.reword r).members = t.members.map (·.reword r) := by
  cases t
  rfl

@[simp] theorem TypeDecl.nested_reword (t : TypeDecl) :
    (t.reword r).nested = TypeDecl.rewordAll r t.nested := by
  cases t
  rfl

@[simp] theorem TypeDecl.isEnum_reword (t : TypeDecl) : (t.reword r).isEnum = t.isEnum := by
  simp only [TypeDecl.isEnum, TypeDecl.kind_reword]

@[simp] theorem TypeDecl.qualifiedName_reword (t : TypeDecl) :
    (t.reword r).qualifiedName = t.qualifiedName := by
  simp only [TypeDecl.qualifiedName, TypeDecl.space_reword, TypeDecl.name_reword]

end Host

def Entry.reword (r : Rewording) (e : Entry) : Entry := { e with host := e.host.reword r }

@[simp] theorem Entry.isDeclared_reword (r : Rewording) (e : Entry) :
    (e.reword r).isDeclared = e.isDeclared := by
  simp only [Entry.isDeclared, Entry.isNested, Entry.reword, TypeDecl.kind_reword,
    TypeDecl.isEnum_reword]

namespace Index
variable {r : Rewording}

def rewordEntry (r : Rewording) (entry : String × Entry) : String × Entry :=
  (entry.1, entry.2.reword r)

def reword (r : Rewording) (ix : Index) : Index :=
  ⟨ix.name, ix.root, ix.entries.map (rewordEntry r)⟩

theorem get?_reword (ix : Index) (key : String) :
    (ix.reword r).get? key = (ix.get? key).map (·.reword r) := by
  rw [get?, get?, reword, List.find?_map, Option.map_map, Option.map_map]
  rfl

mutual
theorem entriesOf_reword (container : Option String) (space : String) (file : Option Path)
    (t : TypeDecl) : entriesOf container space file (t.reword r) =
      (entriesOf container space file t).map (rewordEntry r) := by
  match t with
  | ⟨name, ownSpace, kind, bases, summary, members, nested, attributes⟩ =>
    simp only [TypeDecl.reword, entriesOf, List.map_append, entriesOfList_reword]
    rfl

theorem entriesOfList_reword (container : Option String) (space : String) (file : Option Path)
    (ts : List TypeDecl) : entriesOfList container space file (TypeDecl.rewordAll r ts) =
      (entriesOfList container space file ts).map (rewordEntry r) := by
  match ts with
  | [] =>
    rw [TypeDecl.rewordAll, entriesOfList]
    rfl
  | t :: more =>
    rw [TypeDecl.rewordAll, entriesOfList, entriesOfList, List.map_append, entriesOf_reword,
      entriesOfList_reword]
end

theorem addNew_reword (ix : Index) (entry : String × Entry) :
    (ix.reword r).addNew (rewordEntry r entry) = (ix.addNew entry).reword r := by
  rw [addNew, addNew, rewordEntry, get?_reword, Option.isSome_map]
  split
  · rfl
  · simp only [reword, List.map_append, List.map_cons, List.map_nil]
    rfl

theorem foldl_addNew_reword (ix : Index) (entries : List (String × Entry)) :
    (entries.map (rewordEntry r)).foldl addNew (ix.reword r) =
      (entries.foldl addNew ix).reword r := by
  induction entries generalizing ix with
  | nil => rfl
  | cons entry more ih => rw [List.map_cons, List.foldl_cons, List.foldl_cons, addNew_reword, ih]

theorem addFile_reword (ix : Index) (f : File) :
    (ix.reword r).addFile (f.reword r) = (ix.addFile f).reword r := by
  have entries : entriesOfFile (f.reword r) = (entriesOfFile f).map (rewordEntry r) := by
    simp only [entriesOfFile, File.reword, entriesOfList_reword, List.map_append]
  rw [addFile, addFile, entries, foldl_addNew_reword]

theorem ofFiles_reword (name : String) (root : Path) (files : List File) :
    ofFiles name root (files.map (·.reword r)) = (ofFiles name root files).reword r := by
  have from' : ∀ ix : Index, (files.map (·.reword r)).foldl addFile (ix.reword r) =
      (files.foldl addFile ix).reword r := by
    induction files with
    | nil => exact fun _ => rfl
    | cons f more ih =>
      intro ix
      rw [List.map_cons, List.foldl_cons, List.foldl_cons, addFile_reword, ih]
  exact from' (empty name root)

theorem lookup?_reword (ix : Index) (scope : Scope) (written : String) :
    (ix.reword r).lookup? scope written = (ix.lookup? scope written).map (rewordEntry r) := by
  rw [lookup?, lookup?]
  induction scope.candidates written with
  | nil => rfl
  | cons key more ih =>
    rw [List.findSome?_cons, List.findSome?_cons, get?_reword]
    cases ix.get? key with
    | none => exact ih
    | some e => rfl

end Index

namespace Setting
variable {r : Rewording} {s : Setting}

def reword (r : Rewording) (s : Setting) : Setting where
  file := s.file.reword r
  own := s.own.reword r
  project := s.project.reword r
  options := s.options
  naming := s.naming

theorem of_reword (file : File) (project : Index) (options : Options) :
    Setting.of (file.reword r) (project.reword r) options =
      (Setting.of file project options).reword r := by
  have own := Index.addFile_reword (r := r) (Index.empty project.name project.root) file
  exact congrArg (fun own => Setting.mk (file.reword r) own (project.reword r) options
    (.ofOptions options)) own

theorem lookup?_reword (site : Site) (written : String) :
    (s.reword r).lookup? site written =
      (s.lookup? site written).map (Index.rewordEntry r) := by
  show ((s.own.reword r).lookup? (s.scope site) written).or
    ((s.project.reword r).lookup? (s.scope site) written) = _
  rw [Index.lookup?_reword, Index.lookup?_reword, lookup?, Option.map_or]

theorem get?_reword (key : String) :
    (s.reword r).get? key = (s.get? key).map (·.reword r) := by
  simp only [get?, reword, Index.get?_reword]
  cases s.own.get? key <;> rfl

theorem outward_reword (key : String) : (s.reword r).outward key = s.outward key := by
  refine outward_congr (fun key => ?_) key
  rw [get?_reword, Option.bind_map]
  rfl

theorem siteIn_reword (module_ key : String) (host : TypeDecl) :
    (s.reword r).siteIn module_ key (host.reword r) = s.siteIn module_ key host := by
  rw [siteIn, siteIn, outward_reword, TypeDecl.space_reword]

def Sense.reword (r : Rewording) : Sense → Sense
  | missing => missing
  | interface => interface
  | declared key e => declared key (e.reword r)
  | number => number
  | expanding e => expanding (e.reword r)
  | inlined key e => inlined key (e.reword r)

theorem sense_reword (done : List String) (site : Site) (written : String) :
    (s.reword r).sense done site written = (s.sense done site written).reword r := by
  rw [sense, sense, lookup?_reword]
  cases s.lookup? site written with
  | none => rfl
  | some found =>
    obtain ⟨key, e⟩ := found
    have kind : (e.reword r).host.kind = e.host.kind := e.host.kind_reword
    have isEnum : (e.reword r).host.isEnum = e.host.isEnum := e.host.isEnum_reword
    simp only [Option.map_some, Index.rewordEntry, kind, isEnum, Entry.isDeclared_reword]
    repeat' split
    all_goals rfl

theorem resolveMember_reword (respells : r.Respells) (o : Options)
    (named : String → Resolving TypeRef) (m : Host.Member) :
    resolveMember o named (m.reword r) = resolveMember o named m := by
  have reads := respells.types m.typeName
  rw [resolveMember, resolveMember, Member.serializedName?_reword respells]
  simp only [TypeSyntax.reading, Host.Member.reword] at reads ⊢
  generalize TypeSyntax.parse (r.type m.typeName) = x at reads ⊢
  generalize TypeSyntax.parse m.typeName = y at reads ⊢
  cases x <;> cases y <;> cases reads <;> rfl

theorem resolveMembers_reword (respells : r.Respells) (o : Options)
    (named : String → Resolving TypeRef) (members : List Host.Member) :
    resolveMembers o named (members.map (·.reword r)) = resolveMembers o named members := by
  rw [resolveMembers, resolveMembers, filter_reword respells, List.mapM_map]
  exact congrArg (fun f => List.mapM f _) (funext fun m => resolveMember_reword respells o named m)

theorem addReference_reword (key : String) (e : Entry) :
    (s.reword r).addReference key (e.reword r) = s.addReference key e := rfl

theorem resolveName_reword (respells : r.Respells) (done : List String) (site : Site)
    (written : String) :
    (s.reword r).resolveName done site written = s.resolveName done site written := by
  rw [resolveName_eq, resolveName_eq, sense_reword]
  cases h : s.sense done site written with
  | inlined key e =>
    have := remaining_lt_of_inlined h
    have inner : (s.reword r).resolveName (key :: done)
        ((s.reword r).siteIn site.module_ key (e.host.reword r)) =
          s.resolveName (key :: done) (s.siteIn site.module_ key e.host) := by
      funext name
      rw [siteIn_reword, resolveName_reword respells]
    simp only [Sense.reword, Entry.reword, TypeDecl.members_reword, inner]
    rw [resolveMembers_reword respells]
    rfl
  | declared key e =>
    simp only [Sense.reword, addReference_reword]
    simp only [Entry.reword, TypeDecl.space_reword, TypeDecl.name_reword]
    rfl
  | expanding e =>
    simp only [Sense.reword, Entry.reword, TypeDecl.name_reword]
    rfl
  | missing => rfl
  | interface => rfl
  | number => rfl
termination_by s.remaining done

/-- The written bases of the work that is left, spelled in another way. -/
def rewordWork (r : Rewording) (work : List (Site × String)) : List (Site × String) :=
  work.map fun (site, written) => (site, r.type written)

def rewordFound (r : Rewording) : FoundBase → FoundBase
  | .declared key e => .declared key (e.reword r)
  | .known home => .known home

def BaseSense.reword (r : Rewording) : BaseSense → BaseSense
  | passed => passed
  | declared key e => declared key (e.reword r)
  | known home => known home
  | opened key e => opened key (e.reword r)

theorem baseSense_reword (respells : r.Respells) (sidecar : Sidecar) (visited : List String)
    (site : Site) (written : String) :
    (s.reword r).baseSense sidecar visited site (r.type written) =
      (s.baseSense sidecar visited site written).reword r := by
  have reads := respells.types written
  rw [baseSense, baseSense]
  simp only [TypeSyntax.reading] at reads
  generalize TypeSyntax.parse (r.type written) = x at reads ⊢
  generalize TypeSyntax.parse written = y at reads ⊢
  cases x with
  | error _ =>
    cases y with
    | error _ => rfl
    | ok _ => cases reads
  | ok ty =>
    cases y with
    | error _ => cases reads
    | ok ty' =>
      cases reads
      cases ty with
      | named name args =>
        simp only [lookup?_reword]
        cases s.lookup? site name with
        | none =>
          cases sidecar.findHome? name with
          | none =>
            dsimp only [Option.map_none]
            split <;> rfl
          | some home =>
            show (if _ then _ else if s.options.assumeExternalType = true then _ else _) = _
            dsimp only
            repeat' split
            all_goals rfl
        | some found =>
          obtain ⟨key, e⟩ := found
          have kind : (e.reword r).host.kind = e.host.kind := e.host.kind_reword
          simp only [Option.map_some, Index.rewordEntry, kind, Entry.isDeclared_reword]
          repeat' split
          all_goals rfl
      | _ => rfl

theorem innerBases_reword (site : Site) (key : String) (e : Entry) :
    (s.reword r).innerBases site key (e.reword r) = rewordWork r (s.innerBases site key e) := by
  simp only [innerBases, Entry.reword, TypeDecl.bases_reword, siteIn_reword, rewordWork,
    List.map_map]
  rfl

theorem searchBase_reword (respells : r.Respells) (sidecar : Sidecar) (visited : List String)
    (work : List (Site × String)) :
    (s.reword r).searchBase sidecar visited (rewordWork r work) =
      (s.searchBase sidecar visited work).map (rewordFound r) := by
  induction visited, work using @searchBase_induction s sidecar with
  | nil visited =>
    simp [rewordWork, searchBase]
  | passed visited site written work sense ih =>
    simp only [rewordWork, List.map_cons, searchBase_cons, baseSense_reword respells, sense]
    exact ih
  | declared visited site written work key e sense =>
    simp only [rewordWork, List.map_cons, searchBase_cons, baseSense_reword respells, sense]
    rfl
  | known visited site written work home sense =>
    simp only [rewordWork, List.map_cons, searchBase_cons, baseSense_reword respells, sense]
    rfl
  | opened visited site written work key e sense ih =>
    simp only [rewordWork, List.map_cons, searchBase_cons, baseSense_reword respells, sense]
    simp only [BaseSense.reword, innerBases_reword]
    rw [← ih]
    simp only [rewordWork, List.map_append]

theorem resolveBase_reword (respells : r.Respells) (site : Site) (bases : List String) :
    (s.reword r).resolveBase site (bases.map r.type) = s.resolveBase site bases := by
  have work : (bases.map r.type).map (site, ·) = rewordWork r (bases.map (site, ·)) := by
    rw [rewordWork, List.map_map, List.map_map]
    rfl
  funext t
  unfold resolveBase
  rw [Resolving.bind_apply, Resolving.bind_apply, Resolving.get_apply]
  simp only [work, searchBase_reword respells]
  cases s.searchBase t.sidecar [] (bases.map (site, ·)) with
  | none => rfl
  | some found =>
    cases found with
    | known home => rfl
    | declared key e =>
      simp only [Option.map_some, rewordFound, addReference_reword]
      simp only [Entry.reword, TypeDecl.space_reword, TypeDecl.name_reword]
      rfl

theorem enumeration_reword (respells : r.Respells) (t : TypeDecl) (space : String) :
    (s.reword r).enumeration (t.reword r) space = s.enumeration t space := by
  have values : (enumValue ∘ fun m => m.reword r) = enumValue := by
    funext m
    have same : m.init.map r.init = m.init := by
      rw [funext respells.inits, Option.map_id']
    simp only [Function.comp_apply, enumValue, Host.Member.reword, same]
  simp only [enumeration, TypeDecl.name_reword, TypeDecl.summary_reword, TypeDecl.members_reword,
    filter_reword respells, List.map_map, values]
  rfl

mutual
theorem nestedEnums_reword (respells : r.Respells) (space : String) (t : TypeDecl) :
    (s.reword r).nestedEnums space (t.reword r) = s.nestedEnums space t := by
  match t with
  | ⟨name, ownSpace, kind, bases, summary, members, nested, attributes⟩ =>
    have enumeration := enumeration_reword (s := s) respells
      ⟨name, ownSpace, kind, bases, summary, members, nested, attributes⟩
    have inside := fun space => nestedEnumsIn_reword respells space nested
    simp only [TypeDecl.reword] at enumeration ⊢
    simp only [nestedEnums, enumeration, inside]

theorem nestedEnumsIn_reword (respells : r.Respells) (space : String) (ts : List TypeDecl) :
    (s.reword r).nestedEnumsIn space (TypeDecl.rewordAll r ts) = s.nestedEnumsIn space ts := by
  match ts with
  | [] =>
    rw [TypeDecl.rewordAll, nestedEnumsIn, nestedEnumsIn]
  | t :: more =>
    rw [TypeDecl.rewordAll, nestedEnumsIn, nestedEnumsIn, nestedEnums_reword respells,
      nestedEnumsIn_reword respells]
end

theorem classDeclaration_reword (respells : r.Respells) (t : TypeDecl) (sidecar : Sidecar) :
    (s.reword r).classDeclaration (t.reword r) sidecar = s.classDeclaration t sidecar := by
  have names : ∀ done site, (s.reword r).resolveName done site = s.resolveName done site := by
    intro done site
    funext written
    exact resolveName_reword respells done site written
  simp only [classDeclaration, TypeDecl.qualifiedName_reword, TypeDecl.space_reword,
    TypeDecl.name_reword, TypeDecl.summary_reword, TypeDecl.bases_reword, TypeDecl.members_reword,
    resolveBase_reword respells, names, resolveMembers_reword respells]
  rfl

theorem topLevel_reword (respells : r.Respells) (t : TypeDecl) (sidecar : Sidecar) :
    (s.reword r).topLevel (t.reword r) sidecar = s.topLevel t sidecar := by
  simp only [topLevel, TypeDecl.kind_reword, TypeDecl.space_reword, TypeDecl.nested_reword,
    enumeration_reword respells, classDeclaration_reword respells, nestedEnumsIn_reword respells]

theorem declareAll_reword (respells : r.Respells) (ts : List TypeDecl) (sidecar : Sidecar) :
    (s.reword r).declareAll sidecar (TypeDecl.rewordAll r ts) = s.declareAll sidecar ts := by
  induction ts generalizing sidecar with
  | nil => rw [TypeDecl.rewordAll, declareAll, declareAll]
  | cons t more ih =>
    rw [TypeDecl.rewordAll, declareAll, declareAll, topLevel_reword respells]
    simp only [ih]

/-- Another spelling of the types changes nothing about what a file is translated to. -/
theorem translate_reword (respells : r.Respells) (sidecar : Sidecar) :
    (s.reword r).translate sidecar = s.translate sidecar := by
  have all := declareAll_reword (s := s) respells s.file.types (s.startingSidecar sidecar)
  rw [translate, translate]
  exact congrArg (fun result => (result.1.eraseDupsBy sameName, result.2)) all

end Setting
end Ambient
