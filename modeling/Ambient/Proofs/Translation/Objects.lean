import Ambient.Proofs.Index.Entries
import Ambient.Proofs.Resolution.Base
import Ambient.Proofs.Sidecar.Homes
import Ambient.Translation

/-!
# The objects of a file

Translating a file threads a sidecar through its types. Here each object is given on its own, next
to the types that are met for it; the translation is the list of these objects, the first of each
name, and the sidecar with the homes of all types met, in order.

A translation changes nothing in a sidecar but the homes of types. From the sidecar it leaves, the
same translation gives the same again.
-/
namespace Ambient

open Host

namespace Setting

/-- The place of what is written in a class at the top level of the file. -/
def siteOf (s : Setting) (t : TypeDecl) : Site :=
  ⟨t.space, [t.qualifiedName], s.moduleName t.space⟩

/-- What the search for the base of a class finds. -/
def baseFound (s : Setting) (sidecar : Sidecar) (t : TypeDecl) : Option FoundBase :=
  s.searchBase sidecar [] (t.bases.map (s.siteOf t, ·))

/-- A base as it is named in the object. -/
def baseName (s : Setting) : FoundBase → QualifiedName
  | .declared _ e => ⟨s.moduleName e.host.space, e.host.name⟩
  | .known home => ⟨s.moduleName (splitQualified home.typeName).space,
      (splitQualified home.typeName).name⟩

def memberVisits (s : Setting) (sidecar : Sidecar) (t : TypeDecl) : List FoundBase :=
  (t.members.filter (!·.isIgnored)).flatMap fun m =>
    m.subject?.elim [] (s.visits sidecar [t.qualifiedName] (s.siteOf t))

/-- The types met for a class, those of its base first. -/
def classVisits (s : Setting) (sidecar : Sidecar) (t : TypeDecl) : List FoundBase :=
  (s.baseFound sidecar t).toList ++ s.memberVisits sidecar t

def classMembers (s : Setting) (sidecar : Sidecar) (t : TypeDecl) : List Ambient.Member :=
  (t.members.filter (!·.isIgnored)).map fun m =>
    m.declare s.options
      (m.subject?.elim .unknown (s.typeOf sidecar [t.qualifiedName] (s.siteOf t)))

/-- The object of a class. -/
def classObject (s : Setting) (sidecar : Sidecar) (t : TypeDecl) : Declaration where
  name := t.name
  space := s.moduleName t.space
  isEnum := false
  base := (s.baseFound sidecar t).map s.baseName
  summary := t.summary
  members := s.classMembers sidecar t
  references := ((s.classVisits sidecar t).filterMap s.outputOf?).foldl Path.insertNew []

/-- The objects that a type at the top level of the file gives. -/
def objectsOf (s : Setting) (sidecar : Sidecar) (t : TypeDecl) : List Declaration :=
  match t.kind with
  | .interfaceKind => []
  | .enumKind => [s.enumeration t t.space]
  | .classKind => s.classObject sidecar t :: s.nestedEnumsIn t.space t.nested

/-- The types met for a type at the top level of the file. -/
def visitsOf (s : Setting) (sidecar : Sidecar) (t : TypeDecl) : List FoundBase :=
  match t.kind with
  | .classKind => s.classVisits sidecar t
  | _ => []

/-- The homes recorded for a list of types. -/
def homesOf (s : Setting) (sidecar : Sidecar) (types : List TypeDecl) : List TypeHome :=
  (types.flatMap (s.visitsOf sidecar)).filterMap s.homeOf?

variable {s : Setting} {sidecar : Sidecar}

theorem resolveBase_apply (t : TypeDecl) (trail : Trail) (steady : s.Steady sidecar trail) :
    s.resolveBase (s.siteOf t) t.bases trail =
        ((s.baseFound sidecar t).map s.baseName,
          s.follow trail (s.baseFound sidecar t).toList) ∧
      s.Steady sidecar (s.follow trail (s.baseFound sidecar t).toList) := by
  have search : s.searchBase trail.sidecar [] (t.bases.map (s.siteOf t, ·)) =
      s.baseFound sidecar t :=
    searchBase_congr (fun assumes => (steady assumes).2) _ _
  unfold resolveBase
  rw [Resolving.bind_apply, Resolving.get_apply]
  simp only [search]
  cases found : s.baseFound sidecar t with
  | none => exact ⟨rfl, steady⟩
  | some v =>
    cases v with
    | declared key e =>
      obtain ⟨site, name, looked, _⟩ := lookup?_of_searchBase [] _ found
      exact ⟨rfl, steady.declared looked⟩
    | known home => exact ⟨rfl, steady.known⟩

/-- A class gives its object and records the homes of the types met for it. -/
theorem classDeclaration_eq (t : TypeDecl) (current : Sidecar)
    (steady : s.Steady sidecar ⟨[], current⟩) :
    s.classDeclaration t current =
        (s.classObject sidecar t,
          ((s.classVisits sidecar t).filterMap s.homeOf?).foldl Sidecar.record current) ∧
      s.Steady sidecar
        ⟨[], ((s.classVisits sidecar t).filterMap s.homeOf?).foldl Sidecar.record current⟩ := by
  obtain ⟨base, afterBase⟩ := resolveBase_apply t ⟨[], current⟩ steady
  obtain ⟨members, afterMembers⟩ :=
    resolveMembers_apply (fun name trail => resolveName_apply [t.qualifiedName] (s.siteOf t) name
      trail) t.members _ afterBase
  have all : s.follow (s.follow ⟨[], current⟩ (s.baseFound sidecar t).toList)
      (s.memberVisits sidecar t) = s.follow ⟨[], current⟩ (s.classVisits sidecar t) := by
    simp only [follow, classVisits, List.foldl_append]
  have run : (do
      let base ← s.resolveBase (s.siteOf t) t.bases
      let members ← resolveMembers s.options
        (s.resolveName [t.qualifiedName] (s.siteOf t)) t.members
      return (base, members) : Resolving (Option QualifiedName × List Ambient.Member))
        ⟨[], current⟩ =
      (((s.baseFound sidecar t).map s.baseName, s.classMembers sidecar t),
        s.follow ⟨[], current⟩ (s.classVisits sidecar t)) := by
    rw [Resolving.bind_apply, base, Resolving.bind_apply, members]
    exact congrArg (Prod.mk _) all
  have result : s.classDeclaration t current =
      ({ s.classObject sidecar t with
          references := (s.follow ⟨[], current⟩ (s.classVisits sidecar t)).references },
        (s.follow ⟨[], current⟩ (s.classVisits sidecar t)).sidecar) :=
    congrArg (fun r : (Option QualifiedName × List Ambient.Member) × Trail =>
      ((⟨t.name, s.moduleName t.space, false, r.1.1, t.summary, r.1.2, r.2.references⟩ :
        Declaration), r.2.sidecar)) run
  have homes := sidecar_follow (s := s) ⟨[], current⟩ (s.classVisits sidecar t)
  have after : s.Steady sidecar (s.follow ⟨[], current⟩ (s.classVisits sidecar t)) :=
    all ▸ afterMembers
  rw [result, references_follow, homes]
  exact ⟨rfl, fun assumes => ⟨(after assumes).1, homes.symm.trans (after assumes).2⟩⟩

/-- A type at the top level gives its objects and records the homes of the types met for them. -/
theorem topLevel_eq (t : TypeDecl) (current : Sidecar)
    (steady : s.Steady sidecar ⟨[], current⟩) :
    s.topLevel t current =
        (s.objectsOf sidecar t,
          ((s.visitsOf sidecar t).filterMap s.homeOf?).foldl Sidecar.record current) ∧
      s.Steady sidecar
        ⟨[], ((s.visitsOf sidecar t).filterMap s.homeOf?).foldl Sidecar.record current⟩ := by
  unfold topLevel objectsOf visitsOf
  cases t.kind with
  | interfaceKind => exact ⟨rfl, steady⟩
  | enumKind => exact ⟨rfl, steady⟩
  | classKind =>
    obtain ⟨object, after⟩ := classDeclaration_eq t current steady
    simp only [object, true_and]
    exact after

/-- The enums and classes of a file one after another. -/
theorem declareAll_eq (types : List TypeDecl) (current : Sidecar)
    (steady : s.Steady sidecar ⟨[], current⟩) :
    s.declareAll current types =
        (types.flatMap (s.objectsOf sidecar),
          (s.homesOf sidecar types).foldl Sidecar.record current) ∧
      s.Steady sidecar ⟨[], (s.homesOf sidecar types).foldl Sidecar.record current⟩ := by
  induction types generalizing current with
  | nil => exact ⟨rfl, steady⟩
  | cons t more ih =>
    obtain ⟨first, next⟩ := topLevel_eq t current steady
    obtain ⟨others, after⟩ := ih _ next
    rw [declareAll, first]
    simp only [others, homesOf, List.flatMap_cons, List.filterMap_append, List.foldl_append,
      true_and]
    exact after

/-- A translation is the list of its objects, the first of each name, and the homes of the types
met for them. -/
theorem translate_eq (sidecar : Sidecar)
    (alone : s.options.assumeExternalType = true → s.Alone) :
    let start := s.startingSidecar sidecar
    s.translate sidecar =
      ((s.file.types.flatMap (s.objectsOf start)).eraseDupsBy sameName,
        (s.homesOf start s.file.types).foldl Sidecar.record start) := by
  intro start
  unfold translate
  rw [(@declareAll_eq s start s.file.types start fun assumes => ⟨alone assumes, rfl⟩).1]

end Setting

/-- Of several objects of one name the first stays. -/
theorem exists_sameName_of_mem {d : Declaration} {ds : List Declaration} (h : d ∈ ds) :
    ∃ first ∈ ds.eraseDupsBy Setting.sameName, first.space = d.space ∧
      first.name = d.name := by
  induction size : ds.length using Nat.strongRecOn generalizing ds with
  | ind n ih =>
    cases ds with
    | nil => cases h
    | cons head more =>
      rw [List.eraseDupsBy_cons]
      by_cases same : Setting.sameName d head = true
      · simp only [Setting.sameName, Bool.and_eq_true, beq_iff_eq] at same
        exact ⟨head, List.mem_cons_self, same.1.symm, same.2.symm⟩
      · have later : d ∈ more.filter fun b => Setting.sameName b head = false := by
          rcases List.mem_cons.mp h with rfl | h
          · simp [Setting.sameName] at same
          · exact List.mem_filter.mpr ⟨h, by simpa using same⟩
        have fewer : (more.filter fun b => Setting.sameName b head = false).length < n := by
          have := List.length_filter_le (fun b => Setting.sameName b head = false) more
          simp only [List.length_cons] at size
          omega
        obtain ⟨first, hf, names⟩ := ih _ fewer later rfl
        exact ⟨first, List.mem_cons_of_mem head hf, names⟩

theorem mem_of_mem_eraseDupsBy {α : Type} {r : α → α → Bool} {x : α} {xs : List α}
    (h : x ∈ xs.eraseDupsBy r) : x ∈ xs := by
  induction size : xs.length using Nat.strongRecOn generalizing xs with
  | ind n ih =>
    cases xs with
    | nil => exact h
    | cons head more =>
      rw [List.eraseDupsBy_cons] at h
      rcases List.mem_cons.mp h with rfl | h
      · exact List.mem_cons_self
      · have fewer : (more.filter fun b => r b head = false).length < n := by
          have := List.length_filter_le (fun b => r b head = false) more
          simp only [List.length_cons] at size
          omega
        exact List.mem_cons_of_mem head (List.mem_filter.mp (ih _ fewer h rfl)).1

end Ambient

namespace Ambient

open Host

namespace Setting
variable {s : Setting} {sidecar : Sidecar}

/-- Where types elsewhere are assumed, the sidecar stays as it is. -/
theorem homes_of_alone (assumes : s.options.assumeExternalType = true) (alone : s.Alone) :
    (s.homesOf sidecar s.file.types).foldl Sidecar.record sidecar = sidecar :=
  ((@declareAll_eq s sidecar s.file.types sidecar fun _ => ⟨alone, rfl⟩).2 assumes).2

/-- The sidecar after a translation: the same but for its homes. -/
theorem sidecar_translate (alone : s.options.assumeExternalType = true → s.Alone) :
    (s.translate sidecar).2 = { sidecar with homes := (s.translate sidecar).2.homes } := by
  have start : s.startingSidecar sidecar =
      { sidecar with homes := (s.startingSidecar sidecar).homes } := by
    unfold startingSidecar
    split <;> rfl
  rw [translate_eq sidecar alone, Sidecar.foldl_record, start]

theorem settled_translate (alone : s.options.assumeExternalType = true → s.Alone)
    (settled : Sidecar.Settled sidecar.homes) : Sidecar.Settled (s.translate sidecar).2.homes := by
  have start : Sidecar.Settled (s.startingSidecar sidecar).homes := by
    unfold startingSidecar
    split
    · exact settled
    · exact List.Pairwise.nil
  rw [translate_eq sidecar alone, Sidecar.foldl_record]
  exact Sidecar.settled_foldl start

/-- A translation that starts from what it left gives the same. -/
theorem translate_translate (alone : s.options.assumeExternalType = true → s.Alone) :
    s.translate (s.translate sidecar).2 = s.translate sidecar := by
  have start : s.startingSidecar (s.translate sidecar).2 = s.startingSidecar sidecar := by
    unfold startingSidecar
    by_cases assumes : s.options.assumeExternalType = true
    · have first : s.startingSidecar sidecar = sidecar := if_pos assumes
      rw [if_pos assumes, if_pos assumes, translate_eq sidecar alone, first,
        homes_of_alone assumes (alone assumes)]
    · rw [if_neg assumes, if_neg assumes, sidecar_translate alone]
  unfold translate at start ⊢
  rw [start]

/-- In an index of one file all types are of this file. -/
theorem alone_of_own (file : File) (name : String) (root : Path) (o : Options) :
    (Setting.of file (.ofFiles name root [file]) o).Alone := by
  intro site written key e declarer looked declares
  have entry : (key, e) ∈ Index.entriesOfFile file := by
    rcases Option.or_eq_some_iff.mp looked with own | ⟨_, project⟩
    · have found := Index.get?_of_lookup? own
      exact Index.mem_of_first? ((Index.get?_ofFile file key).symm.trans found)
    · have found := Index.get?_of_lookup? project
      have first := (Index.get?_ofFiles [file] key).symm.trans found
      rw [List.flatMap_singleton] at first
      exact Index.mem_of_first? first
  have inFile := Index.mem_of_mem_entriesOfFile entry (by rw [declares]; rfl)
  have same := Index.file_of_mem_entriesOfList inFile
  rw [declares] at same
  rw [Option.some.inj same]
  exact beq_self_eq_true file.path.components

end Setting

end Ambient
