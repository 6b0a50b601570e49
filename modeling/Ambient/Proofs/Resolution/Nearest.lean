import Ambient.Proofs.Index.Entries
import Ambient.Proofs.Text.Pieces
import Mathlib.Data.List.Nodup
import Mathlib.Data.List.Pairwise

/-!
# The scope that a name is found in

The qualified names that a written name may mean stand in the order of their scopes: the types
around the place from the innermost outwards, its namespace and those around it, and the imported
namespaces. One index answers with the nearest of them that it declares. A setting asks the index of
the file at hand before that of the project, so the nearest name that the file declares goes before
all names that only other files declare, those of nearer scopes included.
-/
namespace Ambient

open Host

/-- The namespace of a type is that in front of its last segment, and so on up to the global one. -/
theorem Scope.namespaces_qualify {outer segment : String} (some : segment ≠ "")
    (plain : '.' ∉ segment.toList) :
    namespaces (qualify outer segment) = qualify outer segment :: namespaces outer := by
  have one : Text.pieces (· == '.') segment.toList = [segment.toList] := by
    refine Text.pieces_of_forall fun d hd => ?_
    rw [beq_eq_false_iff_ne]
    rintro rfl
    exact plain hd
  have spelled : ∀ {text : String}, text ≠ "" →
      namespaces text = namespacesOf (Text.pieces (· == '.') text.toList).reverse :=
        fun {text} h => by
    rw [namespaces, if_neg (by simpa using h)]
  by_cases top : outer = ""
  · subst top
    show namespaces segment = segment :: [""]
    rw [spelled some, one, List.reverse_singleton, namespacesOf, namespacesOf,
      List.reverse_singleton, Text.joinWith, String.ofList_toList]
  · have inside : qualify outer segment = outer ++ "." ++ segment := by
      unfold qualify
      rw [if_neg (by simpa using top)]
    have dot : ".".toList = ['.'] := rfl
    have pieces : Text.pieces (· == '.') (qualify outer segment).toList =
        Text.pieces (· == '.') outer.toList ++ [segment.toList] := by
      rw [inside, String.toList_append, String.toList_append, dot, List.append_assoc,
        List.singleton_append, Text.pieces_append_cons rfl, one]
    have long : qualify outer segment ≠ "" := by
      intro empty
      have none := congrArg String.toList empty
      rw [inside, String.toList_append, String.toList_append, dot] at none
      simp at none
    have whole : Text.joinWith ['.'] (Text.pieces (· == '.') (qualify outer segment).toList) =
        (qualify outer segment).toList := by
      rw [Text.joinWith_eq_intercalate, Text.pieces_eq_splitOnP]
      exact List.intercalate_splitOn '.'
    rw [spelled long, spelled top, pieces, List.reverse_append, List.reverse_singleton,
      List.singleton_append, namespacesOf, List.reverse_cons, List.reverse_reverse,
      ← pieces, whole, String.ofList_toList]

namespace Index
variable {ix : Index} {files : List File} {key : String} {e : Entry} {scope : Scope}
  {written : String}

/-- The nearest name in a scope that the index declares. -/
def nearest? (ix : Index) (scope : Scope) (written : String) : Option String :=
  (scope.candidates written).find? fun key => (ix.get? key).isSome

/-- A lookup is the entry of the nearest name. -/
theorem lookup?_eq_bind (ix : Index) (scope : Scope) (written : String) :
    ix.lookup? scope written =
      (ix.nearest? scope written).bind fun key => (ix.get? key).map (key, ·) := by
  unfold lookup? nearest?
  induction scope.candidates written with
  | nil => rfl
  | cons candidate more ih =>
    rw [List.findSome?_cons, List.find?_cons]
    cases found : ix.get? candidate with
    | none => exact ih
    | some e =>
      rw [Option.isSome_some, Option.bind_some, found]
      rfl

theorem map_fst_lookup? (ix : Index) (scope : Scope) (written : String) :
    (ix.lookup? scope written).map (·.1) = ix.nearest? scope written := by
  rw [lookup?_eq_bind]
  cases nearest : ix.nearest? scope written with
  | none => rfl
  | some key =>
    have declares : (ix.get? key).isSome = true :=
      List.find?_some (p := fun key => (ix.get? key).isSome) nearest
    obtain ⟨e, found⟩ := Option.isSome_iff_exists.mp declares
    rw [Option.bind_some, found]
    rfl

/-- Every name is indexed from one type. -/
def Distinct (files : List File) : Prop := (files.flatMap keysOfFile).Nodup

theorem Distinct.apart (distinct : Distinct files) : Apart files := by
  have disjoint := (List.nodup_flatMap.mp distinct).2
  have symmetric : Std.Symm (Function.onFun List.Disjoint keysOfFile) :=
    ⟨fun _ _ apart _ inG inF => apart inF inG⟩
  intro f hf g hg key inF inG
  by_contra differ
  exact disjoint.forall hf hg differ inF inG

theorem Distinct.eq_of_mem (distinct : Distinct files) {e' : Entry}
    (h : (key, e) ∈ files.flatMap entriesOfFile)
    (h' : (key, e') ∈ files.flatMap entriesOfFile) :
    e' = e := by
  have nodup : ((files.flatMap entriesOfFile).map (·.1)).Nodup := by
    rw [List.map_flatMap]
    exact distinct
  exact (Prod.mk.inj (List.inj_on_of_nodup_map nodup h' h rfl)).2

theorem nearest?_congr {ix : Index} {keys : List String}
    (declares : ∀ key, (ix.get? key).isSome = true ↔ key ∈ keys) (scope : Scope)
    (written : String) :
    ix.nearest? scope written = (scope.candidates written).find? (· ∈ keys) := by
  unfold nearest?
  congr 1
  funext key
  rw [Bool.eq_iff_iff, declares, decide_eq_true_iff]

end Index

namespace Setting
variable {s : Setting} {file : File} {files : List File} {name : String} {root : Path}
  {options : Options} {site : Site} {written key : String} {e : Entry}

/-- The name that a lookup finds: the nearest of the file at hand, else the
nearest of the project. -/
theorem map_fst_lookup? (s : Setting) (site : Site) (written : String) :
    (s.lookup? site written).map (·.1) =
      (s.own.nearest? (s.scope site) written).or (s.project.nearest? (s.scope site) written) := by
  unfold lookup?
  rw [Option.map_or, Index.map_fst_lookup?, Index.map_fst_lookup?]

theorem isSome_own_iff :
    ((Setting.of file (.ofFiles name root files) options).own.get? key).isSome = true ↔
      key ∈ Index.keysOfFile file := by
  show (((Index.empty _ _).addFile file).get? key).isSome = true ↔ _
  rw [Index.get?_ofFile, Index.isSome_first?_iff]
  rfl

theorem isSome_project_iff :
    ((Setting.of file (.ofFiles name root files) options).project.get? key).isSome = true ↔
      key ∈ files.flatMap Index.keysOfFile := by
  show ((Index.ofFiles name root files).get? key).isSome = true ↔ _
  rw [Index.get?_ofFiles, Index.isSome_first?_iff, List.map_flatMap]
  rfl

/-- What a lookup finds is indexed from a file of the project. -/
theorem mem_entries_of_lookup? (mem : file ∈ files)
    (found : (Setting.of file (.ofFiles name root files) options).lookup? site written =
      some (key, e)) : (key, e) ∈ files.flatMap Index.entriesOfFile := by
  rcases Option.or_eq_some_iff.mp found with own | ⟨-, project⟩
  · have here := (Index.get?_ofFile file key).symm.trans (Index.get?_of_lookup? own)
    exact List.mem_flatMap.mpr ⟨file, mem, Index.mem_of_first? here⟩
  · have there := (Index.get?_ofFiles files key).symm.trans (Index.get?_of_lookup? project)
    exact Index.mem_of_first? there

end Setting

/-- The names that a written name may mean come from the types around the place, innermost first,
then from its namespace and each one around it up to the global one, then from the imported
namespaces. Where every name is indexed from one type, the written name means the nearest of them
that the file at hand declares, else the nearest that any file declares. So it means the nearest of
all exactly if the file declares none of the types in question, or declares the nearest itself. -/
theorem lookup?_nearest {file : File} {files : List File} (distinct : Index.Distinct files)
    (mem : file ∈ files) (name : String) (root : Path) (options : Options) (site : Site)
    (written : String) :
    let s := Setting.of file (.ofFiles name root files) options
    let candidates := (s.scope site).candidates written
    let here := candidates.find? (· ∈ Index.keysOfFile file)
    let anywhere := candidates.find? (· ∈ files.flatMap Index.keysOfFile)
    candidates = (site.containers.reverse ++ Scope.namespaces site.space ++ file.usings).map
        (qualify · written) ∧
      (∀ outer segment, segment ≠ "" → '.' ∉ segment.toList →
        Scope.namespaces (qualify outer segment) =
          qualify outer segment :: Scope.namespaces outer) ∧
      Scope.namespaces "" = [""] ∧
      (s.lookup? site written).map (·.1) = here.or anywhere ∧
      (∀ key e, s.lookup? site written = some (key, e) →
        ∀ e', (key, e') ∈ files.flatMap Index.entriesOfFile ↔ e' = e) ∧
      ((s.lookup? site written).map (·.1) = anywhere ↔ here = none ∨ here = anywhere) := by
  intro s candidates here anywhere
  have found : (s.lookup? site written).map (·.1) = here.or anywhere := by
    rw [Setting.map_fst_lookup?, Index.nearest?_congr fun _ => Setting.isSome_own_iff,
      Index.nearest?_congr fun _ => Setting.isSome_project_iff]
  refine ⟨rfl, fun _ _ => Scope.namespaces_qualify, rfl, found, fun key e looked e' => ?_, ?_⟩
  · have entry := Setting.mem_entries_of_lookup? mem looked
    constructor
    · exact distinct.eq_of_mem entry
    · rintro rfl
      exact entry
  · rw [found]
    cases here with
    | none => simp
    | some key => simp

/-- A class in an inner namespace that mentions `Status`, and a type of this name in the namespace
around it. -/
def saleFile : File :=
  ⟨⟨"/p/Sale.cs"⟩, [],
    [⟨"Sale", "Shop.Sales", .classKind, [], none,
      [⟨"State", "Status", none, none, []⟩], [], []⟩,
      ⟨"Status", "Shop", .classKind, [], none, [], [], []⟩], []⟩

/-- A type of this name in the inner namespace. -/
def statusFile : File :=
  ⟨⟨"/p/Status.cs"⟩, [],
    [⟨"Status", "Shop.Sales", .classKind, [], none, [], [], []⟩], []⟩

theorem distinct_sale : Index.Distinct [saleFile, statusFile] := by
  unfold Index.Distinct
  decide +kernel

/-- In the other file the name means the type of its own namespace, the nearest. -/
theorem lookup?_nearest_of_status :
    let s := Setting.of statusFile (.ofFiles "App" ⟨"/p"⟩ [saleFile, statusFile]) .default
    Index.Distinct [saleFile, statusFile] ∧ statusFile ∈ [saleFile, statusFile] ∧
      (s.lookup? ⟨"Shop.Sales", ["Shop.Sales.Status"], "Shop.Sales"⟩ "Status").map (·.1) =
        some "Shop.Sales.Status" := by
  intro s
  have mem : statusFile ∈ [saleFile, statusFile] := List.mem_cons_of_mem _ List.mem_cons_self
  refine ⟨distinct_sale, mem, ?_⟩
  rw [(lookup?_nearest distinct_sale mem "App" ⟨"/p"⟩ .default _ _).2.2.2.1]
  decide +kernel

/-- The type of the namespace around goes before the nearer one, which another file declares. -/
theorem lookup?_passes_nearest :
    let files := [saleFile, statusFile]
    let s := Setting.of saleFile (.ofFiles "App" ⟨"/p"⟩ files) .default
    let site : Site := ⟨"Shop.Sales", ["Shop.Sales.Sale"], "Shop.Sales"⟩
    Index.Distinct files ∧ saleFile ∈ files ∧
      ((s.scope site).candidates "Status").find? (· ∈ files.flatMap Index.keysOfFile) =
        some "Shop.Sales.Status" ∧
      (s.lookup? site "Status").map (·.1) = some "Shop.Status" := by
  intro files s site
  exact ⟨distinct_sale, List.mem_cons_self, by decide +kernel, by decide +kernel⟩

end Ambient
