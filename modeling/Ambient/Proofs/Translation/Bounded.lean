import Ambient.Proofs.Index.Keys
import Ambient.Proofs.Resolution.Depth
import Ambient.Proofs.Translation.Declared

/-!
# Translating comes to an end

The types of a project may hold each other in any way. Still the chain of types around a type ends,
because the name of a type is longer than the name of the type around it, and the expansion of
members ends, because no type is expanded inside itself.
-/
namespace Ambient

open Host

/-- A type and the types nested in it have names that are not empty. -/
inductive Host.TypeDecl.Named : TypeDecl → Prop
  | intro {t : TypeDecl} (name : t.name ≠ "") (nested : ∀ u ∈ t.nested, Named u) : Named t

/-- All types of a file, its own and those it only knows of, have names that are not empty. -/
def Host.File.Named (f : File) : Prop := ∀ t ∈ f.types ++ f.externalTypes, t.Named

namespace Host.TypeDecl.Named
variable {t u : TypeDecl}

theorem name (h : t.Named) : t.name ≠ "" := by
  cases h with
  | intro name _ => exact name

theorem of_nested (h : t.Named) (hu : u ∈ t.nested) : u.Named := by
  cases h with
  | intro _ nested => exact nested u hu

end Host.TypeDecl.Named

namespace Index
variable {key outer : String} {e : Entry} {f : File}

theorem name_of_mem_entriesOfList {container : Option String} {space : String} {file : Option Path}
    {ts : List TypeDecl} (named : ∀ t ∈ ts, t.Named)
    (h : (key, e) ∈ entriesOfList container space file ts) : e.host.name ≠ "" := by
  refine entriesOfList_induction (motive := fun _ _ ts =>
    (∀ t ∈ ts, t.Named) → e.host.name ≠ "") ?here ?inside h named
  case here =>
    intro container space ts t ht own named
    rw [(Prod.mk.inj own).2]
    exact (named t ht).name
  case inside =>
    intro container space ts t ht ih named
    exact ih fun u hu => (named t ht).of_nested hu

theorem length_lt_qualify {name : String} (some : name ≠ "") :
    outer.length < (qualify outer name).length := by
  have long : name.length ≠ 0 := fun none => some (String.length_eq_zero_iff.mp none)
  unfold qualify
  split
  · rename_i empty
    rw [String.isEmpty_iff.mp empty]
    have zero : "".length = 0 := rfl
    omega
  · rw [String.length_append, String.length_append]
    omega

/-- The name of a nested type is longer than the name of the type around it. -/
theorem length_container_lt (named : f.Named) (h : (key, e) ∈ entriesOfFile f)
    (nested : e.container = some outer) : outer.length < key.length := by
  have spelled : key = qualify (e.container.getD e.host.space) e.host.name ∧
      e.host.name ≠ "" := by
    rcases List.mem_append.mp h with own | external
    · exact ⟨key_of_mem_entriesOfList own, name_of_mem_entriesOfList
        (fun t ht => named t (List.mem_append_left _ ht)) own⟩
    · exact ⟨key_of_mem_entriesOfList external, name_of_mem_entriesOfList
        (fun t ht => named t (List.mem_append_right _ ht)) external⟩
  rw [spelled.1, nested]
  exact length_lt_qualify spelled.2

end Index

namespace Setting
variable {s : Setting} {key outer : String} {e : Entry} {t : TypeDecl} {d : Declaration}
  {sidecar : Sidecar}

/-- An entry that a translation finds is one of the files it reads. -/
theorem exists_file_of_get? {file : File} {files : List File} {name : String} {root : Path}
    {options : Options}
    (found : (Setting.of file (.ofFiles name root files) options).get? key = some e) :
    ∃ f ∈ file :: files, (key, e) ∈ Index.entriesOfFile f := by
  rcases Option.or_eq_some_iff.mp found with here | ⟨-, there⟩
  · exact ⟨file, List.mem_cons_self,
      Index.mem_of_first? ((Index.get?_ofFile file key).symm.trans here)⟩
  · obtain ⟨f, hf, member⟩ := List.mem_flatMap.mp
      (Index.mem_of_first? ((Index.get?_ofFiles files key).symm.trans there))
    exact ⟨f, List.mem_cons_of_mem _ hf, member⟩

/-- The chain of types around a type goes on until there is none. -/
theorem outward_eq (shorter : ∀ key e outer, s.get? key = some e → e.container = some outer →
    outer.length < key.length) (key : String) :
    s.outward key = key :: ((s.get? key).bind (·.container)).elim [] s.outward := by
  rw [outward]
  split
  · rename_i none
    rw [none]
    rfl
  · rename_i outer around
    obtain ⟨e, found, nested⟩ := Option.bind_eq_some_iff.mp around
    rw [dif_pos (shorter key e outer found nested), around]
    rfl

theorem expanded_topLevel (current : Sidecar) (hd : d ∈ (s.topLevel t current).1) :
    ∀ m ∈ d.members, s.Expanded [t.qualifiedName] m.type := by
  have enumeration : ∀ u space, ∀ m ∈ (s.enumeration u space).members,
      s.Expanded [t.qualifiedName] m.type := by
    intro u space m hm
    obtain ⟨v, -, rfl⟩ := List.mem_map.mp hm
    exact .flat TypeRef.depth_unknown
  unfold topLevel at hd
  cases kind : t.kind with
  | interfaceKind => rw [kind] at hd; cases hd
  | enumKind =>
    rw [kind] at hd
    rw [List.mem_singleton.mp hd]
    exact enumeration t t.space
  | classKind =>
    rw [kind] at hd
    rcases List.mem_cons.mp hd with rfl | nested
    · exact (expanded_resolveMembers (fun name trail => expanded_resolveName _ _ name trail)
        t.members _).2
    · obtain ⟨u, space, rfl⟩ := exists_enumeration nested
      exact enumeration u space

theorem exists_of_mem_declareAll {types : List TypeDecl} {current : Sidecar}
    (hd : d ∈ (s.declareAll current types).1) :
    ∃ t ∈ types, ∃ current, d ∈ (s.topLevel t current).1 := by
  induction types generalizing current with
  | nil => cases hd
  | cons t more ih =>
    rw [declareAll] at hd
    rcases List.mem_append.mp hd with first | later
    · exact ⟨t, List.mem_cons_self, current, first⟩
    · obtain ⟨u, hu, found⟩ := ih later
      exact ⟨u, List.mem_cons_of_mem t hu, found⟩

/-- Whatever types files with named types hold: the chain of types around a type ends, the run goes
through with as many expansions one in the other as there are undeclared types, and no member of an
object has more shapes one in the other, or one type twice on the way down. -/
theorem translate_bounded (file : File) (files : List File) (name : String) (root : Path)
    (options : Options) (sidecar : Sidecar) (named : ∀ f ∈ file :: files, f.Named) :
    let s := Setting.of file (.ofFiles name root files) options
    (∀ key, s.outward key = key :: ((s.get? key).bind (·.container)).elim [] s.outward) ∧
      s.run s.undeclared.card sidecar = some (s.translate sidecar) ∧
      ∀ d ∈ (s.translate sidecar).1, ∃ t ∈ file.types, ∀ m ∈ d.members,
        s.Expanded [t.qualifiedName] m.type ∧ m.type.depth ≤ s.undeclared.card := by
  intro s
  refine ⟨outward_eq fun key e outer found nested => ?_, run_eq le_rfl sidecar, fun d hd => ?_⟩
  · obtain ⟨f, hf, member⟩ := exists_file_of_get? found
    exact Index.length_container_lt (named f hf) member nested
  · obtain ⟨t, ht, current, declared⟩ := exists_of_mem_declareAll (mem_of_mem_eraseDupsBy hd)
    refine ⟨t, ht, fun m hm => ?_⟩
    have expanded := expanded_topLevel current declared m hm
    exact ⟨expanded, expanded.depth_le.trans (Finset.card_le_card Finset.sdiff_subset)⟩

def nodeType : TypeDecl :=
  ⟨"Node", "", .classKind, [], none,
    [⟨"Next", "Node", none, none, []⟩, ⟨"End", "Leaf", none, none, []⟩], [], []⟩

def leafType : TypeDecl :=
  ⟨"Leaf", "", .classKind, [], none,
    [⟨"Up", "Node?", none, none, []⟩, ⟨"All", "List<Node>", none, none, []⟩], [], []⟩

/-- A class with two nested ones that hold each other. -/
def treeFile : File :=
  ⟨⟨"/p/Tree.cs"⟩, [],
    [⟨"Tree", "App", .classKind, [], none, [⟨"Root", "Node", none, none, []⟩],
    [nodeType, leafType], []⟩], []⟩

theorem named_treeFile : treeFile.Named := by
  have flat : ∀ t : TypeDecl, t.name ≠ "" → t.nested = [] → t.Named := fun t name none =>
    .intro name fun u hu => by rw [none] at hu; cases hu
  intro t ht
  rw [List.mem_singleton.mp ht]
  refine .intro (by decide) fun u hu => ?_
  simp only [List.mem_cons, List.not_mem_nil, or_false] at hu
  rcases hu with rfl | rfl
  · exact flat nodeType (by decide) rfl
  · exact flat leafType (by decide) rfl

/-- The two nested classes are written out one in the other, and with less room the run fails. -/
theorem translate_bounded_of_tree :
    let s := Setting.of treeFile (.ofFiles "App" ⟨"/p"⟩ [treeFile]) .default
    (∀ f ∈ [treeFile, treeFile], f.Named) ∧ s.undeclared.card = 2 ∧
      s.run 2 .empty = some (s.translate .empty) ∧ (s.run 1 .empty).isNone = true ∧
      ((s.translate .empty).1.flatMap (·.members)).map (·.type.depth) = [2] := by
  intro s
  have named : ∀ f ∈ [treeFile, treeFile], f.Named := by
    intro f hf
    simp only [List.mem_cons, List.not_mem_nil, or_false, or_self] at hf
    rw [hf]
    exact named_treeFile
  have two : s.undeclared.card = 2 := by decide +kernel
  have bounded := translate_bounded treeFile [treeFile] "App" ⟨"/p"⟩ .default .empty named
  have run : s.run s.undeclared.card .empty = some (s.translate .empty) := bounded.2.1
  rw [two] at run
  exact ⟨named, two, run, by decide +kernel, by decide +kernel⟩

end Setting

end Ambient
