import Ambient.Host

/-! The types of a project by qualified name. The first declaration of a name stays, and a nested
type comes before the type around it. -/
namespace Ambient

open Host

/-- A type with the qualified name of the type around it and the file that declares it, if any. -/
structure Entry where
  host : TypeDecl
  container : Option String
  file : Option Path
  deriving Repr

namespace Entry

def isNested (e : Entry) : Bool := e.container.isSome

/-- Whether a type gets a declaration of its own: classes and enums that are not nested, and nested
enums, as far as a file declares them. -/
def isDeclared (e : Entry) : Bool :=
  e.file.isSome && e.host.kind != .interfaceKind && (!e.isNested || e.host.isEnum)

end Entry

/-- Where a written name is looked up; the types around it come innermost last. -/
structure Scope where
  space : String
  usings : List String
  containers : List String
  deriving Repr

namespace Scope

def namespacesOf : List (List Char) → List String
  | [] => [""]
  | last :: outer =>
    String.ofList (Text.joinWith ['.'] (last :: outer).reverse) :: namespacesOf outer

/-- A namespace, those around it, and the global one. -/
def namespaces (space : String) : List String :=
  if space.isEmpty then [""] else namespacesOf (Text.pieces (· == '.') space.toList).reverse

/-- The qualified names that a written name may mean, nearest first. -/
def candidates (s : Scope) (written : String) : List String :=
  (s.containers.reverse ++ namespaces s.space ++ s.usings).map fun outer => qualify outer written

end Scope

structure Index where
  name : String
  root : Path
  entries : List (String × Entry)
  deriving Repr

namespace Index

def empty (name : String) (root : Path) : Index := ⟨name, root, []⟩

def keys (ix : Index) : List String := ix.entries.map (·.1)

def get? (ix : Index) (key : String) : Option Entry :=
  (ix.entries.find? (·.1 == key)).map (·.2)

mutual
/-- The entries of a type and the types nested in it. A type without a namespace has that of the
type around it. -/
def entriesOf (container : Option String) (space : String) (file : Option Path) :
    TypeDecl → List (String × Entry)
  | ⟨name, ownSpace, kind, bases, summary, members, nested, attributes⟩ =>
    let here := if ownSpace.isEmpty then space else ownSpace
    let key := match container with
      | some outer => qualify outer name
      | none => qualify here name
    entriesOfList (some key) here file nested ++
      [(key, ⟨⟨name, here, kind, bases, summary, members, nested, attributes⟩, container,
        file⟩)]

def entriesOfList (container : Option String) (space : String) (file : Option Path) :
    List TypeDecl → List (String × Entry)
  | [] => []
  | t :: more => entriesOf container space file t ++ entriesOfList container space file more
end

/-- The entries of a file: its own types, then those it only knows of. -/
def entriesOfFile (f : File) : List (String × Entry) :=
  entriesOfList none "" (some f.path) f.types ++ entriesOfList none "" none f.externalTypes

def addNew (ix : Index) (entry : String × Entry) : Index :=
  if (ix.get? entry.1).isSome then ix else { ix with entries := ix.entries ++ [entry] }

def addFile (ix : Index) (f : File) : Index := (entriesOfFile f).foldl addNew ix

def ofFiles (name : String) (root : Path) (files : List File) : Index :=
  files.foldl addFile (empty name root)

/-- The type that a written name means. -/
def lookup? (ix : Index) (scope : Scope) (written : String) : Option (String × Entry) :=
  (scope.candidates written).findSome? fun key => (ix.get? key).map (key, ·)

theorem mem_keys_of_get? {ix : Index} {key : String} {e : Entry} (h : ix.get? key = some e) :
    key ∈ ix.keys := by
  unfold get? at h
  cases hf : ix.entries.find? (·.1 == key) with
  | none => simp [hf] at h
  | some found =>
    have hm := List.mem_of_find?_eq_some hf
    have hk := List.find?_some hf
    simp only [beq_iff_eq] at hk
    exact List.mem_map.mpr ⟨found, hm, hk⟩

theorem mem_keys_of_lookup? {ix : Index} {scope : Scope} {written key : String} {e : Entry}
    (h : ix.lookup? scope written = some (key, e)) : key ∈ ix.keys := by
  obtain ⟨candidate, _, hc⟩ := List.exists_of_findSome?_eq_some h
  cases hg : ix.get? candidate with
  | none => simp [hg] at hc
  | some found =>
    simp [hg] at hc
    exact hc.1 ▸ mem_keys_of_get? hg

end Index

end Ambient
