import Ambient.Index
import Ambient.Naming

/-! Where names of types are resolved while a file is translated: the declarations of the file
itself come before those of the project. -/
namespace Ambient

open Host

/-- What a translation reads. `own` holds the file alone; the project's index may hold nothing more
when types elsewhere are assumed to exist. -/
structure Setting where
  file : File
  own : Index
  project : Index
  options : Options
  naming : OutputNaming

def Setting.of (file : File) (project : Index) (options : Options) : Setting where
  file := file
  own := (Index.empty project.name project.root).addFile file
  project := project
  options := options
  naming := .ofOptions options

/-- A place in a type: its namespace, the types around it with the outermost first, and the module
of the object that is being made. -/
structure Site where
  space : String
  containers : List String
  module_ : String

namespace Setting

def moduleName (s : Setting) (space : String) : String :=
  if space.isEmpty then s.options.defaultModuleName else space

def scope (s : Setting) (site : Site) : Scope := ⟨site.space, s.file.usings, site.containers⟩

def lookup? (s : Setting) (site : Site) (written : String) : Option (String × Entry) :=
  (s.own.lookup? (s.scope site) written).or (s.project.lookup? (s.scope site) written)

def get? (s : Setting) (key : String) : Option Entry := (s.own.get? key).or (s.project.get? key)

/-- All names that a lookup can find. -/
def keys (s : Setting) : List String := s.own.keys ++ s.project.keys

/-- A type and the types around it, innermost first. A name is longer than the name of the type
around it, unless both are empty; the chain is cut at such a name, which lies in itself. -/
def outward (s : Setting) (key : String) : List String :=
  match (s.get? key).bind (·.container) with
  | none => [key]
  | some container =>
    if _h : container.length < key.length then key :: s.outward container else [key]
termination_by key.length

/-- The place inside an indexed type. -/
def siteIn (s : Setting) (module_ : String) (key : String) (host : TypeDecl) : Site :=
  ⟨host.space, (s.outward key).reverse, module_⟩

/-- How many names are left to expand beyond those in `done`. -/
def remaining (s : Setting) (done : List String) : Nat :=
  (s.keys.filter fun key => !done.contains key).length

theorem mem_keys_of_lookup? {s : Setting} {site : Site} {written key : String} {e : Entry}
    (h : s.lookup? site written = some (key, e)) : key ∈ s.keys := by
  unfold lookup? at h
  unfold keys
  cases ho : s.own.lookup? (s.scope site) written with
  | some found =>
    rw [ho] at h
    simp at h
    subst h
    exact List.mem_append_left _ (Index.mem_keys_of_lookup? ho)
  | none =>
    rw [ho] at h
    simp at h
    exact List.mem_append_right _ (Index.mem_keys_of_lookup? h)

theorem remaining_lt {s : Setting} {done : List String} {key : String} (hk : key ∈ s.keys)
    (hd : ¬ done.contains key) : s.remaining (key :: done) < s.remaining done := by
  unfold remaining
  have split : s.keys.filter (fun k => !(key :: done).contains k) =
      (s.keys.filter fun k => !done.contains k).filter fun k => !decide (k = key) := by
    rw [List.filter_filter]
    apply List.filter_congr
    intro k _
    simp
  rw [split, List.length_filter_lt_length_iff_exists]
  exact ⟨key, List.mem_filter.mpr ⟨hk, by simpa using hd⟩, by simp⟩

/-- A type's name as written in a member: with its module where that is another one. -/
def displayName (s : Setting) (site : Site) (space name : String) : String :=
  let typeName := s.options.typeName name
  let module_ := s.moduleName space
  if module_ ≠ site.module_ ∧ !s.options.globalScope then module_ ++ "." ++ typeName
  else typeName

/-- The path of a file below the project root, or all of it when it lies elsewhere. -/
def itemName (s : Setting) (file : Path) : String :=
  match s.project.root.below? file with
  | some components => Path.joined components
  | none => file.text

end Setting

/-- What a translation leaves behind besides the objects: the outputs an object refers to, and the
sidecar with the homes of the types. -/
structure Trail where
  references : List Path
  sidecar : Sidecar

abbrev Resolving := StateM Trail

namespace Resolving

def refer (output : Path) : Resolving Unit :=
  modify fun t => { t with references := Path.insertNew t.references output }

def recordHome (home : TypeHome) : Resolving Unit :=
  modify fun t => { t with sidecar := t.sidecar.record home }

end Resolving

namespace Setting

/-- Notes that a type is used which another file declares. -/
def addReference (s : Setting) (key : String) (e : Entry) : Resolving Unit :=
  match e.file with
  | none => pure ()
  | some file => do
    if !file.same s.file.path then
      Resolving.refer (s.naming.outputPath file)
      Resolving.recordHome ⟨key, s.project.name, s.itemName file⟩

/-- The output of the file where a known type lives. -/
def homeOutput (s : Setting) (home : TypeHome) : Path :=
  s.naming.outputPath (s.project.root.join ⟨home.itemName⟩)

end Setting

/-- The part of a name before its last dot, and the part after it. -/
def splitQualified (name : String) : QualifiedName :=
  let last := Text.lastPiece (· == '.') name.toList
  ⟨String.ofList (name.toList.take (name.toList.length - last.length - 1)), String.ofList last⟩

end Ambient
