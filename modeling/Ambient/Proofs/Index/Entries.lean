import Ambient.Resolution.Site
import Mathlib.Data.List.Basic

/-!
# Where the entries of an index come from

An index answers with the first entry of a name among the entries of its files, in the order of
the files. The entries of a file come from its declarations, and one that is not nested comes
from the top level.

An index answers with the first entry of a name, so in general it matters in which order files are
added. Where no name comes from two different files, the first entry of a name in one file is the
first in all of them, wherever that file stands.
-/
namespace Ambient

open Host

namespace Index
variable {ix : Index} {name key : String} {root : Path} {e : Entry}

/-- The first entry of a name in a list of entries. -/
def first? (entries : List (String × Entry)) (key : String) : Option Entry :=
  (entries.find? (·.1 == key)).map (·.2)

theorem get?_eq (ix : Index) (key : String) : ix.get? key = first? ix.entries key := rfl

theorem first?_append (a b : List (String × Entry)) (key : String) :
    first? (a ++ b) key = (first? a key).or (first? b key) := by
  unfold first?
  rw [List.find?_append]
  cases a.find? (·.1 == key) <;> rfl

theorem mem_of_first? {entries : List (String × Entry)} (h : first? entries key = some e) :
    (key, e) ∈ entries := by
  obtain ⟨found, hf, rfl⟩ := Option.map_eq_some_iff.mp h
  have same := List.find?_some hf
  rw [← beq_iff_eq.mp same]
  exact List.mem_of_find?_eq_some hf

theorem isSome_first?_iff {entries : List (String × Entry)} :
    (first? entries key).isSome = true ↔ key ∈ entries.map (·.1) := by
  unfold first?
  rw [Option.isSome_map, List.find?_isSome, List.mem_map]
  simp only [beq_iff_eq]

theorem mem_keys_iff : key ∈ ix.keys ↔ (ix.get? key).isSome = true :=
  isSome_first?_iff.symm

theorem get?_addNew (entry : String × Entry) (key : String) :
    (ix.addNew entry).get? key = (ix.get? key).or (first? [entry] key) := by
  unfold addNew
  split
  · rename_i known
    by_cases same : entry.1 = key
    · obtain ⟨e, he⟩ := Option.isSome_iff_exists.mp known
      rw [← same, he]
      rfl
    · simp [first?, same]
  · rw [get?_eq, first?_append]
    rfl

theorem get?_foldl_addNew (entries : List (String × Entry)) (key : String) :
    (entries.foldl addNew ix).get? key = (ix.get? key).or (first? entries key) := by
  induction entries generalizing ix with
  | nil => simp [first?]
  | cons entry more ih =>
    rw [List.foldl_cons, ih, get?_addNew, Option.or_assoc, ← first?_append]
    rfl

theorem get?_foldl_addFile (files : List File) (key : String) :
    (files.foldl addFile ix).get? key =
      (ix.get? key).or (first? (files.flatMap entriesOfFile) key) := by
  induction files generalizing ix with
  | nil => simp [first?]
  | cons f more ih =>
    rw [List.foldl_cons, ih, addFile, get?_foldl_addNew, Option.or_assoc, ← first?_append,
      List.flatMap_cons]

/-- An index answers with the first entry of a name. -/
theorem get?_ofFiles (files : List File) (key : String) :
    (ofFiles name root files).get? key = first? (files.flatMap entriesOfFile) key :=
  get?_foldl_addFile files key

theorem get?_ofFile (f : File) (key : String) :
    ((empty name root).addFile f).get? key = first? (entriesOfFile f) key :=
  get?_foldl_addNew (entriesOfFile f) key

theorem root_ofFiles (files : List File) :
    (ofFiles name root files).root = root ∧ (ofFiles name root files).name = name := by
  have kept : ∀ (entries : List (String × Entry)) (ix : Index),
      (entries.foldl addNew ix).root = ix.root ∧ (entries.foldl addNew ix).name = ix.name := by
    intro entries ix
    induction entries generalizing ix with
    | nil => exact ⟨rfl, rfl⟩
    | cons entry more ih =>
      obtain ⟨rootKept, nameKept⟩ := ih (ix.addNew entry)
      rw [List.foldl_cons, rootKept, nameKept, addNew]
      split <;> exact ⟨rfl, rfl⟩
  have all : ∀ (files : List File) (ix : Index),
      (files.foldl addFile ix).root = ix.root ∧ (files.foldl addFile ix).name = ix.name := by
    intro files ix
    induction files generalizing ix with
    | nil => exact ⟨rfl, rfl⟩
    | cons f more ih =>
      obtain ⟨rootKept, nameKept⟩ := ih (ix.addFile f)
      rw [List.foldl_cons, rootKept, nameKept]
      exact kept (entriesOfFile f) ix
  exact all files (empty name root)

theorem lookup?_congr {a b : Index} (same : ∀ key, a.get? key = b.get? key) (scope : Scope)
    (written : String) : a.lookup? scope written = b.lookup? scope written := by
  simp only [lookup?, same]

theorem mem_candidates_of_lookup? {scope : Scope} {written : String}
    (h : ix.lookup? scope written = some (key, e)) : key ∈ scope.candidates written := by
  obtain ⟨candidate, hc, found⟩ := List.exists_of_findSome?_eq_some h
  obtain ⟨e', he, same⟩ := Option.map_eq_some_iff.mp found
  rw [← (Prod.mk.inj same).1]
  exact hc

theorem get?_of_lookup?_eq_none {scope : Scope} {written : String}
    (h : ix.lookup? scope written = none) (candidate : key ∈ scope.candidates written) :
    ix.get? key = none := by
  have missing := List.findSome?_eq_none_iff.mp h key candidate
  exact Option.map_eq_none_iff.mp missing

theorem get?_of_lookup? {scope : Scope} {written : String}
    (h : ix.lookup? scope written = some (key, e)) : ix.get? key = some e := by
  obtain ⟨candidate, _, found⟩ := List.exists_of_findSome?_eq_some h
  obtain ⟨e', he, same⟩ := Option.map_eq_some_iff.mp found
  cases same
  exact he

section Entries
variable {container : Option String} {space : String} {file : Option Path}

/-- A type in a namespace, with a name of its own. -/
def placedIn (space : String) (t : TypeDecl) : TypeDecl :=
  { t with space := if t.space.isEmpty then space else t.space }

/-- The name under which a type is indexed. -/
def keyOf (container : Option String) (space : String) (t : TypeDecl) : String :=
  match container with
  | some outer => qualify outer t.name
  | none => qualify (placedIn space t).space t.name

theorem entriesOf_eq (t : TypeDecl) :
    entriesOf container space file t =
      entriesOfList (some (keyOf container space t)) (placedIn space t).space file t.nested ++
        [(keyOf container space t, ⟨placedIn space t, container, file⟩)] := by
  cases t
  rw [entriesOf.eq_def]
  cases container <;> rfl

theorem entriesOfList_eq (ts : List TypeDecl) :
    entriesOfList container space file ts = ts.flatMap (entriesOf container space file) := by
  induction ts with
  | nil => rw [entriesOfList, List.flatMap_nil]
  | cons t more ih => rw [entriesOfList, ih, List.flatMap_cons]

theorem mem_entriesOfList {ts : List TypeDecl} {entry : String × Entry} :
    entry ∈ entriesOfList container space file ts ↔
      ∃ t ∈ ts, entry ∈ entriesOfList (some (keyOf container space t))
        (placedIn space t).space file t.nested ∨
        entry = (keyOf container space t, ⟨placedIn space t, container, file⟩) := by
  rw [entriesOfList_eq, List.mem_flatMap]
  simp only [entriesOf_eq, List.mem_append, List.mem_singleton]

/-- Induction on where an entry comes from: a type of the list, or what is nested in one. -/
theorem entriesOfList_induction {entry : String × Entry}
    {motive : Option String → String → List TypeDecl → Prop}
    (here : ∀ container space ts t, t ∈ ts →
      entry = (keyOf container space t, ⟨placedIn space t, container, file⟩) →
      motive container space ts)
    (inside : ∀ container space ts t, t ∈ ts →
      motive (some (keyOf container space t)) (placedIn space t).space t.nested →
      motive container space ts)
    {container : Option String} {space : String} {ts : List TypeDecl}
    (h : entry ∈ entriesOfList container space file ts) : motive container space ts := by
  obtain ⟨t, ht, nested | own⟩ := mem_entriesOfList.mp h
  · exact inside container space ts t ht (entriesOfList_induction here inside nested)
  · exact here container space ts t ht own
termination_by sizeOf ts
decreasing_by
  have := List.sizeOf_lt_of_mem ht
  cases t
  simp only [TypeDecl.mk.sizeOf_spec] at *
  omega

theorem file_of_mem_entriesOfList {ts : List TypeDecl} {key : String} {e : Entry}
    (h : (key, e) ∈ entriesOfList container space file ts) : e.file = file := by
  refine entriesOfList_induction (motive := fun _ _ _ => e.file = file) ?here ?inside h
  case here =>
    intro container space ts t _ own
    rw [(Prod.mk.inj own).2]
  case inside =>
    intro _ _ _ _ _ ih
    exact ih

theorem isNested_of_mem_entriesOfList {outer : String} {ts : List TypeDecl} {key : String}
    {e : Entry} (h : (key, e) ∈ entriesOfList (some outer) space file ts) :
    e.isNested = true := by
  refine entriesOfList_induction (motive := fun container _ _ =>
    container.isSome = true → e.isNested = true) ?here ?inside h rfl
  case here =>
    intro container space ts t _ own nested
    rw [(Prod.mk.inj own).2]
    exact nested
  case inside =>
    intro _ _ _ _ _ ih _
    exact ih rfl

end Entries

/-- An entry that a file declares is one of the file's own types or is nested in one. -/
theorem mem_of_mem_entriesOfFile {f : File} (h : (key, e) ∈ entriesOfFile f)
    (declared : e.file.isSome = true) :
    (key, e) ∈ entriesOfList none "" (some f.path) f.types := by
  rcases List.mem_append.mp h with own | external
  · exact own
  · rw [file_of_mem_entriesOfList external] at declared
    cases declared

end Index

end Ambient

namespace Ambient

open Host

namespace Index
variable {ix : Index} {files : List File} {key : String} {e : Entry}

/-- Two indexes of one project that give the same answers. -/
structure Alike (a b : Index) : Prop where
  name : a.name = b.name
  root : a.root = b.root
  get? : ∀ key, a.get? key = b.get? key

/-- The names under which the types of a file are indexed. -/
def keysOfFile (f : File) : List String := (entriesOfFile f).map (·.1)

/-- No name is indexed from two different files. -/
def Apart (files : List File) : Prop :=
  ∀ f ∈ files, ∀ g ∈ files, ∀ key ∈ keysOfFile f, key ∈ keysOfFile g → f = g

theorem mem_keysOfFile_of_first? {f : File} (h : first? (entriesOfFile f) key = some e) :
    key ∈ keysOfFile f :=
  List.mem_map_of_mem (mem_of_first? h)

theorem Apart.perm {others : List File} (apart : Apart files) (perm : files.Perm others) :
    Apart others := by
  intro f hf g hg
  exact apart f (perm.mem_iff.mpr hf) g (perm.mem_iff.mpr hg)

/-- The entry of a name is that of the file it comes from. -/
theorem first?_flatMap_iff (apart : Apart files) :
    first? (files.flatMap entriesOfFile) key = some e ↔
      ∃ f ∈ files, first? (entriesOfFile f) key = some e := by
  induction files with
  | nil => simp [first?]
  | cons g more ih =>
    have later : Apart more := fun f hf k hk =>
      apart f (List.mem_cons_of_mem g hf) k (List.mem_cons_of_mem g hk)
    rw [List.flatMap_cons, first?_append]
    constructor
    · intro found
      rcases Option.or_eq_some_iff.mp found with here | ⟨_, there⟩
      · exact ⟨g, List.mem_cons_self, here⟩
      · obtain ⟨f, hf, inside⟩ := (ih later).mp there
        exact ⟨f, List.mem_cons_of_mem g hf, inside⟩
    · rintro ⟨f, hf, inside⟩
      apply Option.or_eq_some_iff.mpr
      cases here : first? (entriesOfFile g) key with
      | some first =>
        -- `f` and `g` share the name, so they are one file
        have same : f = g := apart f hf g List.mem_cons_self key
          (mem_keysOfFile_of_first? inside) (mem_keysOfFile_of_first? here)
        rw [same, here] at inside
        exact .inl inside
      | none =>
        refine .inr ⟨rfl, (ih later).mpr ?_⟩
        rcases List.mem_cons.mp hf with rfl | hf
        · rw [here] at inside
          cases inside
        · exact ⟨f, hf, inside⟩

theorem first?_flatMap_perm {others : List File} (perm : files.Perm others)
    (apart : Apart files) (key : String) :
    first? (files.flatMap entriesOfFile) key = first? (others.flatMap entriesOfFile) key := by
  apply Option.ext
  intro e
  rw [first?_flatMap_iff apart, first?_flatMap_iff (apart.perm perm)]
  simp only [perm.mem_iff]

/-- Behind a first file, the order of files that share no name does not matter. -/
theorem ofFiles_perm (first : File) {others : List File} (perm : files.Perm others)
    (apart : Apart files) (name : String) (root : Path) :
    Alike (ofFiles name root (first :: files)) (ofFiles name root (first :: others)) where
  name := (root_ofFiles _).2.trans (root_ofFiles _).2.symm
  root := (root_ofFiles _).1.trans (root_ofFiles _).1.symm
  get? key := by
    simp only [get?_ofFiles, List.flatMap_cons, first?_append, first?_flatMap_perm perm apart]

end Index

end Ambient
