import Ambient.Proofs.Index.Entries
import Ambient.Proofs.Source.Declarations
import Ambient.Proofs.Translation.Objects

/-!
# Declared types have objects

An entry that is declared by a file read from source is emitted when that file is translated: a type
at the top level under its own name, a nested enum after the class around it. Both walks go down the
same tree and pass the same namespace on.
-/
namespace Ambient

open Host

namespace Setting
variable {s : Setting} {key : String} {e : Entry} {f : File}

theorem nestedEnumsIn_eq (space : String) (ts : List TypeDecl) :
    s.nestedEnumsIn space ts = ts.flatMap (s.nestedEnums space) := by
  induction ts with
  | nil => rw [nestedEnumsIn, List.flatMap_nil]
  | cons t more ih => rw [nestedEnumsIn, ih, List.flatMap_cons]

theorem nestedEnums_eq (space : String) (t : TypeDecl) :
    s.nestedEnums space t =
      match t.kind with
      | .enumKind => [s.enumeration t (Index.placedIn space t).space]
      | .classKind => s.nestedEnumsIn (Index.placedIn space t).space t.nested
      | .interfaceKind => [] := by
  cases t with
  | mk name ownSpace kind bases summary members nested attributes =>
    rw [nestedEnums.eq_def]
    cases kind <;> rfl

/-- An enum among nested types is emitted wherever it is nested. -/
theorem exists_nestedEnum {container : Option String} {space : String} {file : Option Path}
    {ts : List TypeDecl} (source : ∀ t ∈ ts, ∃ space, t.FromSource space)
    (h : (key, e) ∈ Index.entriesOfList container space file ts)
    (enum : e.host.kind = .enumKind) :
    ∃ d ∈ s.nestedEnumsIn space ts, d.space = s.moduleName e.host.space ∧
      d.name = e.host.name := by
  refine Index.entriesOfList_induction (motive := fun _ space ts =>
    (∀ t ∈ ts, ∃ space, t.FromSource space) → ∃ d ∈ s.nestedEnumsIn space ts,
      d.space = s.moduleName e.host.space ∧ d.name = e.host.name) ?here ?inside h source
  case here =>
    intro container space ts t ht own _
    obtain ⟨rfl, rfl⟩ := Prod.mk.inj own
    have kind : t.kind = .enumKind := enum
    refine ⟨s.enumeration t (Index.placedIn space t).space, ?_, rfl, rfl⟩
    rw [nestedEnumsIn_eq, List.mem_flatMap]
    refine ⟨t, ht, ?_⟩
    rw [nestedEnums_eq, kind]
    exact List.mem_singleton_self _
  case inside =>
    intro container space ts t ht ih source
    obtain ⟨own, shape⟩ := source t ht
    obtain ⟨d, hd, names⟩ := ih fun u hu => ⟨own, shape.of_nested hu⟩
    -- only a class holds anything
    have kind : t.kind = .classKind := by
      by_contra other
      rw [shape.nested_nil other, nestedEnumsIn] at hd
      cases hd
    refine ⟨d, ?_, names⟩
    rw [nestedEnumsIn_eq, List.mem_flatMap]
    refine ⟨t, ht, ?_⟩
    rw [nestedEnums_eq, kind]
    exact hd

/-- What is emitted for nested types are enums. -/
theorem exists_enumeration {d : Declaration} {space : String} {ts : List TypeDecl}
    (h : d ∈ s.nestedEnumsIn space ts) : ∃ t inner, d = s.enumeration t inner := by
  rw [nestedEnumsIn_eq] at h
  obtain ⟨t, ht, hd⟩ := List.mem_flatMap.mp h
  rw [nestedEnums_eq] at hd
  split at hd
  · exact ⟨t, _, List.mem_singleton.mp hd⟩
  · exact exists_enumeration hd
  · cases hd
termination_by sizeOf ts
decreasing_by
  have := List.sizeOf_lt_of_mem ht
  cases t
  simp only [TypeDecl.mk.sizeOf_spec] at *
  omega

/-- They refer to nothing. -/
theorem enum_of_mem_nestedEnumsIn {d : Declaration} {space : String} {ts : List TypeDecl}
    (h : d ∈ s.nestedEnumsIn space ts) : d.isEnum = true ∧ d.references = [] := by
  obtain ⟨t, inner, rfl⟩ := exists_enumeration h
  exact ⟨rfl, rfl⟩

theorem space_placedIn_empty (t : TypeDecl) : (Index.placedIn "" t).space = t.space := by
  unfold Index.placedIn
  split
  · rename_i empty
    exact (String.isEmpty_iff.mp empty).symm
  · rfl

theorem exists_object {sidecar : Sidecar} (source : f.FromSource)
    (h : (key, e) ∈ Index.entriesOfFile f) (declared : e.isDeclared = true) :
    ∃ d ∈ f.types.flatMap (s.objectsOf sidecar),
      d.space = s.moduleName e.host.space ∧ d.name = e.host.name := by
  simp only [Entry.isDeclared, Bool.and_eq_true, Bool.or_eq_true, bne_iff_ne,
    Bool.not_eq_true'] at declared
  obtain ⟨⟨hasFile, notInterface⟩, place⟩ := declared
  have own := Index.mem_of_mem_entriesOfFile h hasFile
  obtain ⟨t, ht, nested | same⟩ := Index.mem_entriesOfList.mp own
  · have inner := Index.isNested_of_mem_entriesOfList nested
    rw [inner] at place
    have enum : e.host.kind = .enumKind := by simpa [TypeDecl.isEnum] using place
    obtain ⟨space, _, shape⟩ := source.types t ht
    obtain ⟨d, hd, names⟩ := exists_nestedEnum (s := s)
      (fun u hu => ⟨space, shape.of_nested hu⟩) nested enum
    have kind : t.kind = .classKind := by
      by_contra other
      rw [shape.nested_nil other, nestedEnumsIn] at hd
      cases hd
    refine ⟨d, List.mem_flatMap.mpr ⟨t, ht, ?_⟩, names⟩
    rw [space_placedIn_empty] at hd
    rw [objectsOf, kind]
    exact List.mem_cons_of_mem _ hd
  · obtain ⟨rfl, rfl⟩ := Prod.mk.inj same
    have space := space_placedIn_empty t
    have here : (Index.placedIn "" t).kind = t.kind := rfl
    cases kind : t.kind with
    | interfaceKind => exact absurd (here.trans kind) notInterface
    | enumKind =>
      refine ⟨s.enumeration t t.space, List.mem_flatMap.mpr ⟨t, ht, ?_⟩, ?_, rfl⟩
      · rw [objectsOf, kind]
        exact List.mem_singleton_self _
      · exact congrArg s.moduleName space.symm
    | classKind =>
      refine ⟨s.classObject sidecar t, List.mem_flatMap.mpr ⟨t, ht, ?_⟩, ?_, rfl⟩
      · rw [objectsOf, kind]
        exact List.mem_cons_self
      · exact congrArg s.moduleName space.symm

end Setting

end Ambient
