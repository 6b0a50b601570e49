import Ambient.Proofs.Host.Nesting
import Ambient.Proofs.Translation.Declared

/-!
# The list of objects

A file is translated type by type, and of several objects of one name the first is kept. Main
statement: the objects are, one for one and in order, the first types of each name among those
that get a declaration, and each object has the members of its type that are kept, in order,
with their names and summaries. None of this depends on the project, on what types resolve to,
or on the sidecar.
-/
namespace Ambient

open Host

namespace Host.Member

/-- The names that attributes set for a member, the one that counts most first. -/
def setNames (m : Host.Member) : List String :=
  [(m.attribute? "JsonPropertyName").bind (·.positional 0),
    (m.attribute? "JsonProperty").bind fun a => (a.positional 0).or (a.named "PropertyName"),
    (m.attribute? "DataMember").bind (·.named "Name")].reduceOption

/-- The name of a member in a declaration: the first name that is set if it is not
blank, else its own. -/
def givenName (m : Host.Member) : String :=
  match m.setNames with
  | [] => m.name
  | name :: _ => if Text.blank name then m.name else name

/-- A property as a member of a class is declared. -/
structure IsProperty (m : Host.Member) (p : Ambient.Member) : Prop where
  name : p.name = m.givenName
  shownName : p.shownName = p.name ∨ p.shownName = p.name ++ "?"
  summary : p.summary = m.summary
  init : p.init = none

/-- A value as a member of an enum is declared. -/
structure IsValue (m : Host.Member) (v : Ambient.Member) : Prop where
  name : v.name = m.name
  shownName : v.shownName = m.name
  summary : v.summary = m.summary
  init : v.init = m.init

theorem serializedName?_eq (m : Host.Member) :
    m.serializedName? = m.setNames.head?.filter (!Text.blank ·) := by
  unfold serializedName? setNames
  cases (m.attribute? "JsonPropertyName").bind (·.positional 0) with
  | some name => rfl
  | none =>
    cases (m.attribute? "JsonProperty").bind
        fun a => (a.positional 0).or (a.named "PropertyName") with
    | some name => rfl
    | none => cases (m.attribute? "DataMember").bind (·.named "Name") <;> rfl

theorem givenName_eq (m : Host.Member) : m.serializedName?.getD m.name = m.givenName := by
  rw [serializedName?_eq, givenName]
  cases m.setNames with
  | nil => rfl
  | cons name more => cases blank : Text.blank name <;> simp [Option.filter, blank]

theorem isProperty_declare (o : Options) (m : Host.Member) (leaf : TypeRef) :
    m.IsProperty (m.declare o leaf) := by
  unfold declare
  split
  all_goals
    rename_i type optional _
    cases optional with
    | true => exact ⟨givenName_eq m, .inr rfl, rfl, rfl⟩
    | false => exact ⟨givenName_eq m, .inl rfl, rfl, rfl⟩

end Host.Member

/-- Whatever its types resolve to, a class has the members that are kept, in order. -/
theorem forall₂_resolveMembers (o : Options) (named : String → Resolving TypeRef)
    (members : List Host.Member) (trail : Trail) :
    List.Forall₂ Host.Member.IsProperty (members.filter (!·.isIgnored))
      (resolveMembers o named members trail).1 := by
  unfold resolveMembers
  induction members.filter (!·.isIgnored) generalizing trail with
  | nil => exact .nil
  | cons m more ih =>
    rw [List.mapM_cons, Resolving.bind_apply, Resolving.bind_apply, Resolving.pure_apply,
      resolveMember_eq, Resolving.map_apply]
    exact .cons (m.isProperty_declare o _) (ih _)

namespace Setting

/-- The module and the name under which a type is declared. -/
def nameOf (s : Setting) (n : Nested) : String × String := (s.moduleName n.space, n.type.name)

/-- `s.Declares n d`: the object `d` declares the type `n`. -/
structure Declares (s : Setting) (n : Nested) (d : Declaration) : Prop where
  space : d.space = s.moduleName n.space
  name : d.name = n.type.name
  isEnum : d.isEnum = n.type.isEnum
  summary : d.summary = n.type.summary
  properties : n.type.isEnum = false →
    List.Forall₂ Host.Member.IsProperty (n.type.members.filter (!·.isIgnored)) d.members
  values : n.type.isEnum = true →
    List.Forall₂ Host.Member.IsValue (n.type.members.filter (!·.isIgnored)) d.members

variable {s : Setting}

theorem declares_enumeration (s : Setting) {n : Nested} (enum : n.type.isEnum = true) :
    s.Declares n (s.enumeration n.type n.space) where
  space := rfl
  name := rfl
  isEnum := enum.symm
  summary := rfl
  properties other := absurd (enum.symm.trans other) (by decide)
  values _ := by
    show List.Forall₂ _ _ ((n.type.members.filter (!·.isIgnored)).map enumValue)
    rw [List.forall₂_map_right_iff]
    exact List.forall₂_same.mpr fun m _ => ⟨rfl, rfl, rfl, rfl⟩

theorem declares_classDeclaration (s : Setting) {t : TypeDecl} (other : t.isEnum = false)
    (current : Sidecar) : s.Declares ⟨t, []⟩ (s.classDeclaration t current).1 where
  space := congrArg s.moduleName (spaceOf_singleton t).symm
  name := rfl
  isEnum := other.symm
  summary := rfl
  properties _ := forall₂_resolveMembers s.options _ t.members _
  values enum := absurd (other.symm.trans enum) (by decide)

/-- Inside classes, exactly the enums get a declaration. -/
theorem nestedEnumsIn_eq_map {around : List TypeDecl} (inside : around ≠ [])
    (classes : around.all (·.kind == .classKind) = true) (ts : List TypeDecl) :
    s.nestedEnumsIn (spaceOf around) ts =
      ((TypeDecl.withinAll around ts).filter (·.isEmitted)).map fun n =>
        s.enumeration n.type n.space := by
  rw [nestedEnumsIn_eq, TypeDecl.withinAll_eq, List.filter_flatMap, List.map_flatMap]
  refine List.flatMap_congr fun t ht => ?_
  have place : (Index.placedIn (spaceOf around) t).space = spaceOf (t :: around) := by
    rw [spaceOf_cons]
    rfl
  have emitted : (⟨t, around⟩ : Nested).isEmitted = t.isEnum := by
    simp [Nested.isEmitted, Nested.inClasses, classes, inside]
  rw [nestedEnums_eq, TypeDecl.within_eq, List.filter_cons, emitted, place]
  cases kind : t.kind with
  | enumKind =>
    have enum : t.isEnum = true := by rw [TypeDecl.isEnum, kind]; rfl
    rw [if_pos enum, filter_withinAll_eq_nil List.mem_cons_self (by simp [kind])]
    rfl
  | classKind =>
    have other : ¬ t.isEnum = true := by rw [TypeDecl.isEnum, kind]; decide
    rw [if_neg other]
    refine nestedEnumsIn_eq_map (List.cons_ne_nil _ _) ?_ t.nested
    rw [List.all_cons, kind, classes]
    rfl
  | interfaceKind =>
    have other : ¬ t.isEnum = true := by rw [TypeDecl.isEnum, kind]; decide
    rw [if_neg other, filter_withinAll_eq_nil List.mem_cons_self (by simp [kind])]
    rfl
termination_by sizeOf ts
decreasing_by
  have := List.sizeOf_lt_of_mem ht
  cases t
  simp only [TypeDecl.mk.sizeOf_spec] at *
  omega

/-- A type at the top level of the file gives an object for each type in it that
gets a declaration. -/
theorem forall₂_topLevel (t : TypeDecl) (current : Sidecar) :
    List.Forall₂ s.Declares ((t.within []).filter (·.isEmitted)) (s.topLevel t current).1 := by
  have here : (⟨t, []⟩ : Nested).isEmitted = (t.isEnum || t.kind == .classKind) := rfl
  rw [TypeDecl.within_eq, List.filter_cons, here]
  unfold topLevel
  cases kind : t.kind with
  | interfaceKind =>
    rw [TypeDecl.isEnum, kind, if_neg (by decide),
      filter_withinAll_eq_nil List.mem_cons_self (by simp [kind])]
    exact .nil
  | enumKind =>
    have enum : t.isEnum = true := by rw [TypeDecl.isEnum, kind]; rfl
    rw [enum, Bool.true_or, if_pos rfl,
      filter_withinAll_eq_nil List.mem_cons_self (by simp [kind])]
    have object := s.declares_enumeration (n := ⟨t, []⟩) enum
    rw [Nested.space, spaceOf_singleton] at object
    exact .cons object .nil
  | classKind =>
    have other : t.isEnum = false := by rw [TypeDecl.isEnum, kind]; rfl
    rw [beq_self_eq_true, Bool.or_true, if_pos rfl]
    refine .cons (s.declares_classDeclaration other current) ?_
    rw [← spaceOf_singleton t,
      nestedEnumsIn_eq_map (List.cons_ne_nil _ _) (by rw [List.all_cons, kind]; rfl),
      List.forall₂_map_right_iff]
    refine List.forall₂_same.mpr fun n hn => s.declares_enumeration ?_
    -- a type with another one around it is emitted as an enum only
    obtain ⟨lies, emitted⟩ := List.mem_filter.mp hn
    have around : n.around ≠ [] := fun none => by
      have := suffix_around_of_mem_withinAll lies
      rw [none, List.suffix_nil] at this
      cases this
    simp only [Nested.isEmitted, Bool.and_eq_true, Bool.or_eq_true, List.isEmpty_iff] at emitted
    exact emitted.2.resolve_right fun top => around top.1

/-- The objects before repeated names are left out. -/
theorem forall₂_declareAll (types : List TypeDecl) (current : Sidecar) :
    List.Forall₂ s.Declares ((TypeDecl.withinAll [] types).filter (·.isEmitted))
      (s.declareAll current types).1 := by
  induction types generalizing current with
  | nil =>
    rw [TypeDecl.withinAll]
    exact .nil
  | cons t more ih =>
    rw [TypeDecl.withinAll, List.filter_append, declareAll]
    exact List.rel_append (forall₂_topLevel t current) (ih _)

theorem sameName_iff (a b : Declaration) :
    sameName a b = true ↔ (a.space, a.name) = (b.space, b.name) := by
  simp [sameName]

/-- The objects of a translation declare the first types of each name. -/
theorem forall₂_translate (sidecar : Sidecar) :
    List.Forall₂ s.Declares (firsts s.nameOf s.file.emitted) (s.translate sidecar).1 := by
  have objects : (s.translate sidecar).1 = firsts (fun d => (d.space, d.name))
      (s.declareAll (s.startingSidecar sidecar) s.file.types).1 :=
    eraseDupsBy_eq_firsts sameName_iff _
  rw [objects]
  refine forall₂_firsts (fun n d object => ?_) (forall₂_declareAll _ _)
  rw [nameOf, object.space, object.name]

end Setting

/-- Translating a file, in whatever project and with whatever options and sidecar, gives one object
for each module and name: those of the classes and enums at the top level and of the enums inside
classes at any depth, depth first in the order of the source, the first of each name. Each object
declares its type under the module of the type's namespace, with the members that are not ignored
one for one, named and described as they are declared. -/
theorem objects_declare_firsts (f : File) (project : Index) (o : Options) (sidecar : Sidecar) :
    let s := Setting.of f project o
    let objects := (s.translate sidecar).1
    (objects.map fun d => (d.space, d.name)).Nodup ∧
      objects.map (fun d => (d.space, d.name)) = (firsts s.nameOf f.emitted).map s.nameOf ∧
      List.Forall₂ s.Declares (firsts s.nameOf f.emitted) objects := by
  intro s objects
  have whole : List.Forall₂ s.Declares (firsts s.nameOf f.emitted) objects :=
    Setting.forall₂_translate sidecar
  have names : objects.map (fun d => (d.space, d.name)) =
      (firsts s.nameOf f.emitted).map s.nameOf := by
    rw [← List.forall₂_eq_eq_eq, List.forall₂_map_left_iff, List.forall₂_map_right_iff]
    exact whole.flip.imp fun d n object => by rw [Setting.nameOf, object.space, object.name]
  refine ⟨?_, names, whole⟩
  rw [names]
  exact nodup_firsts s.nameOf f.emitted

end Ambient
