import Ambient.Proofs.Formatting.Files

/-!
# Declarations in other words

A rewording replaces the texts that a host file keeps as they were written: types, arguments and
initializers. Two declarations that are alike become the same if their texts do.
-/
namespace Ambient

namespace Host

structure Rewording where
  type : String → String
  value : String → String
  init : String → String

def Argument.reword (r : Rewording) (a : Argument) : Argument := { a with value := r.value a.value }

def Attribute.reword (r : Rewording) (a : Attribute) : Attribute :=
  { a with args := a.args.map (·.reword r) }

def Member.reword (r : Rewording) (m : Member) : Member where
  name := m.name
  typeName := r.type m.typeName
  init := m.init.map r.init
  summary := m.summary
  attributes := m.attributes.map (·.reword r)

namespace TypeDecl

mutual
def reword (r : Rewording) : TypeDecl → TypeDecl
  | ⟨name, space, kind, bases, summary, members, nested, attributes⟩ =>
    ⟨name, space, kind, bases.map r.type, summary, members.map (·.reword r), rewordAll r nested,
      attributes.map (·.reword r)⟩

def rewordAll (r : Rewording) : List TypeDecl → List TypeDecl
  | [] => []
  | t :: more => reword r t :: rewordAll r more
end

mutual
/-- A type and the types nested in it. -/
def inside : TypeDecl → List TypeDecl
  | ⟨name, space, kind, bases, summary, members, nested, attributes⟩ =>
    ⟨name, space, kind, bases, summary, members, nested, attributes⟩ :: insideAll nested

def insideAll : List TypeDecl → List TypeDecl
  | [] => []
  | t :: more => inside t ++ insideAll more
end

/-- The attributes of a type itself and of its members. -/
def allAttributes (t : TypeDecl) : List Attribute :=
  t.attributes ++ t.members.flatMap (·.attributes)

end TypeDecl

def File.reword (r : Rewording) (f : File) : File where
  path := f.path
  usings := f.usings
  types := TypeDecl.rewordAll r f.types
  externalTypes := TypeDecl.rewordAll r f.externalTypes

/-- Every argument value is a `value`, and every initializer an `init`. -/
structure TypeDecl.Only (value init : String → Prop) (t : TypeDecl) : Prop where
  values : ∀ a ∈ t.allAttributes, ∀ arg ∈ a.args, value arg.value
  inits : ∀ m ∈ t.members, ∀ i ∈ m.init, init i

/-- In all types of a file, nested ones as well. -/
def File.Only (value init : String → Prop) (f : File) : Prop :=
  ∀ t ∈ TypeDecl.insideAll f.types, t.Only value init

end Host

/-- What the spelling relates becomes the same in `r` and in `r'`, where arguments are values and
initializers are inits. -/
structure Spelling.Settles (S : Spelling) (r r' : Host.Rewording) (value init : String → Prop) :
    Prop where
  types : ∀ a b, S.type a b → r.type a = r'.type b
  values : ∀ a b, S.value a b → value a → r.value a = r'.value b
  inits : ∀ a b, S.init a b → init a → r.init a = r'.init b

namespace Host
variable {S : Spelling} {r r' : Rewording} {value init : String → Prop}

theorem map_eq_map_of_forall₂ {α β γ : Type} {R : α → β → Prop} {f : α → γ}
    {g : β → γ} {as : List α}
    {bs : List β} (h : List.Forall₂ R as bs) (same : ∀ a ∈ as, ∀ b, R a b → f a = g b) :
    as.map f = bs.map g := by
  induction h with
  | nil => rfl
  | cons first _ ih =>
    rw [List.map_cons, List.map_cons, same _ List.mem_cons_self _ first,
      ih fun a ha => same a (List.mem_cons_of_mem _ ha)]

theorem Attribute.Alike.reword_eq (settles : S.Settles r r' value init) {a b : Attribute}
    (h : Attribute.Alike S a b) (only : ∀ arg ∈ a.args, value arg.value) :
    a.reword r = b.reword r' := by
  obtain ⟨name, args⟩ := h
  have same : a.args.map (·.reword r) = b.args.map (·.reword r') := by
    refine map_eq_map_of_forall₂ args fun arg there arg' alike => ?_
    rw [Argument.reword, Argument.reword, alike.name,
      settles.values _ _ alike.value (only arg there)]
  rw [Attribute.reword, Attribute.reword, name, same]

theorem Member.Alike.reword_eq (settles : S.Settles r r' value init) {m n : Member}
    (h : Member.Alike S m n) (values : ∀ a ∈ m.attributes, ∀ arg ∈ a.args, value arg.value)
    (inits : ∀ i ∈ m.init, init i) : m.reword r = n.reword r' := by
  have sameInit : m.init.map r.init = n.init.map r'.init := by
    have rel := h.init
    revert inits
    generalize m.init = i at rel ⊢
    generalize n.init = j at rel ⊢
    intro inits
    cases rel with
    | none => rfl
    | some rel => exact congrArg some (settles.inits _ _ rel (inits _ rfl))
  have sameAttributes : m.attributes.map (·.reword r) = n.attributes.map (·.reword r') :=
    map_eq_map_of_forall₂ h.attributes fun a there b alike =>
      alike.reword_eq settles (values a there)
  rw [Member.reword, Member.reword, h.name, settles.types _ _ h.type, sameInit, h.summary,
    sameAttributes]

mutual
theorem TypeDecl.Alike.reword_eq (settles : S.Settles r r' value init) {t u : TypeDecl}
    (h : TypeDecl.Alike S t u) (only : ∀ v ∈ t.inside, v.Only value init) :
    t.reword r = u.reword r' := by
  match h with
  | .mk bases members nested attributes =>
    have here := only _ (by rw [TypeDecl.inside]; exact List.mem_cons_self)
    have sameBases := map_eq_map_of_forall₂ bases fun a _ b alike => settles.types a b alike
    have sameMembers := map_eq_map_of_forall₂ members fun m there n alike =>
      alike.reword_eq settles
        (fun a ha => here.values a
          (List.mem_append_right _ (List.mem_flatMap.mpr ⟨m, there, ha⟩))) (here.inits m there)
    have sameNested := TypeDecl.AlikeAll.rewordAll_eq settles nested fun v there =>
      only v (by rw [TypeDecl.inside]; exact List.mem_cons_of_mem _ there)
    have sameAttributes := map_eq_map_of_forall₂ attributes fun a there b alike =>
      alike.reword_eq settles (here.values a (List.mem_append_left _ there))
    rw [TypeDecl.reword, TypeDecl.reword, sameBases, sameMembers, sameNested, sameAttributes]

theorem TypeDecl.AlikeAll.rewordAll_eq (settles : S.Settles r r' value init)
    {ts us : List TypeDecl} (h : TypeDecl.AlikeAll S ts us)
    (only : ∀ v ∈ TypeDecl.insideAll ts, v.Only value init) :
    TypeDecl.rewordAll r ts = TypeDecl.rewordAll r' us := by
  match h with
  | .nil => rfl
  | .cons first others =>
    have sameFirst := TypeDecl.Alike.reword_eq settles first fun v there =>
      only v (by rw [TypeDecl.insideAll]; exact List.mem_append_left _ there)
    have sameOthers := TypeDecl.AlikeAll.rewordAll_eq settles others fun v there =>
      only v (by rw [TypeDecl.insideAll]; exact List.mem_append_right _ there)
    rw [TypeDecl.rewordAll, TypeDecl.rewordAll, sameFirst, sameOthers]
end

/-- The file that the parts of a source make. -/
def File.ofParts (path : Path) (parts : List Part) : File :=
  ⟨path, parts.filterMap Part.imported?, parts.filterMap Part.declared?, []⟩

theorem File.parse_eq (path : Path) (text : String) : File.parse path text =
    (readNamespaceBody text.toList "" false (Item.ofText text)).map
      fun parts => File.ofParts path parts.value := by
  rw [File.parse]
  cases readNamespaceBody text.toList "" false (Item.ofText text) <;> rfl

theorem imported_eq_of_alike {ps qs : List Part} (h : List.Forall₂ (Part.Alike S) ps qs) :
    ps.filterMap Part.imported? = qs.filterMap Part.imported? := by
  induction h with
  | nil => rfl
  | cons first _ ih =>
    cases first with
    | imported space => exact congrArg (space :: ·) ih
    | declared _ => exact ih

theorem declared_alike {ps qs : List Part} (h : List.Forall₂ (Part.Alike S) ps qs) :
    TypeDecl.AlikeAll S (ps.filterMap Part.declared?) (qs.filterMap Part.declared?) := by
  induction h with
  | nil => exact .nil
  | cons first _ ih =>
    cases first with
    | imported space => exact ih
    | declared alike => exact .cons alike ih

theorem File.reword_ofParts_eq (settles : S.Settles r r' value init) (path : Path)
    {ps qs : List Part}
    (h : List.Forall₂ (Part.Alike S) ps qs) (only : (File.ofParts path ps).Only value init) :
    (File.ofParts path ps).reword r = (File.ofParts path qs).reword r' := by
  have usings := imported_eq_of_alike h
  have types := (declared_alike h).rewordAll_eq settles only
  show File.mk path (ps.filterMap Part.imported?)
      (TypeDecl.rewordAll r (ps.filterMap Part.declared?)) [] =
    ⟨path, qs.filterMap Part.imported?, TypeDecl.rewordAll r' (qs.filterMap Part.declared?), []⟩
  rw [usings, types]

end Host
end Ambient
