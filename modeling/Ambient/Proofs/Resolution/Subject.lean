import Ambient.Resolution.Member

/-!
# The one name inside a type

Collections, dictionaries and nullables hand on one part of themselves, so a type leaves at most one
name to look up. Resolving a type is resolving that name and then putting what the type says about
lists and dictionaries around the result.

Whatever lists and dictionaries a type puts around the text of its subject, the text stands in
the result with a fixed front and back. So members that are declared alike have subjects that
are spelled alike.
-/
namespace Ambient

namespace TypeSyntax

/-- The name that is left to look up when a type is resolved. -/
def subject? (ty : TypeSyntax) : Option String :=
  match h : KnownType.classify ty with
  | .primitive _ => none
  | .nullable inner =>
    have := KnownType.sizeOf_lt_of_classify h rfl
    inner.subject?
  | .collection element =>
    have := KnownType.sizeOf_lt_of_classify h rfl
    element.subject?
  | .dictionary _ value =>
    have := KnownType.sizeOf_lt_of_classify h rfl
    value.subject?
  | .unknown =>
    match ty with
    | .named name _ => some name
    | _ => none
termination_by sizeOf ty

/-- What becomes of a type whose subject resolves to `leaf`. -/
def wrap (o : Options) (ty : TypeSyntax) (leaf : TypeRef) : TypeRef :=
  match h : KnownType.classify ty with
  | .primitive rendered => .plain rendered
  | .nullable inner =>
    have := KnownType.sizeOf_lt_of_classify h rfl
    inner.wrap o leaf
  | .collection element =>
    have := KnownType.sizeOf_lt_of_classify h rfl
    (element.wrap o leaf).listOf o
  | .dictionary key value =>
    have := KnownType.sizeOf_lt_of_classify h rfl
    (value.wrap o leaf).dictionaryOf o (KnownType.isNumericKey key)
  | .unknown => leaf
termination_by sizeOf ty

/-- Whether a type allows its member to be left out. -/
def isOptional (ty : TypeSyntax) : Bool :=
  match KnownType.classify ty with
  | .nullable _ => true
  | _ => false

section Classified
variable {o : Options} {ty inner key value : TypeSyntax} {rendered : String}

theorem subject?_primitive (h : KnownType.classify ty = .primitive rendered) :
    ty.subject? = none := by
  rw [subject?]
  split <;> simp_all

theorem subject?_part {known : KnownType} (h : KnownType.classify ty = known)
    (part : known.inner = [inner]) : ty.subject? = inner.subject? := by
  subst h
  rw [subject?]
  split <;> simp_all [KnownType.inner]

theorem eq_named_of_unknown (h : KnownType.classify ty = .unknown) :
    ∃ name args, ty = named name args := by
  cases ty with
  | named name args => exact ⟨name, args, rfl⟩
  | _ => simp [KnownType.classify] at h

theorem subject?_named {name : String} {args : List TypeSyntax}
    (h : KnownType.classify (named name args) = .unknown) :
    (named name args).subject? = some name := by
  rw [subject?]
  split <;> simp_all

theorem wrap_primitive (h : KnownType.classify ty = .primitive rendered) :
    ty.wrap o = fun _ => .plain rendered := by
  funext leaf
  rw [wrap]
  split <;> simp_all

theorem wrap_nullable (h : KnownType.classify ty = .nullable inner) :
    ty.wrap o = inner.wrap o := by
  funext leaf
  rw [wrap]
  split <;> simp_all

theorem wrap_collection (h : KnownType.classify ty = .collection inner) :
    ty.wrap o = fun leaf => (inner.wrap o leaf).listOf o := by
  funext leaf
  rw [wrap]
  split <;> simp_all

theorem wrap_dictionary (h : KnownType.classify ty = .dictionary key value) :
    ty.wrap o = fun leaf => (value.wrap o leaf).dictionaryOf o (KnownType.isNumericKey key) := by
  funext leaf
  rw [wrap]
  split <;> simp_all

theorem wrap_unknown (h : KnownType.classify ty = .unknown) : ty.wrap o = fun leaf => leaf := by
  funext leaf
  rw [wrap]
  split <;> simp_all

end Classified

end TypeSyntax

/-- What a name stands for, where a type may have no name left to look up. -/
def resolveSubject (named : String → Resolving TypeRef) : Option String → Resolving TypeRef
  | some name => named name
  | none => pure .unknown

theorem resolveType_eq (o : Options) (named : String → Resolving TypeRef) (ty : TypeSyntax) :
    resolveType o named ty = ty.wrap o <$> resolveSubject named ty.subject? := by
  fun_induction resolveType o named ty with
  | case1 ty rendered h =>
    rw [TypeSyntax.subject?_primitive h, TypeSyntax.wrap_primitive h]
    rfl
  | case2 ty inner h _ ih =>
    rw [TypeSyntax.subject?_part h rfl, TypeSyntax.wrap_nullable h]
    exact ih
  | case3 ty element h _ ih =>
    rw [TypeSyntax.subject?_part h rfl, TypeSyntax.wrap_collection h, ih, bind_pure_comp,
      Functor.map_map]
  | case4 ty key value h _ ih =>
    rw [TypeSyntax.subject?_part h rfl, TypeSyntax.wrap_dictionary h, ih, bind_pure_comp,
      Functor.map_map]
  | case5 name args h =>
    rw [TypeSyntax.subject?_named h, TypeSyntax.wrap_unknown h]
    exact (id_map _).symm
  | case6 ty _ h notNamed =>
    obtain ⟨name, args, rfl⟩ := TypeSyntax.eq_named_of_unknown h
    exact (notNamed name args h rfl HEq.rfl).elim

theorem resolveMemberType_eq (o : Options) (named : String → Resolving TypeRef)
    (ty : TypeSyntax) :
    resolveMemberType o named ty =
      (fun leaf => (ty.wrap o leaf, ty.isOptional)) <$> resolveSubject named ty.subject? := by
  unfold resolveMemberType TypeSyntax.isOptional
  cases h : KnownType.classify ty with
  | nullable inner =>
    rw [TypeSyntax.subject?_part h rfl, TypeSyntax.wrap_nullable h]
    simp only [resolveType_eq, bind_pure_comp, Functor.map_map]
  | _ => simp only [resolveType_eq, bind_pure_comp, Functor.map_map]

namespace Host.Member

/-- The name left to look up in the type of a member. -/
def subject? (m : Host.Member) : Option String :=
  (TypeSyntax.parse m.typeName).toOption.bind TypeSyntax.subject?

/-- A member whose type's subject resolves to `leaf`. -/
def declare (o : Options) (m : Host.Member) (leaf : TypeRef) : Ambient.Member :=
  let (type, isOptional) := match TypeSyntax.parse m.typeName with
    | .ok ty => (ty.wrap o leaf, ty.isOptional)
    | .error _ => (.unknown, false)
  let name := m.serializedName?.getD m.name
  let member : Ambient.Member :=
    if isOptional then .optional name type else .required name type
  { member with summary := m.summary, explicitName := m.serializedName?.isSome }

end Host.Member

theorem resolveMember_eq (o : Options) (named : String → Resolving TypeRef) (m : Host.Member) :
    resolveMember o named m = m.declare o <$> resolveSubject named m.subject? := by
  unfold resolveMember Host.Member.declare Host.Member.subject?
  cases parsed : TypeSyntax.parse m.typeName with
  | error fault => rfl
  | ok ty =>
    simp only [Except.toOption, Option.bind_some, resolveMemberType_eq, bind_pure_comp,
      Functor.map_map]

theorem append_middle_inj {front a b back : String} (h : front ++ a ++ back = front ++ b ++ back) :
    a = b := by
  have chars := congrArg String.toList h
  simp only [String.toList_append, List.append_cancel_right_eq, List.append_cancel_left_eq] at chars
  exact String.toList_inj.mp chars

variable {o : Options}

namespace TypeSyntax

theorem exists_wrap_plain {ty : TypeSyntax} (named : ty.subject?.isSome = true) :
    ∃ front back isArray, ∀ text, ty.wrap o (.plain text) =
      .known (front ++ text ++ back) isArray := by
  fun_induction subject? ty with
  | case1 ty rendered h => cases named
  | case2 ty inner h _ ih =>
    rw [wrap_nullable h]
    exact ih named
  | case3 ty element h _ ih =>
    obtain ⟨front, back, isArray, spelled⟩ := ih named
    rw [wrap_collection h]
    cases isArray with
    | false =>
      refine ⟨front, back, true, fun text => ?_⟩
      simp only [spelled]
      rfl
    | true =>
      refine ⟨front, back ++ "[]", true, fun text => ?_⟩
      simp only [spelled, ← String.append_assoc]
      rfl
  | case4 ty key value h _ ih =>
    obtain ⟨front, back, isArray, spelled⟩ := ih named
    rw [wrap_dictionary h]
    refine ⟨"\x7b [key: " ++
      (if KnownType.isNumericKey key then "number" else "string") ++ "]: " ++
      front, back ++ (if isArray then "[]" else "") ++ " \x7d", false, fun text => ?_⟩
    simp only [spelled]
    simp only [TypeRef.dictionaryOf, TypeRef.text, TypeRef.plain, String.append_assoc]
  | case5 name args h =>
    rw [wrap_unknown h]
    exact ⟨"", "", false, fun text => by simp [TypeRef.plain]⟩
  | case6 => cases named

theorem wrap_plain_inj {ty : TypeSyntax} (named : ty.subject?.isSome = true) {a b : String}
    (h : ty.wrap o (.plain a) = ty.wrap o (.plain b)) : a = b := by
  obtain ⟨front, back, isArray, spelled⟩ := exists_wrap_plain (o := o) named
  rw [spelled, spelled] at h
  exact append_middle_inj (TypeRef.known.inj h).1

end TypeSyntax

theorem Host.Member.type_declare {m : Host.Member} {ty : TypeSyntax}
    (parsed : TypeSyntax.parse m.typeName = .ok ty) (leaf : TypeRef) :
    (m.declare o leaf).type = ty.wrap o leaf := by
  unfold declare
  simp only [parsed]
  split <;> rfl

/-- Members that are declared alike have subjects that are spelled alike. -/
theorem Host.Member.declare_plain_inj {m : Host.Member} {name a b : String}
    (subject : m.subject? = some name)
    (h : m.declare o (.plain a) = m.declare o (.plain b)) : a = b := by
  unfold subject? at subject
  cases parsed : TypeSyntax.parse m.typeName with
  | error fault => simp [parsed, Except.toOption] at subject
  | ok ty =>
    have named : ty.subject? = some name := by simpa [parsed, Except.toOption] using subject
    have types := congrArg MemberOf.type h
    rw [type_declare parsed, type_declare parsed] at types
    exact TypeSyntax.wrap_plain_inj (by rw [named]; rfl) types

end Ambient
