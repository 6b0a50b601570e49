import Ambient.Proofs.Resolution.Reach
import Ambient.Proofs.Resolution.Subject

/-!
# Types resolve part by part

Source has several spellings for a list and two for a nullable. A type that is spelled in another
way, at however many places, resolves to the same with the same trail; and the text of a type is
built from the text of its part: a list adds one pair of brackets, a nullable adds nothing, and a
dictionary puts its braces around.

A type enters a resolution by four things only: the name left to look up in it, what it puts around
the result, whether it lets its member be left out, and whether it has a form of its own at all.
Types that have these in common are equivalent. Equivalence is kept by lists, nullables and
dictionaries, so a type may be exchanged for an equivalent one at any depth.
-/
namespace Ambient

namespace TypeSyntax

/-- Two types that no resolution tells apart. -/
structure Equivalent (a b : TypeSyntax) : Prop where
  subject : a.subject? = b.subject?
  wrap : ∀ o, a.wrap o = b.wrap o
  optional : a.isOptional = b.isOptional
  unknown : KnownType.classify a = .unknown ↔ KnownType.classify b = .unknown

/-- A number as a dictionary key: the plain name of a numeric primitive, qualified or not. -/
def IsNumberKey (key : TypeSyntax) : Prop :=
  ∃ name, key = named name [] ∧ lastSegment name ∈ KnownType.numberNames

theorem primitive?_eq_number {name : String} :
    KnownType.primitive? name = some "number" ↔ lastSegment name ∈ KnownType.numberNames := by
  unfold KnownType.primitive?
  by_cases number : lastSegment name ∈ KnownType.numberNames
  · simp [number]
  · simp only [number, if_false, iff_false]
    repeat' split
    all_goals simp

theorem isNumericKey_iff {key : TypeSyntax} :
    KnownType.isNumericKey key = true ↔ key.IsNumberKey := by
  unfold IsNumberKey
  cases key with
  | named name args =>
    cases args with
    | nil => simp [KnownType.isNumericKey, primitive?_eq_number]
    | cons arg more => simp [KnownType.isNumericKey]
  | _ => simp [KnownType.isNumericKey]

theorem isOptional_eq {ty : TypeSyntax} :
    ty.isOptional = match KnownType.classify ty with
      | .nullable _ => true
      | _ => false := rfl

namespace Equivalent
variable {a b x y : TypeSyntax}

theorem refl (ty : TypeSyntax) : Equivalent ty ty := ⟨rfl, fun _ => rfl, rfl, Iff.rfl⟩

theorem symm (h : Equivalent a b) : Equivalent b a :=
  ⟨h.subject.symm, fun o => (h.wrap o).symm, h.optional.symm, h.unknown.symm⟩

theorem trans (h : Equivalent a b) (g : Equivalent b x) : Equivalent a x :=
  ⟨h.subject.trans g.subject, fun o => (h.wrap o).trans (g.wrap o), h.optional.trans g.optional,
    h.unknown.trans g.unknown⟩

theorem primitive {rendered : String} (ha : KnownType.classify a = .primitive rendered)
    (hb : KnownType.classify b = .primitive rendered) : Equivalent a b where
  subject := by rw [subject?_primitive ha, subject?_primitive hb]
  wrap o := by rw [wrap_primitive ha, wrap_primitive hb]
  optional := by rw [isOptional_eq, isOptional_eq, ha, hb]
  unknown := by rw [ha, hb]

theorem nullable (ha : KnownType.classify a = .nullable x) (hb : KnownType.classify b = .nullable y)
    (inner : Equivalent x y) : Equivalent a b where
  subject := by rw [subject?_part ha rfl, subject?_part hb rfl, inner.subject]
  wrap o := by rw [wrap_nullable ha, wrap_nullable hb, inner.wrap]
  optional := by rw [isOptional_eq, isOptional_eq, ha, hb]
  unknown := by simp [ha, hb]

theorem collection (ha : KnownType.classify a = .collection x)
    (hb : KnownType.classify b = .collection y) (element : Equivalent x y) : Equivalent a b where
  subject := by rw [subject?_part ha rfl, subject?_part hb rfl, element.subject]
  wrap o := by rw [wrap_collection ha, wrap_collection hb, element.wrap]
  optional := by rw [isOptional_eq, isOptional_eq, ha, hb]
  unknown := by simp [ha, hb]

theorem dictionary {k l : TypeSyntax} (ha : KnownType.classify a = .dictionary k x)
    (hb : KnownType.classify b = .dictionary l y)
    (keys : KnownType.isNumericKey k = KnownType.isNumericKey l) (value : Equivalent x y) :
    Equivalent a b where
  subject := by rw [subject?_part ha rfl, subject?_part hb rfl, value.subject]
  wrap o := by rw [wrap_dictionary ha, wrap_dictionary hb, value.wrap, keys]
  optional := by rw [isOptional_eq, isOptional_eq, ha, hb]
  unknown := by simp [ha, hb]

/-- Without a form of its own, a type is nothing but its name. -/
theorem named {name : String} {args others : List TypeSyntax}
    (ha : KnownType.classify (.named name args) = .unknown)
    (hb : KnownType.classify (.named name others) = .unknown) :
    Equivalent (.named name args) (.named name others) where
  subject := by rw [subject?_named ha, subject?_named hb]
  wrap o := by rw [wrap_unknown ha, wrap_unknown hb]
  optional := by rw [isOptional_eq, isOptional_eq, ha, hb]
  unknown := by rw [ha, hb]

/-- Types that have the same form of their own. -/
theorem of_classify (same : KnownType.classify a = KnownType.classify b)
    (known : KnownType.classify b ≠ .unknown) : Equivalent a b := by
  cases form : KnownType.classify b with
  | primitive rendered => exact .primitive (same.trans form) form
  | nullable inner => exact .nullable (same.trans form) form (refl inner)
  | collection element => exact .collection (same.trans form) form (refl element)
  | dictionary key value => exact .dictionary (same.trans form) form rfl (refl value)
  | unknown => exact absurd form known

theorem resolveMemberType_eq (same : Equivalent a b) (o : Options)
    (resolve : String → Resolving TypeRef) :
    resolveMemberType o resolve a = resolveMemberType o resolve b := by
  rw [Ambient.resolveMemberType_eq, Ambient.resolveMemberType_eq, same.subject, same.wrap,
    same.optional]

end Equivalent

end TypeSyntax

open Host

namespace TypeSyntax

/-- `ListOf e ty`: the type `ty` is one list of `e`, be it an array or a collection. -/
inductive ListOf (e : TypeSyntax) : TypeSyntax → Prop
  | array : ListOf e (.array e)
  | collection {name : String} :
    lastSegment name ∈ KnownType.collectionNames → ListOf e (.named name [e])

/-- `NullableOf t ty`: the type `ty` is `t` or null, with a mark or spelled out. -/
inductive NullableOf (t : TypeSyntax) : TypeSyntax → Prop
  | mark : NullableOf t (.nullable t)
  | spelled {name : String} : lastSegment name = "Nullable" → NullableOf t (.named name [t])

/-- `DictionaryOf k v ty`: the type `ty` is a dictionary from `k` to `v`. -/
inductive DictionaryOf (k v : TypeSyntax) : TypeSyntax → Prop
  | named {name : String} :
    lastSegment name ∈ KnownType.dictionaryNames → DictionaryOf k v (.named name [k, v])

/-- `Respelled a b`: any of the arrays in `a` are collections in `b`, and any of the marked
nullables in `a` are spelled out in `b`. -/
inductive Respelled : TypeSyntax → TypeSyntax → Prop
  | list {a b ty : TypeSyntax} : Respelled a b → ListOf b ty → Respelled (.array a) ty
  | nullable {a b ty : TypeSyntax} : Respelled a b → NullableOf b ty →
    Respelled (.nullable a) ty
  | named {name : String} {args others : List TypeSyntax} : args.length = others.length →
    (∀ pair ∈ args.zip others, Respelled pair.1 pair.2) →
    Respelled (.named name args) (.named name others)
  | tuple {items others : List TypeSyntax} : items.length = others.length →
    (∀ pair ∈ items.zip others, Respelled pair.1 pair.2) →
    Respelled (.tuple items) (.tuple others)

/-- `Levels core n ty`: the type `ty` has `n` lists around `core`, with nullables
anywhere between. -/
inductive Levels (core : TypeSyntax) : Nat → TypeSyntax → Prop
  | core : Levels core 0 core
  | list {n : Nat} {e ty : TypeSyntax} : Levels core n e → ListOf e ty → Levels core (n + 1) ty
  | nullable {n : Nat} {t ty : TypeSyntax} : Levels core n t → NullableOf t ty →
    Levels core n ty

variable {a b t ty : TypeSyntax}

theorem ListOf.classify (h : ListOf t ty) : KnownType.classify ty = .collection t := by
  cases h with
  | array => rfl
  | collection known =>
    simp only [KnownType.classify, known, if_true]
    rw [if_neg]
    intro nullable
    rw [nullable] at known
    exact absurd known (by decide)

theorem NullableOf.classify (h : NullableOf t ty) : KnownType.classify ty = .nullable t := by
  cases h with
  | mark => rfl
  | spelled known => simp only [KnownType.classify, known, if_true]

theorem DictionaryOf.classify {k v : TypeSyntax} (h : DictionaryOf k v ty) :
    KnownType.classify ty = .dictionary k v := by
  cases h with
  | named known => simp only [KnownType.classify, known, if_true]

namespace Respelled

/-- No list or nullable is a number key, however it is spelled. -/
theorem isNumericKey_eq (h : Respelled a b) :
    KnownType.isNumericKey a = KnownType.isNumericKey b := by
  cases h with
  | list _ list => cases list <;> rfl
  | nullable _ nullable => cases nullable <;> rfl
  | @named name args others same _ =>
    cases args with
    | nil =>
      rw [List.length_nil, eq_comm, List.length_eq_zero_iff] at same
      rw [same]
    | cons arg more =>
      cases others with
      | nil => simp at same
      | cons => rfl
  | tuple => rfl

/-- A generic type with respelled arguments. -/
theorem equivalent_named {name : String} {args others : List TypeSyntax}
    (same : args.length = others.length)
    (parts : ∀ pair ∈ args.zip others, Respelled pair.1 pair.2)
    (ih : ∀ pair ∈ args.zip others, Equivalent pair.1 pair.2) :
    Equivalent (.named name args) (.named name others) := by
  match args, others, same with
  | [], [], _ => exact .refl _
  | [x], [y], _ =>
    have inner : Equivalent x y := ih (x, y) List.mem_cons_self
    by_cases nullable : lastSegment name = "Nullable"
    · exact .nullable (NullableOf.spelled nullable).classify (NullableOf.spelled nullable).classify
        inner
    by_cases list : lastSegment name ∈ KnownType.collectionNames
    · exact .collection (ListOf.collection list).classify (ListOf.collection list).classify inner
    by_cases task : lastSegment name ∈ KnownType.taskNames
    -- a task has the form of what it yields, or none if that has none
    · have yields : ∀ z, KnownType.classify (.named name [z]) = KnownType.classify z := by
        intro z
        simp only [KnownType.classify, nullable, list, task, if_true, if_false]
      by_cases known : KnownType.classify x = .unknown
      · exact .named ((yields x).trans known) ((yields y).trans (inner.unknown.mp known))
      · have knownToo : KnownType.classify y ≠ .unknown := fun h => known (inner.unknown.mpr h)
        exact ((Equivalent.of_classify (yields x) known).trans inner).trans
          (Equivalent.of_classify (yields y) knownToo).symm
    · refine .named ?_ ?_ <;> simp only [KnownType.classify, nullable, list, task, if_false]
  | [k, x], [l, y], _ =>
    have keys : Respelled k l := parts (k, l) List.mem_cons_self
    have value : Equivalent x y := ih (x, y) (List.mem_cons_of_mem _ List.mem_cons_self)
    by_cases dictionary : lastSegment name ∈ KnownType.dictionaryNames
    · exact .dictionary (DictionaryOf.named dictionary).classify
        (DictionaryOf.named dictionary).classify keys.isNumericKey_eq value
    · refine .named ?_ ?_ <;> simp only [KnownType.classify, dictionary, if_false]
  | _ :: _ :: _ :: _, _ :: _ :: _ :: _, _ =>
    exact .named rfl rfl

theorem equivalent (h : Respelled a b) : Equivalent a b := by
  induction h with
  | list _ list ih => exact .collection rfl list.classify ih
  | nullable _ nullable ih => exact .nullable rfl nullable.classify ih
  | named same parts ih => exact equivalent_named same parts ih
  | tuple => exact .primitive rfl rfl

end Respelled

end TypeSyntax

namespace TypeRef
variable {o : Options}

theorem text_listOf (r : TypeRef) : (r.listOf o).text o = r.text o ++ "[]" := by
  unfold listOf
  cases r with
  | known rendered isArray =>
    cases isArray <;> simp [isArray, asArray, text]
  | shape members isArray =>
    cases isArray <;> simp [isArray, asArray, text]
  | untyped isArray =>
    cases isArray <;> simp [isArray, asArray, text]

theorem text_dictionaryOf (numericKey : Bool) (value : TypeRef) :
    (dictionaryOf o numericKey value).text o =
      "\x7b [key: " ++ (if numericKey then "number" else "string") ++ "]: " ++ value.text o ++
        " \x7d" := by
  simp [dictionaryOf, plain, text]

end TypeRef

namespace Setting

/-- The text of a type that is resolved at a place. -/
def typeText (s : Setting) (done : List String) (site : Site) (trail : Trail) (ty : TypeSyntax) :
    String :=
  (resolveType s.options (s.resolveName done site) ty trail).1.text s.options

variable {s : Setting} {done : List String} {site : Site} {trail : Trail} {t ty : TypeSyntax}

theorem typeText_eq : s.typeText done site trail ty =
    (ty.wrap s.options (resolveSubject (s.resolveName done site) ty.subject? trail).1).text
      s.options := by
  rw [typeText, resolveType_eq, Resolving.map_apply]

theorem typeText_listOf (h : t.ListOf ty) :
    s.typeText done site trail ty = s.typeText done site trail t ++ "[]" := by
  rw [typeText_eq, typeText_eq, TypeSyntax.subject?_part h.classify rfl,
    TypeSyntax.wrap_collection h.classify, TypeRef.text_listOf]

theorem typeText_nullableOf (h : t.NullableOf ty) :
    s.typeText done site trail ty = s.typeText done site trail t := by
  rw [typeText_eq, typeText_eq, TypeSyntax.subject?_part h.classify rfl,
    TypeSyntax.wrap_nullable h.classify]

theorem typeText_dictionaryOf {k : TypeSyntax} (h : k.DictionaryOf t ty) :
    s.typeText done site trail ty =
      "\x7b [key: " ++ (if KnownType.isNumericKey k then "number" else "string") ++ "]: " ++
        s.typeText done site trail t ++ " \x7d" := by
  rw [typeText_eq, typeText_eq, TypeSyntax.subject?_part h.classify rfl,
    TypeSyntax.wrap_dictionary h.classify, TypeRef.text_dictionaryOf]

theorem typeText_levels {n : Nat} (h : t.Levels n ty) :
    s.typeText done site trail ty =
      s.typeText done site trail t ++ String.join (List.replicate n "[]") := by
  induction h with
  | core => simp
  | list _ list ih =>
    rw [typeText_listOf list, ih, List.replicate_succ', String.join_append, String.append_assoc]
    rfl
  | nullable _ nullable ih => rw [typeText_nullableOf nullable, ih]

end Setting

/-- A type resolves part by part and whatever the spelling of its lists and nullables: respelling it
leaves the type of a member, whether the member is optional, and the trail with its references as
they are; and the text of a type is built from that of its part. -/
theorem types_resolve_by_parts (s : Setting) (done : List String) (site : Site) :
    (∀ a b : TypeSyntax, a.Respelled b →
      resolveMemberType s.options (s.resolveName done site) a =
        resolveMemberType s.options (s.resolveName done site) b) ∧
    ∀ (trail : Trail) (t : TypeSyntax),
      let text := s.typeText done site trail
      (∀ ty, t.ListOf ty → text ty = text t ++ "[]") ∧
      (∀ ty, t.NullableOf ty → text ty = text t) ∧
      (∀ k ty : TypeSyntax, k.DictionaryOf t ty →
        (k.IsNumberKey → text ty = "\x7b [key: number]: " ++ text t ++ " \x7d") ∧
        (¬ k.IsNumberKey → text ty = "\x7b [key: string]: " ++ text t ++ " \x7d")) ∧
      ∀ n ty, t.Levels n ty → text ty = text t ++ String.join (List.replicate n "[]") := by
  refine ⟨fun a b respelled => respelled.equivalent.resolveMemberType_eq _ _, fun trail t => ?_⟩
  refine ⟨fun ty => Setting.typeText_listOf, fun ty => Setting.typeText_nullableOf, ?keys,
    fun n ty => Setting.typeText_levels⟩
  case keys =>
    intro k ty dictionary
    rw [Setting.typeText_dictionaryOf dictionary, ← TypeSyntax.isNumericKey_iff]
    exact ⟨fun number => by rw [if_pos number]; rfl, fun other => by rw [if_neg other]; rfl⟩

/-- A class that another file of the project declares. -/
def petEntry : Entry :=
  ⟨⟨"Pet", "Zoo", .classKind, [], none, [], [], []⟩, none, some ⟨"/p/Pet.cs"⟩⟩

def kennelSetting : Setting :=
  .of ⟨⟨"/p/Kennel.cs"⟩, [], [], []⟩
    ⟨"App", ⟨"/p"⟩, [("Zoo.Pet", petEntry)]⟩ .default

/-- Two lists around a pet, spelled in two ways, and a dictionary of them. -/
theorem types_resolve_by_parts_of_kennel :
    let s := kennelSetting
    let site : Site := ⟨"App", ["App.Kennel"], "App"⟩
    let pet : TypeSyntax := .named "Zoo.Pet" []
    let marks : TypeSyntax := .array (.nullable (.array pet))
    let words : TypeSyntax := .named "System.Collections.Generic.List"
      [.named "Nullable" [.named "IEnumerable" [pet]]]
    resolveMemberType s.options (s.resolveName [] site) marks =
        resolveMemberType s.options (s.resolveName [] site) words ∧
      ∀ trail, s.typeText [] site trail words = "Zoo.Pet[][]" ∧
        s.typeText [] site trail (.named "Dictionary" [.named "long" [], words]) =
          "\x7b [key: number]: Zoo.Pet[][] \x7d" := by
  intro s site pet marks words
  obtain ⟨respelled, texts⟩ := types_resolve_by_parts s [] site
  have one : pet.ListOf (.named "IEnumerable" [pet]) := .collection (by decide)
  have maybe : TypeSyntax.NullableOf (.named "IEnumerable" [pet])
      (.named "Nullable" [.named "IEnumerable" [pet]]) := .spelled (by decide)
  have two : TypeSyntax.ListOf (.named "Nullable" [.named "IEnumerable" [pet]]) words :=
    .collection (by decide)
  have plain : pet.Respelled pet := .named rfl (by simp)
  have found : kennelSetting.lookup? ⟨"App", ["App.Kennel"], "App"⟩ "Zoo.Pet" =
      some ("Zoo.Pet", petEntry) := by with_unfolding_all rfl
  have shown : s.displayName site petEntry.host.space petEntry.host.name = "Zoo.Pet" := by decide
  have alone : ∀ trail, s.typeText [] site trail pet = "Zoo.Pet" := by
    intro trail
    rw [Setting.typeText_eq, TypeSyntax.subject?_named rfl, TypeSyntax.wrap_unknown rfl,
      resolveSubject, Setting.resolveName_eq, Setting.sense_eq_declared found rfl]
    simp only [Resolving.bind_apply, shown]
    rfl
  refine ⟨respelled marks words (.list (.nullable (.list plain one) maybe) two),
    fun trail => ?_⟩
  obtain ⟨_, _, _, counted⟩ := texts trail pet
  obtain ⟨_, _, keyed, _⟩ := texts trail words
  have text : s.typeText [] site trail words = "Zoo.Pet[][]" := by
    rw [counted 2 words (.list (.nullable (.list .core one) maybe) two), alone]
    decide
  refine ⟨text, ?_⟩
  rw [(keyed (.named "long" []) _ (.named (by decide))).1 ⟨"long", rfl, by decide⟩, text]
  decide

end Ambient
