import Ambient.Proofs.Index.Keys
import Ambient.Proofs.Resolution.Compositional
import Ambient.Proofs.Resolution.Subject

/-!
# Tasks

A task counts as what it yields, as far as that has a form of its own. A name has none: a task
around it is looked up under the name of the task, so that where no type is called so the member is
untyped. A dictionary key is judged by its spelling, so a task of a number is no number key. The
main statement says exactly where a task may be left out.
-/
namespace Ambient

open Host

namespace TypeSyntax

/-- One layer of a type around a part of it. -/
inductive Layer where
  | array
  | collection (name : String) (known : lastSegment name ∈ KnownType.collectionNames)
  | mark
  | spelled (name : String) (known : lastSegment name = "Nullable")
  | value (name : String) (known : lastSegment name ∈ KnownType.dictionaryNames)
    (key : TypeSyntax)
  | key (name : String) (known : lastSegment name ∈ KnownType.dictionaryNames)
    (value : TypeSyntax)

namespace Layer

def around : Layer → TypeSyntax → TypeSyntax
  | array, t => .array t
  | collection name _, t => .named name [t]
  | mark, t => .nullable t
  | spelled name _, t => .named name [t]
  | value name _ k, t => .named name [k, t]
  | key name _ v, t => .named name [t, v]

/-- What a type with this layer at the outside is classified as. -/
def form : Layer → TypeSyntax → KnownType
  | array, t => .collection t
  | collection _ _, t => .collection t
  | mark, t => .nullable t
  | spelled _ _, t => .nullable t
  | value _ _ k, t => .dictionary k t
  | key _ _ v, t => .dictionary t v

/-- Whether the part is what the type hands on; a dictionary does not hand on its keys. -/
def handsOn : Layer → Bool
  | key _ _ _ => false
  | _ => true

theorem classify_around (l : Layer) (t : TypeSyntax) :
    KnownType.classify (l.around t) = l.form t := by
  cases l with
  | array => rfl
  | collection name known => exact (ListOf.collection known).classify
  | mark => rfl
  | spelled name known => exact (NullableOf.spelled known).classify
  | value name known key => exact (DictionaryOf.named known).classify
  | key name known value => exact (DictionaryOf.named known).classify

theorem inner_form {l : Layer} (handsOn : l.handsOn = true) (t : TypeSyntax) :
    (l.form t).inner = [t] := by
  cases l with
  | key => cases handsOn
  | _ => rfl

/-- A type inside a layer is no number key, whatever it is. -/
theorem not_isNumberKey_around (l : Layer) (t : TypeSyntax) : ¬ (l.around t).IsNumberKey := by
  rintro ⟨name, same, _⟩
  cases l <;> cases same

/-- Whether a member is optional is seen at the outermost layer. -/
theorem isOptional_around (l : Layer) (a b : TypeSyntax) :
    (l.around a).isOptional = (l.around b).isOptional := by
  rw [isOptional_eq, isOptional_eq, classify_around, classify_around]
  cases l <;> rfl

end Layer

theorem Equivalent.around {a b : TypeSyntax} (h : Equivalent a b) {l : Layer}
    (handsOn : l.handsOn = true) : Equivalent (l.around a) (l.around b) := by
  have left := l.classify_around a
  have right := l.classify_around b
  cases l with
  | array => exact .collection left right h
  | collection => exact .collection left right h
  | mark => exact .nullable left right h
  | spelled => exact .nullable left right h
  | value => exact .dictionary left right rfl h
  | key => cases handsOn

/-- A type inside layers, of which the first is the outermost. -/
def layered (layers : List Layer) (t : TypeSyntax) : TypeSyntax := layers.foldr Layer.around t

theorem layered_cons (l : Layer) (more : List Layer) (t : TypeSyntax) :
    layered (l :: more) t = l.around (layered more t) := rfl

theorem layered_append (outer inner : List Layer) (t : TypeSyntax) :
    layered (outer ++ inner) t = layered outer (layered inner t) := by
  simp only [layered, List.foldr_append]

section Layers
variable {a b : TypeSyntax} {layers : List Layer}

theorem Equivalent.layered (h : Equivalent a b) (handsOn : ∀ l ∈ layers, l.handsOn = true) :
    Equivalent (layered layers a) (layered layers b) := by
  induction layers with
  | nil => exact h
  | cons l more ih =>
    exact (ih fun l hl => handsOn l (List.mem_cons_of_mem _ hl)).around
      (handsOn l List.mem_cons_self)

theorem isOptional_layered (same : a.isOptional = b.isOptional) :
    (layered layers a).isOptional = (layered layers b).isOptional := by
  cases layers with
  | nil => exact same
  | cons l more => exact l.isOptional_around _ _

theorem subject?_layered (handsOn : ∀ l ∈ layers, l.handsOn = true) (t : TypeSyntax) :
    (layered layers t).subject? = t.subject? := by
  induction layers with
  | nil => rfl
  | cons l more ih =>
    rw [← ih fun l hl => handsOn l (List.mem_cons_of_mem _ hl), layered_cons]
    exact subject?_part (l.classify_around _) (Layer.inner_form (handsOn l List.mem_cons_self) _)

/-- What layers put around a type does not depend on the type, and shows a text in full. -/
theorem exists_wrap_layered (o : Options) (handsOn : ∀ l ∈ layers, l.handsOn = true) :
    ∃ put : TypeRef → TypeRef,
      (∀ t leaf, (layered layers t).wrap o leaf = put (t.wrap o leaf)) ∧
      ∃ front back isArray, ∀ text, put (.plain text) =
        .known (front ++ text ++ back) isArray := by
  induction layers with
  | nil => exact ⟨id, fun _ _ => rfl, "", "", false, fun text => by simp [TypeRef.plain]⟩
  | cons l more ih =>
    obtain ⟨put, puts, front, back, isArray, shown⟩ :=
      ih fun l hl => handsOn l (List.mem_cons_of_mem _ hl)
    have list : ∃ front back isArray, ∀ text,
        (put (.plain text)).listOf o = .known (front ++ text ++ back) isArray := by
      cases isArray with
      | false => exact ⟨front, back, true, fun text => by rw [shown]; rfl⟩
      | true =>
        refine ⟨front, back ++ "[]", true, fun text => ?_⟩
        rw [shown, ← String.append_assoc]
        rfl
    have outside := l.classify_around
    simp only [layered_cons]
    cases l with
    | array | collection =>
      refine ⟨fun r => (put r).listOf o, fun t leaf => ?_, list⟩
      simp only [wrap_collection (outside _), puts]
    | mark | spelled =>
      refine ⟨put, fun t leaf => ?_, front, back, isArray, shown⟩
      rw [wrap_nullable (outside _), puts]
    | value name known key =>
      refine ⟨fun r => (put r).dictionaryOf o (KnownType.isNumericKey key), fun t leaf => ?_,
        "\x7b [key: " ++ (if KnownType.isNumericKey key then "number" else "string") ++ "]: " ++
          front, back ++ (if isArray then "[]" else "") ++ " \x7d", false, fun text => ?_⟩
      · simp only [wrap_dictionary (outside _), puts]
      · simp only [shown]
        simp only [TypeRef.dictionaryOf, TypeRef.text, TypeRef.plain, String.append_assoc]
    | key => cases handsOn _ List.mem_cons_self

end Layers

section Task
variable {task : String} {t : TypeSyntax}

theorem classify_task (isTask : lastSegment task ∈ KnownType.taskNames) (t : TypeSyntax) :
    KnownType.classify (.named task [t]) = KnownType.classify t := by
  have other : lastSegment task ≠ "Nullable" ∧
      lastSegment task ∉ KnownType.collectionNames := by
    rcases List.mem_cons.mp isTask with name | name
    · rw [name]
      decide
    · rw [List.mem_singleton.mp name]
      decide
  simp only [KnownType.classify, other.1, other.2, isTask, if_true, if_false]

/-- A task is what it yields if that has a form of its own. -/
theorem equivalent_task (isTask : lastSegment task ∈ KnownType.taskNames)
    (known : KnownType.classify t ≠ .unknown) : Equivalent (.named task [t]) t :=
  .of_classify (classify_task isTask t) known

/-- A task is no number key. -/
theorem not_isNumberKey_task (t : TypeSyntax) : ¬ IsNumberKey (.named task [t]) := by
  rintro ⟨name, same, _⟩
  cases same

end Task

end TypeSyntax

namespace Setting
variable {s : Setting} {done : List String} {site : Site}

/-- No type of the project or the file is called a task. -/
def Taskless (s : Setting) : Prop :=
  ∀ key ∈ s.keys, TypeSyntax.lastSegment key ∉ KnownType.taskNames

theorem lastSegment_qualify (outer name : String) :
    TypeSyntax.lastSegment (qualify outer name) = TypeSyntax.lastSegment name := by
  rw [TypeSyntax.lastSegment, lastPiece_qualify, TypeSyntax.lastSegment]

theorem lastSegment_of_lookup? {written key : String} {e : Entry}
    (h : s.lookup? site written = some (key, e)) :
    TypeSyntax.lastSegment key = TypeSyntax.lastSegment written := by
  have candidate : key ∈ (s.scope site).candidates written := by
    rcases Option.or_eq_some_iff.mp h with own | ⟨_, project⟩
    · exact Index.mem_candidates_of_lookup? own
    · exact Index.mem_candidates_of_lookup? project
  obtain ⟨outer, _, rfl⟩ := List.mem_map.mp candidate
  exact lastSegment_qualify outer written

/-- Where no type is called a task, the name of a task means nothing. -/
theorem resolveName_task (assumes : s.options.assumeExternalType = false) (taskless : s.Taskless)
    {task : String} (isTask : TypeSyntax.lastSegment task ∈ KnownType.taskNames) :
    s.resolveName done site task = pure .unknown := by
  have missing : s.lookup? site task = none := by
    cases looked : s.lookup? site task with
    | none => rfl
    | some found =>
      obtain ⟨key, e⟩ := found
      have other := taskless key (mem_keys_of_lookup? looked)
      rw [lastSegment_of_lookup? looked] at other
      exact absurd isTask other
  have sense : s.sense done site task = .missing := by
    unfold sense
    rw [missing]
  rw [resolveName_eq, sense]
  simp only [assumes]
  rfl

/-- What is met leaves no trace exactly if it refers to no output. -/
theorem follow_eq_iff {met : List FoundBase} :
    (∀ trail, s.follow trail met = trail) ↔ ∀ v ∈ met, s.outputOf? v = none := by
  constructor
  · intro silent
    have none : ∀ (outputs : List Path) (p : Path),
        (p :: outputs).foldl Path.insertNew [] ≠ [] := by
      intro outputs p empty
      have met : ∃ q ∈ (p :: outputs).foldl Path.insertNew [], q.same p = true :=
        Path.exists_same_foldl_insertNew.mpr ⟨p, List.mem_cons_self, Path.same_iff.mpr rfl⟩
      rw [empty] at met
      obtain ⟨q, hq, _⟩ := met
      cases hq
    have references := references_follow (s := s) ⟨[], .empty⟩ met
    rw [silent] at references
    cases outputs : met.filterMap s.outputOf? with
    | nil => exact List.filterMap_eq_nil_iff.mp outputs
    | cons p more =>
      rw [outputs] at references
      exact absurd references.symm (none more p)
  · intro silent trail
    induction met with
    | nil => rfl
    | cons v more ih =>
      have first : s.note trail v = trail := by
        have quiet := silent v List.mem_cons_self
        have homeless : s.homeOf? v = none := by
          cases v with
          | known home => rfl
          | declared key e =>
            simp only [outputOf?, Option.bind_eq_none_iff] at quiet
            simp only [homeOf?, Option.bind_eq_none_iff]
            intro file declares
            have := quiet file declares
            split at this
            · rename_i own
              rw [if_pos own]
            · cases this
        rw [note_eq, quiet, homeless]
        rfl
      show s.follow (s.note trail v) more = trail
      rw [first, ih fun w hw => silent w (List.mem_cons_of_mem v hw)]

theorem resolveMemberType_apply (assumes : s.options.assumeExternalType = false) (ty : TypeSyntax)
    (trail : Trail) :
    resolveMemberType s.options (s.resolveName done site) ty trail =
      ((ty.wrap s.options (ty.subject?.elim .unknown (s.typeOf .empty done site)), ty.isOptional),
        s.follow trail (ty.subject?.elim [] (s.visits .empty done site))) := by
  have steady : s.Steady .empty trail := fun assumed => absurd assumed (by simp [assumes])
  rw [resolveMemberType_eq, Resolving.map_apply,
    (resolveSubject_apply (fun name t => resolveName_apply done site name t) _ trail steady).1]

open TypeSyntax

variable {task : String} {t : TypeSyntax} {layers outer inner : List Layer}

/-- A task of a type without a form of its own is untyped. -/
theorem resolveMemberType_task (assumes : s.options.assumeExternalType = false)
    (taskless : s.Taskless) (isTask : lastSegment task ∈ KnownType.taskNames)
    (handsOn : ∀ l ∈ layers, l.handsOn = true) (unknown : KnownType.classify t = .unknown) :
    resolveMemberType s.options (s.resolveName done site) (layered layers (.named task [t])) =
      pure ((layered layers t).wrap s.options .unknown, (layered layers t).isOptional) := by
  have form := (classify_task isTask t).trans unknown
  have optional : (layered layers (.named task [t])).isOptional = (layered layers t).isOptional :=
    isOptional_layered (by rw [isOptional_eq, isOptional_eq, form, unknown])
  obtain ⟨put, puts, _⟩ := exists_wrap_layered s.options handsOn
  rw [resolveMemberType_eq, subject?_layered handsOn, subject?_named form, resolveSubject,
    resolveName_task assumes taskless isTask, map_pure, optional, puts, puts, wrap_unknown form,
    wrap_unknown unknown]

/-- So it is what the type itself is exactly if the type is untyped there and refers to nothing. -/
theorem resolveMemberType_task_iff (assumes : s.options.assumeExternalType = false)
    (taskless : s.Taskless) (isTask : lastSegment task ∈ KnownType.taskNames)
    (handsOn : ∀ l ∈ layers, l.handsOn = true) {name : String} {args : List TypeSyntax}
    (unknown : KnownType.classify (.named name args) = .unknown) :
    resolveMemberType s.options (s.resolveName done site)
        (layered layers (.named task [.named name args])) =
      resolveMemberType s.options (s.resolveName done site) (layered layers (.named name args)) ↔
    (layered layers (.named name args)).wrap s.options (s.typeOf .empty done site name) =
        (layered layers (.named name args)).wrap s.options .unknown ∧
      ∀ v ∈ s.visits .empty done site name, s.outputOf? v = none := by
  have subject : (layered layers (.named name args)).subject? = some name :=
    (subject?_layered handsOn _).trans (subject?_named unknown)
  rw [resolveMemberType_task assumes taskless isTask handsOn unknown, ← follow_eq_iff]
  constructor
  · intro same
    have each := fun trail =>
      (congrFun same trail).trans (resolveMemberType_apply assumes _ trail)
    rw [subject] at each
    refine ⟨?_, fun trail => (congrArg Prod.snd (each trail)).symm⟩
    exact (congrArg (fun result => result.1.1) (each ⟨[], .empty⟩)).symm
  · rintro ⟨type, silent⟩
    funext trail
    rw [resolveMemberType_apply assumes, subject, Option.elim_some, Option.elim_some, type, silent]
    rfl

/-- A dictionary shows whether its keys are numbers, and nothing else of them. -/
theorem resolveMemberType_key_iff (assumes : s.options.assumeExternalType = false)
    (handsOn : ∀ l ∈ outer, l.handsOn = true) {name : String}
    (known : lastSegment name ∈ KnownType.dictionaryNames) (k l value : TypeSyntax) :
    resolveMemberType s.options (s.resolveName done site) (layered outer (.named name [k, value])) =
      resolveMemberType s.options (s.resolveName done site)
        (layered outer (.named name [l, value])) ↔
    (k.IsNumberKey ↔ l.IsNumberKey) := by
  have form := fun key => (DictionaryOf.named (k := key) (v := value) known).classify
  rw [← isNumericKey_iff, ← isNumericKey_iff, ← Bool.eq_iff_iff]
  constructor
  · intro same
    obtain ⟨put, puts, front, back, isArray, shown⟩ := exists_wrap_layered s.options handsOn
    have types := congrArg (fun r => r.1.1) ((congrFun same ⟨[], .empty⟩).symm.trans
      (resolveMemberType_apply assumes _ _))
    rw [resolveMemberType_apply assumes] at types
    simp only [puts, subject?_layered handsOn, subject?_part (form _) rfl, wrap_dictionary (form _),
      TypeRef.dictionaryOf, shown, TypeRef.known.injEq, and_true] at types
    have aside : ∀ word text : String, "\x7b [key: " ++ word ++ "]: " ++ text ++ " \x7d" =
        "\x7b [key: " ++ word ++ ("]: " ++ text ++ " \x7d") := by
      intro word text
      simp only [String.append_assoc]
    have texts := append_middle_inj types
    rw [aside, aside] at texts
    have words := append_middle_inj texts
    cases number : KnownType.isNumericKey k <;> cases number' : KnownType.isNumericKey l <;>
      simp [number, number'] at words ⊢
  · intro same
    exact ((Equivalent.dictionary (form k) (form l) same (.refl value)).layered
      handsOn).resolveMemberType_eq _ _

end Setting

open TypeSyntax in
/-- Where no types are assumed and none is called a task, a task may be left out of the type of a
member, inside whatever lists, nullables and dictionary values it stands, exactly if what it yields
has a form of its own, or is a name that leaves the same there as an unknown one: the task of a name
is untyped. In a dictionary key a task may be left out exactly if it is not the task of a number. -/
theorem task_transparent_iff {s : Setting} (done : List String) (site : Site)
    (assumes : s.options.assumeExternalType = false) (taskless : s.Taskless) {task : String}
    (isTask : lastSegment task ∈ KnownType.taskNames) (t : TypeSyntax) :
    let member := fun ty => resolveMemberType s.options (s.resolveName done site) ty
    let wrapped := TypeSyntax.named task [t]
    (∀ layers : List Layer, (∀ l ∈ layers, l.handsOn = true) →
      (member (layered layers wrapped) = member (layered layers t) ↔
        KnownType.classify t ≠ .unknown ∨ ∃ name, t.subject? = some name ∧
          (layered layers t).wrap s.options (s.typeOf .empty done site name) =
            (layered layers t).wrap s.options .unknown ∧
          ∀ v ∈ s.visits .empty done site name, s.outputOf? v = none) ∧
      (KnownType.classify t = .unknown → member (layered layers wrapped) =
        pure ((layered layers t).wrap s.options .unknown, (layered layers t).isOptional))) ∧
    ∀ (outer inner : List Layer) (name : String)
      (known : lastSegment name ∈ KnownType.dictionaryNames)
      (value : TypeSyntax), (∀ l ∈ outer, l.handsOn = true) →
      (member (layered (outer ++ .key name known value :: inner) wrapped) =
          member (layered (outer ++ .key name known value :: inner) t) ↔
        ¬ (inner = [] ∧ t.IsNumberKey)) := by
  intro member wrapped
  refine ⟨fun layers handsOn => ⟨?value, ?untyped⟩, ?key⟩
  case untyped => exact Setting.resolveMemberType_task assumes taskless isTask handsOn
  case value =>
    by_cases unknown : KnownType.classify t = .unknown
    · obtain ⟨name, args, rfl⟩ := eq_named_of_unknown unknown
      have subject := subject?_named unknown
      rw [Setting.resolveMemberType_task_iff assumes taskless isTask handsOn unknown]
      constructor
      · exact fun leaves => .inr ⟨name, subject, leaves⟩
      · rintro (known | ⟨other, subject', leaves⟩)
        · exact absurd unknown known
        · rw [subject, Option.some.injEq] at subject'
          exact subject' ▸ leaves
    · have same :=
        ((equivalent_task isTask unknown).layered handsOn).resolveMemberType_eq s.options
        (s.resolveName done site)
      exact iff_of_true same (.inl unknown)
  case key =>
    intro outer inner name known value handsOn
    simp only [layered_append, layered_cons, member]
    rw [show (Layer.key name known value).around = fun k => .named name [k, value] from rfl,
      Setting.resolveMemberType_key_iff assumes handsOn known]
    cases inner with
    | nil =>
      show (wrapped.IsNumberKey ↔ t.IsNumberKey) ↔ _
      simp only [wrapped, not_isNumberKey_task, false_iff, true_and]
    | cons l more =>
      simp only [layered_cons, Layer.not_isNumberKey_around, reduceCtorEq, false_and, not_false_iff]

open TypeSyntax in
/-- A list of tasks of a number is a list of the number; a list of tasks of a pet is no list of the
pet, since the pet's file would be referred to. -/
theorem task_transparent_iff_of_pet :
    let s := kennelSetting
    let site : Site := ⟨"App", ["App.Kennel"], "App"⟩
    let member := fun ty => resolveMemberType s.options (s.resolveName [] site) ty
    let task := "System.Threading.Tasks.Task"
    member (.named "List" [.nullable (.named task [.named "int" []])]) =
        member (.named "List" [.nullable (.named "int" [])]) ∧
      member (.named "List" [.nullable (.named task [.named "Zoo.Pet" []])]) ≠
        member (.named "List" [.nullable (.named "Zoo.Pet" [])]) := by
  intro s site member task
  have taskless : s.Taskless := by
    unfold Setting.Taskless
    decide
  have isTask : lastSegment task ∈ KnownType.taskNames := by decide
  let layers : List Layer := [.collection "List" (by decide), .mark]
  have handsOn : ∀ l ∈ layers, l.handsOn = true := by decide
  have whole := fun t => ((task_transparent_iff [] site rfl taskless isTask t).1 layers handsOn).1
  have number : KnownType.classify (.named "int" []) ≠ .unknown := by
    rw [show KnownType.classify (.named "int" []) = .primitive "number" from rfl]
    exact nofun
  refine ⟨(whole (.named "int" [])).mpr (.inl number), fun same => ?_⟩
  rcases (whole (.named "Zoo.Pet" [])).mp same with known | ⟨name, subject, _, silent⟩
  · exact known rfl
  · rw [subject?_named rfl, Option.some.injEq] at subject
    have found : kennelSetting.lookup? ⟨"App", ["App.Kennel"], "App"⟩ "Zoo.Pet" =
        some ("Zoo.Pet", petEntry) := by with_unfolding_all rfl
    have met : s.visits .empty [] site name = [.declared "Zoo.Pet" petEntry] := by
      rw [← subject, Setting.visits_eq, Setting.sense_eq_declared found rfl]
    rw [met] at silent
    exact absurd (silent _ (List.mem_singleton_self _)) (by decide)

end Ambient
