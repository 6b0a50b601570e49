import Ambient.Proofs.Resolution.Subject
import Ambient.Resolution.Base

/-!
# What resolving a name comes to

Resolving threads a trail through every member it meets. Here its two effects are taken apart: the
type a name stands for, and the list of declared types that are met on the way, in order. The trail
afterwards is the trail before with these noted one after another. The sidecar is fixed during a
run: it only counts where types elsewhere are assumed to exist, and then nothing is recorded in it.
-/
namespace Ambient

open Host

namespace Resolving
variable {α β : Type}

theorem bind_apply (x : Resolving α) (f : α → Resolving β) (t : Trail) :
    (x >>= f) t = f (x t).1 (x t).2 := rfl

theorem map_apply (f : α → β) (x : Resolving α) (t : Trail) :
    (f <$> x) t = (f (x t).1, (x t).2) := rfl

theorem pure_apply (a : α) (t : Trail) : (pure a : Resolving α) t = (a, t) := rfl

theorem get_apply (t : Trail) : (get : Resolving Trail) t = (t, t) := rfl

end Resolving

namespace Setting

/-- The chain of the types around a type comes from nothing but what each of them lies in. -/
theorem outward_congr {a b : Setting}
    (same : ∀ key, (a.get? key).bind (·.container) = (b.get? key).bind (·.container))
    (key : String) :
    a.outward key = b.outward key := by
  rw [outward, outward, same]
  cases (b.get? key).bind (·.container) with
  | none => rfl
  | some outer =>
    by_cases shorter : outer.length < key.length
    · simp only [shorter, dif_pos, outward_congr same outer]
    · simp only [shorter, dif_neg, not_false_iff]
termination_by key.length

/-- The trail after a declared or known type is met. -/
def note (s : Setting) (t : Trail) : FoundBase → Trail
  | .declared key e => (s.addReference key e t).2
  | .known home => (Resolving.refer (s.homeOutput home) t).2

def follow (s : Setting) (t : Trail) (met : List FoundBase) : Trail := met.foldl s.note t

/-- What stands for a name that no index knows. -/
def assumed (s : Setting) (sidecar : Sidecar) (site : Site) (written : String) : TypeRef :=
  let ⟨space, simple⟩ := splitQualified written
  match sidecar.findHome? written with
  | some home => .plain (s.displayName site (splitQualified home.typeName).space simple)
  | none =>
    let typeName := s.options.typeName simple
    .plain (if space.isEmpty then typeName else space ++ "." ++ typeName)

/-- What a name means where it is written: nothing known, a type that is never written out, a
declared type, an enum known by its shape only, a class that is just being expanded, or a class
that becomes the shape of its members. -/
inductive Sense where
  | missing
  | interface
  | declared (key : String) (e : Entry)
  | number
  | expanding (e : Entry)
  | inlined (key : String) (e : Entry)

def sense (s : Setting) (done : List String) (site : Site) (written : String) : Sense :=
  match s.lookup? site written with
  | none => .missing
  | some (key, e) =>
    if e.host.kind = .interfaceKind then .interface
    else if e.isDeclared then .declared key e
    else if e.host.isEnum then .number
    else if done.contains key then .expanding e
    else .inlined key e

theorem lookup?_of_declared {s : Setting} {done : List String} {site : Site}
    {written key : String} {e : Entry} (h : s.sense done site written = .declared key e) :
    s.lookup? site written = some (key, e) ∧ e.isDeclared = true := by
  unfold sense at h
  repeat' split at h
  all_goals simp_all

theorem lookup?_of_inlined {s : Setting} {done : List String} {site : Site}
    {written key : String} {e : Entry} (h : s.sense done site written = .inlined key e) :
    s.lookup? site written = some (key, e) ∧ ¬ done.contains key := by
  unfold sense at h
  repeat' split at h
  all_goals simp_all

theorem remaining_lt_of_inlined {s : Setting} {done : List String} {site : Site}
    {written key : String} {e : Entry} (h : s.sense done site written = .inlined key e) :
    s.remaining (key :: done) < s.remaining done :=
  remaining_lt (mem_keys_of_lookup? (lookup?_of_inlined h).1) (lookup?_of_inlined h).2

/-- The type that a name stands for. -/
def typeOf (s : Setting) (sidecar : Sidecar) (done : List String) (site : Site)
    (written : String) : TypeRef :=
  match h : s.sense done site written with
  | .missing => if s.options.assumeExternalType then s.assumed sidecar site written else .unknown
  | .interface => .unknown
  | .declared _ e => .plain (s.displayName site e.host.space e.host.name)
  | .number => .plain "number"
  | .expanding e => .plain (s.options.typeName e.host.name)
  | .inlined key e =>
    have := remaining_lt_of_inlined h
    let inner := s.siteIn site.module_ key e.host
    .shape ((e.host.members.filter (!·.isIgnored)).map fun m =>
      m.declare s.options (m.subject?.elim .unknown fun name =>
        s.typeOf sidecar (key :: done) inner name)) false
termination_by s.remaining done

/-- The declared and known types that are met when a name is resolved. -/
def visits (s : Setting) (sidecar : Sidecar) (done : List String) (site : Site)
    (written : String) : List FoundBase :=
  match h : s.sense done site written with
  | .missing =>
    if s.options.assumeExternalType then (sidecar.findHome? written).toList.map .known else []
  | .declared key e => [.declared key e]
  | .inlined key e =>
    have := remaining_lt_of_inlined h
    let inner := s.siteIn site.module_ key e.host
    (e.host.members.filter (!·.isIgnored)).flatMap fun m =>
      m.subject?.elim [] fun name => s.visits sidecar (key :: done) inner name
  | _ => []
termination_by s.remaining done

/-- All entries that a lookup finds belong to the file at hand, or to no file. -/
def Alone (s : Setting) : Prop :=
  ∀ site written key e file, s.lookup? site written = some (key, e) → e.file = some file →
    file.same s.file.path

/-- What holds of a trail all through a run: where the sidecar counts, it stays as it was. -/
def Steady (s : Setting) (sidecar : Sidecar) (t : Trail) : Prop :=
  s.options.assumeExternalType = true → s.Alone ∧ t.sidecar = sidecar

variable {s : Setting} {sidecar : Sidecar} {t : Trail}

theorem note_of_same {key : String} {e : Entry}
    (own : ∀ file, e.file = some file → file.same s.file.path) :
    s.note t (.declared key e) = t := by
  simp only [note, addReference]
  cases declared : e.file with
  | none => rfl
  | some file => simp [own file declared, Resolving.pure_apply]

theorem Steady.declared {site : Site} {written key : String} {e : Entry}
    (steady : s.Steady sidecar t) (found : s.lookup? site written = some (key, e)) :
    s.Steady sidecar (s.note t (.declared key e)) := by
  intro assumes
  obtain ⟨alone, kept⟩ := steady assumes
  rw [note_of_same fun file => alone site written key e file found]
  exact ⟨alone, kept⟩

theorem Steady.known {home : TypeHome} (steady : s.Steady sidecar t) :
    s.Steady sidecar (s.note t (.known home)) := steady

end Setting

/-- Members resolved in turn: if each step gives a value and changes the trail in a known way that
keeps an invariant, so does the whole list. -/
theorem mapM_resolving {α β : Type} (Inv : Trail → Prop) (f : α → Resolving β)
    (value : α → β) (change : Trail → α → Trail) (xs : List α)
    (step : ∀ x ∈ xs, ∀ t, Inv t → f x t = (value x, change t x) ∧ Inv (change t x)) :
    ∀ t, Inv t → xs.mapM f t = (xs.map value, xs.foldl change t) ∧
    Inv (xs.foldl change t) := by
  induction xs with
  | nil => exact fun t inv => ⟨rfl, inv⟩
  | cons x more ih =>
    intro t inv
    obtain ⟨first, inv⟩ := step x List.mem_cons_self t inv
    obtain ⟨others, inv⟩ :=
      ih (fun y hy => step y (List.mem_cons_of_mem x hy)) (change t x) inv
    refine ⟨?_, inv⟩
    rw [List.mapM_cons, Resolving.bind_apply, first, Resolving.bind_apply, others]
    rfl

namespace Setting
variable {s : Setting} {sidecar : Sidecar}

/-- Resolving the subject of a type, given what resolving a name comes to. -/
theorem resolveSubject_apply {named : String → Resolving TypeRef} {value : String → TypeRef}
    {met : String → List FoundBase}
    (step : ∀ name t, s.Steady sidecar t →
      named name t = (value name, s.follow t (met name)) ∧
        s.Steady sidecar (s.follow t (met name)))
    (subject : Option String) (t : Trail) (steady : s.Steady sidecar t) :
    resolveSubject named subject t =
        (subject.elim .unknown value, s.follow t (subject.elim [] met)) ∧
      s.Steady sidecar (s.follow t (subject.elim [] met)) := by
  cases subject with
  | none => exact ⟨rfl, steady⟩
  | some name => exact step name t steady

/-- The members of a class, given what resolving a name comes to. -/
theorem resolveMembers_apply {named : String → Resolving TypeRef} {value : String → TypeRef}
    {met : String → List FoundBase}
    (step : ∀ name t, s.Steady sidecar t →
      named name t = (value name, s.follow t (met name)) ∧
        s.Steady sidecar (s.follow t (met name)))
    (members : List Host.Member) (t : Trail) (steady : s.Steady sidecar t) :
    let kept := members.filter (!·.isIgnored)
    let all := kept.flatMap fun m => m.subject?.elim [] met
    resolveMembers s.options named members t =
        (kept.map fun m => m.declare s.options (m.subject?.elim .unknown value),
          s.follow t all) ∧
      s.Steady sidecar (s.follow t all) := by
  intro kept all
  have each : ∀ m ∈ kept, ∀ t, s.Steady sidecar t →
      resolveMember s.options named m t =
          (m.declare s.options (m.subject?.elim .unknown value),
            s.follow t (m.subject?.elim [] met)) ∧
        s.Steady sidecar (s.follow t (m.subject?.elim [] met)) := by
    intro m _ t steady
    obtain ⟨run, steady⟩ := resolveSubject_apply step m.subject? t steady
    refine ⟨?_, steady⟩
    rw [resolveMember_eq, Resolving.map_apply, run]
  have whole := mapM_resolving (s.Steady sidecar) (resolveMember s.options named) _ _ kept each
    t steady
  have notes : kept.foldl (fun t m => s.follow t (m.subject?.elim [] met)) t = s.follow t all := by
    simp only [follow, all, List.foldl_flatMap]
  rw [notes] at whole
  exact whole

theorem assumedType_apply {site : Site} {written : String} {t : Trail}
    (kept : t.sidecar = sidecar) :
    s.assumedType site written t =
      (s.assumed sidecar site written,
        s.follow t ((sidecar.findHome? written).toList.map .known)) := by
  subst kept
  simp only [assumedType, assumed, Resolving.bind_apply]
  show (match t.sidecar.findHome? written with | some home => _ | none => _ : Resolving TypeRef) t =
    _
  cases t.sidecar.findHome? written with
  | some home => rfl
  | none => rfl

theorem typeOf_eq (done : List String) (site : Site) (written : String) :
    s.typeOf sidecar done site written =
      match s.sense done site written with
      | .missing =>
        if s.options.assumeExternalType then s.assumed sidecar site written else .unknown
      | .interface => .unknown
      | .declared _ e => .plain (s.displayName site e.host.space e.host.name)
      | .number => .plain "number"
      | .expanding e => .plain (s.options.typeName e.host.name)
      | .inlined key e =>
        .shape ((e.host.members.filter (!·.isIgnored)).map fun m =>
          m.declare s.options (m.subject?.elim .unknown
            (s.typeOf sidecar (key :: done) (s.siteIn site.module_ key e.host)))) false := by
  rw [typeOf]
  split <;> simp_all

theorem visits_eq (done : List String) (site : Site) (written : String) :
    s.visits sidecar done site written =
      match s.sense done site written with
      | .missing =>
        if s.options.assumeExternalType then (sidecar.findHome? written).toList.map .known else []
      | .declared key e => [.declared key e]
      | .inlined key e =>
        (e.host.members.filter (!·.isIgnored)).flatMap fun m =>
          m.subject?.elim []
            (s.visits sidecar (key :: done) (s.siteIn site.module_ key e.host))
      | _ => [] := by
  rw [visits]
  split <;> simp_all

/-- Resolving by the sense of a name. -/
theorem resolveName_eq (done : List String) (site : Site) (written : String) :
    s.resolveName done site written =
      match s.sense done site written with
      | .missing =>
        if s.options.assumeExternalType then s.assumedType site written else pure .unknown
      | .interface => pure .unknown
      | .declared key e => do
        s.addReference key e
        return .plain (s.displayName site e.host.space e.host.name)
      | .number => pure (.plain "number")
      | .expanding e => pure (.plain (s.options.typeName e.host.name))
      | .inlined key e => do
        let members ← resolveMembers s.options
          (s.resolveName (key :: done) (s.siteIn site.module_ key e.host)) e.host.members
        return .shape members false := by
  rw [resolveName]
  unfold sense
  split
  · rename_i missing
    simp only [missing]
  · rename_i key e found
    simp only [found]
    repeat' split
    all_goals simp_all

/-- Resolving a name gives its type and notes what it meets. -/
theorem resolveName_apply (done : List String) (site : Site) (written : String) (t : Trail)
    (steady : s.Steady sidecar t) :
    s.resolveName done site written t =
        (s.typeOf sidecar done site written, s.follow t (s.visits sidecar done site written)) ∧
      s.Steady sidecar (s.follow t (s.visits sidecar done site written)) := by
  fun_induction typeOf s sidecar done site written generalizing t with
  | case1 done site written h assumes =>
    rw [resolveName_eq, visits_eq]
    simp only [h, assumes, if_true]
    refine ⟨assumedType_apply (steady assumes).2, ?_⟩
    cases sidecar.findHome? written with
    | none => exact steady
    | some home => exact steady.known
  | case2 done site written h assumes =>
    rw [resolveName_eq, visits_eq]
    simp only [h, assumes]
    exact ⟨rfl, steady⟩
  | case3 done site written h =>
    rw [resolveName_eq, visits_eq]
    simp only [h]
    exact ⟨rfl, steady⟩
  | case4 done site written key e h =>
    rw [resolveName_eq, visits_eq]
    simp only [h]
    exact ⟨rfl, steady.declared (lookup?_of_declared h).1⟩
  | case5 done site written h =>
    rw [resolveName_eq, visits_eq]
    simp only [h]
    exact ⟨rfl, steady⟩
  | case6 done site written e h =>
    rw [resolveName_eq, visits_eq]
    simp only [h]
    exact ⟨rfl, steady⟩
  | case7 done site written key e h _ inner ih =>
    obtain ⟨run, steady⟩ := resolveMembers_apply ih e.host.members t steady
    rw [resolveName_eq, visits_eq]
    simp only [h, Resolving.bind_apply]
    refine ⟨?_, steady⟩
    exact congrArg (fun r : List Member × Trail => (TypeRef.shape r.1 false, r.2)) run

end Setting

end Ambient
