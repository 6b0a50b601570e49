import Ambient.Proofs.Resolution.Visits

/-!
# Which declared types are reached

A written name reaches a declared type if it means that type, or if it means a class that is written
out as a shape and one of the members of that class reaches it. This module ties the relation to
the list of types met during a run, and that list to the outputs a run refers to.
-/
namespace Ambient

open Host

namespace Path

theorem same_iff {p q : Path} : p.same q = true ↔ p.components = q.components := by
  simp [same]

/-- Up to sameness, a new path is one more member. -/
theorem exists_same_insertNew {paths : List Path} {p r : Path} :
    (∃ q ∈ insertNew paths p, q.same r = true) ↔
      (∃ q ∈ paths, q.same r = true) ∨ p.same r := by
  unfold insertNew
  split
  · rename_i present
    constructor
    · exact Or.inl
    · rintro (known | new)
      · exact known
      · obtain ⟨q, hq, same⟩ := List.any_eq_true.mp present
        rw [same_iff] at same new
        exact ⟨q, hq, same_iff.mpr (same.symm.trans new)⟩
  · simp only [List.mem_append, List.mem_singleton, or_and_right, exists_or, exists_eq_left]

theorem exists_same_foldl_insertNew {paths more : List Path} {r : Path} :
    (∃ q ∈ more.foldl insertNew paths, q.same r = true) ↔
      ∃ q ∈ paths ++ more, q.same r = true := by
  induction more generalizing paths with
  | nil => simp
  | cons p more ih =>
    rw [List.foldl_cons, ih]
    simp only [List.mem_append, List.mem_cons, or_and_right, exists_or, exists_eq_left,
      exists_same_insertNew, or_assoc]

end Path

namespace Setting

/-- `s.Reaches done site written key e`: the name `written` at `site` reaches the declared type `e`
of the qualified name `key`, where the classes in `done` are just being written out. -/
inductive Reaches (s : Setting) : List String → Site → String → String → Entry → Prop
  | named {done : List String} {site : Site} {written key : String} {e : Entry} :
    s.lookup? site written = some (key, e) → e.isDeclared = true →
    Reaches s done site written key e
  | inside {done : List String} {site : Site} {written outer name key : String} {f e : Entry}
    {m : Host.Member} :
    s.lookup? site written = some (outer, f) → f.host.kind = .classKind →
    f.isDeclared = false → outer ∉ done → m ∈ f.host.members → m.isIgnored = false →
    m.subject? = some name →
    Reaches s (outer :: done) (s.siteIn site.module_ outer f.host) name key e →
    Reaches s done site written key e

variable {s : Setting} {sidecar : Sidecar}

theorem sense_eq_declared {done : List String} {site : Site} {written key : String} {e : Entry}
    (found : s.lookup? site written = some (key, e)) (declared : e.isDeclared = true) :
    s.sense done site written = .declared key e := by
  have kind : e.host.kind ≠ .interfaceKind := by
    intro h
    simp [Entry.isDeclared, h] at declared
  simp [sense, found, kind, declared]

theorem sense_eq_inlined {done : List String} {site : Site} {written key : String} {e : Entry}
    (found : s.lookup? site written = some (key, e)) (kind : e.host.kind = .classKind)
    (undeclared : e.isDeclared = false) (fresh : key ∉ done) :
    s.sense done site written = .inlined key e := by
  simp [sense, found, kind, undeclared, TypeDecl.isEnum, fresh]

theorem kind_of_inlined {done : List String} {site : Site} {written key : String} {e : Entry}
    (h : s.sense done site written = .inlined key e) :
    e.host.kind = .classKind ∧ e.isDeclared = false := by
  unfold sense at h
  repeat' split at h
  all_goals simp_all [TypeDecl.isEnum]
  cases kind : e.host.kind <;> simp_all

theorem mem_visits_iff {done : List String} {site : Site} {written key : String} {e : Entry} :
    FoundBase.declared key e ∈ s.visits sidecar done site written ↔
      s.Reaches done site written key e := by
  constructor
  · fun_induction visits s sidecar done site written with
    | case1 done site written h assumes => simp
    | case2 done site written h assumes => simp
    | case3 done site written key' e' h =>
      intro met
      simp only [List.mem_singleton, FoundBase.declared.injEq] at met
      obtain ⟨rfl, rfl⟩ := met
      exact .named (lookup?_of_declared h).1 (lookup?_of_declared h).2
    | case4 done site written outer f h _ inner ih =>
      intro met
      obtain ⟨m, hm, reached⟩ := List.mem_flatMap.mp met
      obtain ⟨hm, notIgnored⟩ := List.mem_filter.mp hm
      obtain ⟨found, fresh⟩ := lookup?_of_inlined h
      obtain ⟨kind, undeclared⟩ := kind_of_inlined h
      cases subject : m.subject? with
      | none => simp [subject] at reached
      | some name =>
        simp only [subject, Option.elim_some] at reached
        exact .inside found kind undeclared (by simpa using fresh) hm (by simpa using notIgnored)
          subject (ih name reached)
    | case5 => simp
  · intro reaches
    induction reaches with
    | named found declared =>
      rw [visits_eq]
      simp [sense_eq_declared found declared]
    | inside found kind undeclared fresh hm notIgnored subject _ ih =>
      rw [visits_eq]
      simp only [sense_eq_inlined found kind undeclared fresh]
      refine List.mem_flatMap.mpr ⟨_, List.mem_filter.mpr ⟨hm, by simp [notIgnored]⟩, ?_⟩
      simpa only [subject, Option.elim_some] using ih

/-- Where no types are assumed, a name meets declared types only. -/
theorem known_notMem_visits (assumes : s.options.assumeExternalType = false) {done : List String}
    {site : Site} {written : String} {home : TypeHome} :
    FoundBase.known home ∉ s.visits sidecar done site written := by
  fun_induction visits s sidecar done site written with
  | case1 _ _ _ _ assumed => simp [assumes] at assumed
  | case2 => simp
  | case3 => simp
  | case4 done site written outer f h _ inner ih =>
    intro met
    obtain ⟨m, _, reached⟩ := List.mem_flatMap.mp met
    cases subject : m.subject? with
    | none => simp [subject] at reached
    | some name =>
      rw [subject, Option.elim_some] at reached
      exact ih name reached
  | case5 => simp

/-- The output that meeting a type refers to: none for a type of the file at hand. -/
def outputOf? (s : Setting) : FoundBase → Option Path
  | .declared _ e =>
    e.file.bind fun file => if file.same s.file.path then none else some (s.naming.outputPath file)
  | .known home => some (s.homeOutput home)

/-- The home that is recorded when a type is met. -/
def homeOf? (s : Setting) : FoundBase → Option TypeHome
  | .declared key e =>
    e.file.bind fun file =>
      if file.same s.file.path then none else some ⟨key, s.project.name, s.itemName file⟩
  | .known _ => none

theorem note_eq (t : Trail) (v : FoundBase) :
    s.note t v =
      ⟨(s.outputOf? v).elim t.references (Path.insertNew t.references),
        (s.homeOf? v).elim t.sidecar t.sidecar.record⟩ := by
  cases v with
  | known home => rfl
  | declared key e =>
    simp only [note, addReference, outputOf?, homeOf?]
    cases e.file with
    | none => rfl
    | some file =>
      by_cases own : file.same s.file.path = true
      · simp [own, Resolving.pure_apply]
      · simp only [own, Option.bind_some, Bool.not_false, if_true]
        rfl

theorem references_follow (t : Trail) (met : List FoundBase) :
    (s.follow t met).references =
      (met.filterMap s.outputOf?).foldl Path.insertNew t.references := by
  induction met generalizing t with
  | nil => rfl
  | cons v more ih =>
    show (s.follow (s.note t v) more).references = _
    rw [ih, note_eq]
    cases found : s.outputOf? v with
    | none => simp [found]
    | some out => simp [found]

theorem sidecar_follow (t : Trail) (met : List FoundBase) :
    (s.follow t met).sidecar = (met.filterMap s.homeOf?).foldl Sidecar.record t.sidecar := by
  induction met generalizing t with
  | nil => rfl
  | cons v more ih =>
    show (s.follow (s.note t v) more).sidecar = _
    rw [ih, note_eq]
    cases found : s.homeOf? v with
    | none => simp [found]
    | some home => simp [found]

theorem outputOf?_declared {key : String} {e : Entry} {out : Path} :
    s.outputOf? (.declared key e) = some out ↔
      ∃ file, e.file = some file ∧ file.same s.file.path = false ∧
        s.naming.outputPath file = out := by
  cases declared : e.file with
  | none => simp [outputOf?, declared]
  | some file => by_cases own : file.same s.file.path = true <;> simp [outputOf?, declared, own]

end Setting

end Ambient
