import Ambient.Proofs.Index.Entries
import Ambient.Proofs.Resolution.Reach
import Ambient.Translation
import Mathlib.Data.Finset.Card

/-!
# Types in progress

A run keeps the types whose members it is just resolving on a stack. Here the run is written with
that stack, and everything that is expected of it is a check at which the run fails: a type is not
started on while it is in progress, the type that ends is the one started on last, nothing is in
progress when an object is done, and the depth of the expansions stays below a bound. With the
number of undeclared types as the bound no run fails, and each gives what the translation gives.
-/
namespace Ambient

open Host

/-- What a run holds: the trail, and the types in progress with the innermost first. -/
structure Progress where
  trail : Trail
  opened : List String

/-- A part of a run, which may fail. -/
abbrev Running := StateT Progress Option

namespace Running
variable {α : Type}

/-- A step that leaves the types in progress alone. -/
def step (x : Resolving α) : Running α := fun p =>
  some ((x p.trail).1, { p with trail := (x p.trail).2 })

/-- Starts on a type that is not in progress. -/
def push (key : String) : Running Unit := fun p =>
  if p.opened.contains key then none else some ((), { p with opened := key :: p.opened })

/-- Ends with the type that was started on last. -/
def pop (key : String) : Running Unit := fun p =>
  if p.opened.head? = some key then some ((), { p with opened := p.opened.tail }) else none

def during (key : String) (x : Running α) : Running α := do
  push key
  let a ← x
  pop key
  return a

/-- Nothing is in progress. -/
def checkIdle : Running Unit := fun p => if p.opened.isEmpty then some ((), p) else none

/-- What a name stands for, where a type may have no name left to look up. -/
def ofSubject (named : String → Running TypeRef) : Option String → Running TypeRef
  | some name => named name
  | none => step (pure .unknown)

def members (o : Options) (named : String → Running TypeRef) (ms : List Host.Member) :
    Running (List Member) :=
  (ms.filter (!·.isIgnored)).mapM fun m => m.declare o <$> ofSubject named m.subject?

end Running

namespace Setting

/-- Resolves a written name, given how an undeclared class is expanded. -/
def runNameWith (s : Setting) (expand : Site → String → Entry → Running TypeRef) (site : Site)
    (written : String) : Running TypeRef :=
  match s.lookup? site written with
  | none =>
    .step (if s.options.assumeExternalType then s.assumedType site written else pure .unknown)
  | some (key, e) =>
    if e.host.kind = .interfaceKind then .step (pure .unknown)
    else if e.isDeclared then .step do
      s.addReference key e
      return .plain (s.displayName site e.host.space e.host.name)
    else if e.host.isEnum then .step (pure (.plain "number"))
    else do
      if (← get).opened.contains key then .step (pure (.plain (s.options.typeName e.host.name)))
      else expand site key e

/-- Resolves a written name with at most so many expansions one in the other. -/
def runName (s : Setting) : Nat → Site → String → Running TypeRef
  | 0 => s.runNameWith fun _ _ _ => failure
  | depth + 1 => s.runNameWith fun site key e => .during key do
    let members ← Running.members s.options
      (s.runName depth (s.siteIn site.module_ key e.host)) e.host.members
    return .shape members false

def runClass (s : Setting) (depth : Nat) (t : TypeDecl) : Running Declaration := do
  let key := t.qualifiedName
  let module_ := s.moduleName t.space
  let site : Site := ⟨t.space, [key], module_⟩
  Running.step (modify fun trail => { trail with references := [] })
  let (base, members) ← Running.during key do
    let base ← Running.step (s.resolveBase site t.bases)
    let members ← Running.members s.options (s.runName depth site) t.members
    return (base, members)
  return ⟨t.name, module_, false, base, t.summary, members, (← get).trail.references⟩

def runTop (s : Setting) (depth : Nat) (t : TypeDecl) : Running (List Declaration) :=
  match t.kind with
  | .interfaceKind => pure []
  | .enumKind => pure [s.enumeration t t.space]
  | .classKind => do
    let declaration ← s.runClass depth t
    Running.checkIdle
    return declaration :: s.nestedEnumsIn t.space t.nested

/-- The translation as a run, with at most so many expansions one in the other. -/
def run (s : Setting) (depth : Nat) (sidecar : Sidecar) : Option (List Declaration × Sidecar) := do
  let (found, p) ← (s.file.types.mapM (s.runTop depth)).run
      ⟨⟨[], s.startingSidecar sidecar⟩, []⟩
  return (found.flatten.eraseDupsBy sameName, p.trail.sidecar)

/-- The names of the entries that have no declaration of their own. -/
def undeclared (s : Setting) : Finset String :=
  (((s.own.entries ++ s.project.entries).filter (!·.2.isDeclared)).map (·.1)).toFinset

end Setting

namespace Running
variable {α β : Type} {done : List String}

/-- While the types in `done` are in progress, the part of a run does what `y` does and ends with
the same types in progress. -/
def Mirrors (done : List String) (x : Running α) (y : Resolving α) : Prop :=
  ∀ t : Trail, x ⟨t, done⟩ = some ((y t).1, ⟨(y t).2, done⟩)

theorem mirrors_step (x : Resolving α) : Mirrors done (step x) x := fun _ => rfl

theorem mirrors_pure (a : α) : Mirrors done (pure a) (pure a) := fun _ => rfl

theorem Mirrors.bind {x : Running α} {y : Resolving α} {f : α → Running β}
    {g : α → Resolving β} (first : Mirrors done x y) (rest : ∀ a, Mirrors done (f a) (g a)) :
    Mirrors done (x >>= f) (y >>= g) := by
  intro t
  show (x ⟨t, done⟩).bind _ = _
  rw [first t]
  exact rest _ _

theorem Mirrors.map {x : Running α} {y : Resolving α} (f : α → β) (same : Mirrors done x y) :
    Mirrors done (f <$> x) (f <$> y) := by
  intro t
  show (x ⟨t, done⟩).bind _ = _
  rw [same t]
  rfl

theorem mirrors_mapM {f : α → Running β} {g : α → Resolving β} {xs : List α}
    (each : ∀ x ∈ xs, Mirrors done (f x) (g x)) : Mirrors done (xs.mapM f) (xs.mapM g) := by
  induction xs with
  | nil => exact mirrors_pure []
  | cons x more ih =>
    rw [List.mapM_cons, List.mapM_cons]
    refine (each x List.mem_cons_self).bind fun y => ?_
    exact (ih fun z hz => each z (List.mem_cons_of_mem x hz)).bind fun ys => mirrors_pure (y :: ys)

/-- A type is started on and ended with around what is done in between. -/
theorem Mirrors.during {key : String} {x : Running α} {y : Resolving α} (fresh : key ∉ done)
    (inside : Mirrors (key :: done) x y) : Mirrors done (during key x) y := by
  intro t
  have pushed : push key ⟨t, done⟩ = some ((), ⟨t, key :: done⟩) :=
    if_neg (by simpa using fresh)
  have popped : pop key ⟨(y t).2, key :: done⟩ = some ((), ⟨(y t).2, done⟩) := if_pos rfl
  show (push key ⟨t, done⟩).bind _ = _
  rw [pushed]
  show (x ⟨t, key :: done⟩).bind _ = _
  rw [inside t]
  show (pop key ⟨(y t).2, key :: done⟩).bind _ = _
  rw [popped]
  rfl

theorem mirrors_ofSubject {named : String → Running TypeRef}
    {named' : String → Resolving TypeRef}
    (each : ∀ name, Mirrors done (named name) (named' name)) (subject : Option String) :
    Mirrors done (ofSubject named subject) (resolveSubject named' subject) := by
  cases subject with
  | none => exact mirrors_step _
  | some name => exact each name

theorem mirrors_members {o : Options} {named : String → Running TypeRef}
    {named' : String → Resolving TypeRef}
    (each : ∀ name, Mirrors done (named name) (named' name))
    (ms : List Host.Member) : Mirrors done (members o named ms) (resolveMembers o named' ms) := by
  refine mirrors_mapM fun m _ => ?_
  rw [resolveMember_eq]
  exact (mirrors_ofSubject each m.subject?).map _

end Running

namespace Setting
variable {s : Setting} {done : List String} {site : Site} {written key : String} {e : Entry}
  {depth : Nat} {t : TypeDecl}

open Running

/-- What a lookup finds is the entry of its name. -/
theorem get?_of_lookup? (found : s.lookup? site written = some (key, e)) : s.get? key = some e := by
  rcases Option.or_eq_some_iff.mp found with here | ⟨missing, there⟩
  · rw [get?, Index.get?_of_lookup? here]
    rfl
  · rw [get?, Index.get?_of_lookup?_eq_none missing (Index.mem_candidates_of_lookup? there),
      Index.get?_of_lookup? there]
    rfl

theorem mem_undeclared_of_get? (found : s.get? key = some e) (not : e.isDeclared = false) :
    key ∈ s.undeclared := by
  have member : (key, e) ∈ s.own.entries ++ s.project.entries := by
    rcases Option.or_eq_some_iff.mp found with here | ⟨-, there⟩
    · exact List.mem_append_left _ (Index.mem_of_first? here)
    · exact List.mem_append_right _ (Index.mem_of_first? there)
  refine List.mem_toFinset.mpr
    (List.mem_map.mpr ⟨(key, e), List.mem_filter.mpr ⟨member, ?_⟩, rfl⟩)
  rw [not]
  rfl

/-- Fewer undeclared types are left with each that is in progress. -/
theorem card_undeclared_lt (member : key ∈ s.undeclared) (fresh : key ∉ done) :
    (s.undeclared \ (key :: done).toFinset).card < (s.undeclared \ done.toFinset).card := by
  refine Finset.card_lt_card ((Finset.ssubset_iff_of_subset ?_).mpr ⟨key, ?_, ?_⟩)
  · intro k hk
    rw [Finset.mem_sdiff, List.toFinset_cons, Finset.mem_insert, not_or] at hk
    exact Finset.mem_sdiff.mpr ⟨hk.1, hk.2.2⟩
  · exact Finset.mem_sdiff.mpr ⟨member, by simpa using fresh⟩
  · simp

/-- What is written out is an undeclared type that is not in progress. -/
theorem undeclared_of_inlined (h : s.sense done site written = .inlined key e) :
    s.get? key = some e ∧ e.isDeclared = false ∧ key ∉ done := by
  obtain ⟨found, fresh⟩ := lookup?_of_inlined h
  exact ⟨get?_of_lookup? found, (kind_of_inlined h).2, by simpa using fresh⟩

/-- Resolving a name by its sense, while the types in `done` are in progress. -/
theorem mirrors_runNameWith {expand : Site → String → Entry → Running TypeRef}
    (inlined : ∀ key e, s.sense done site written = .inlined key e →
      Mirrors done (expand site key e) (do
        let members ← resolveMembers s.options
          (s.resolveName (key :: done) (s.siteIn site.module_ key e.host)) e.host.members
        return .shape members false)) :
    Mirrors done (s.runNameWith expand site written) (s.resolveName done site written) := by
  rw [resolveName_eq]
  unfold runNameWith
  unfold sense at inlined ⊢
  cases found : s.lookup? site written with
  | none => exact mirrors_step _
  | some entry =>
    obtain ⟨key, e⟩ := entry
    rw [found] at inlined
    simp only at inlined ⊢
    by_cases interface : e.host.kind = .interfaceKind
    · simp only [interface, if_true]
      exact mirrors_step _
    by_cases declared : e.isDeclared = true
    · simp only [interface, declared, if_true, if_false]
      exact mirrors_step _
    by_cases enum : e.host.isEnum = true
    · simp only [interface, declared, enum, if_true, if_false]
      exact mirrors_step _
    simp only [interface, declared, enum, if_false, Bool.false_eq_true] at inlined ⊢
    intro t
    by_cases opened : done.contains key = true
    · show (if done.contains key then _ else _ : Running TypeRef) ⟨t, done⟩ = _
      rw [if_pos opened, if_pos opened]
      rfl
    · rw [if_neg opened] at inlined ⊢
      show (if done.contains key then _ else _ : Running TypeRef) ⟨t, done⟩ = _
      rw [if_neg opened]
      exact inlined key e rfl t

/-- With a bound that leaves room for the types not yet in progress, resolving a
name goes through. -/
theorem mirrors_runName (room : (s.undeclared \ done.toFinset).card ≤ depth) (site : Site)
    (written : String) :
    Mirrors done (s.runName depth site written) (s.resolveName done site written) := by
  induction depth generalizing done site written with
  | zero =>
    refine mirrors_runNameWith fun key e h => ?_
    obtain ⟨found, not, fresh⟩ := undeclared_of_inlined h
    exact absurd (card_undeclared_lt (mem_undeclared_of_get? found not) fresh) (by omega)
  | succ depth ih =>
    refine mirrors_runNameWith fun key e h => ?_
    obtain ⟨found, not, fresh⟩ := undeclared_of_inlined h
    have less := card_undeclared_lt (mem_undeclared_of_get? found not) fresh
    refine Mirrors.during fresh ((mirrors_members (fun name => ?_) e.host.members).bind
      fun members => mirrors_pure _)
    exact ih (by omega) _ name

/-- The base and the members of a class, while the class is in progress. -/
theorem mirrors_contents (room : s.undeclared.card ≤ depth) (t : TypeDecl) (site : Site) :
    Mirrors [t.qualifiedName]
      (do
        let base ← step (s.resolveBase site t.bases)
        let members ← members s.options (s.runName depth site) t.members
        return (base, members))
      (do
        let base ← s.resolveBase site t.bases
        let members ← resolveMembers s.options (s.resolveName [t.qualifiedName] site) t.members
        return (base, members)) := by
  have fewer : (s.undeclared \ [t.qualifiedName].toFinset).card ≤ depth :=
    (Finset.card_le_card Finset.sdiff_subset).trans room
  refine (mirrors_step _).bind fun base => ?_
  exact (mirrors_members (mirrors_runName fewer site) t.members).bind fun members =>
    mirrors_pure (base, members)

theorem runClass_apply (room : s.undeclared.card ≤ depth) (t : TypeDecl) (trail : Trail) :
    s.runClass depth t ⟨trail, []⟩ =
      let made := s.classDeclaration t trail.sidecar
      some (made.1, ⟨⟨made.1.references, made.2⟩, []⟩) := by
  have inside := (mirrors_contents room t
    ⟨t.space, [t.qualifiedName], s.moduleName t.space⟩).during List.not_mem_nil
  unfold runClass
  show (during _ _ ⟨⟨[], trail.sidecar⟩, []⟩).bind _ = _
  rw [inside]
  rfl

/-- One object after the other starts and ends with nothing in progress. -/
theorem runTop_apply (room : s.undeclared.card ≤ depth) (t : TypeDecl) (trail : Trail) :
    ∃ references, s.runTop depth t ⟨trail, []⟩ =
      let made := s.topLevel t trail.sidecar
      some (made.1, ⟨⟨references, made.2⟩, []⟩) := by
  unfold runTop topLevel
  cases t.kind with
  | interfaceKind => exact ⟨trail.references, rfl⟩
  | enumKind => exact ⟨trail.references, rfl⟩
  | classKind =>
    refine ⟨(s.classDeclaration t trail.sidecar).1.references, ?_⟩
    show (s.runClass depth t ⟨trail, []⟩).bind _ = _
    rw [runClass_apply room]
    rfl

theorem runAll_apply (room : s.undeclared.card ≤ depth) (types : List TypeDecl) (trail : Trail) :
    ∃ found references, types.mapM (s.runTop depth) ⟨trail, []⟩ =
        some (found, ⟨⟨references, (s.declareAll trail.sidecar types).2⟩, []⟩) ∧
      found.flatten = (s.declareAll trail.sidecar types).1 := by
  induction types generalizing trail with
  | nil => exact ⟨[], trail.references, rfl, rfl⟩
  | cons t more ih =>
    obtain ⟨references, first⟩ := runTop_apply room t trail
    obtain ⟨found, references', others, flat⟩ :=
      ih ⟨references, (s.topLevel t trail.sidecar).2⟩
    refine ⟨(s.topLevel t trail.sidecar).1 :: found, references', ?_, ?_⟩
    · rw [List.mapM_cons]
      show (s.runTop depth t ⟨trail, []⟩).bind _ = _
      rw [first]
      show (more.mapM (s.runTop depth) ⟨⟨references, _⟩, []⟩).bind _ = _
      rw [others]
      rfl
    · rw [List.flatten_cons, flat]
      rfl

/-- The run goes through and gives the translation. -/
theorem run_eq (room : s.undeclared.card ≤ depth) (sidecar : Sidecar) :
    s.run depth sidecar = some (s.translate sidecar) := by
  obtain ⟨found, references, ran, flat⟩ :=
    runAll_apply room s.file.types ⟨[], s.startingSidecar sidecar⟩
  unfold run
  show (s.file.types.mapM (s.runTop depth) ⟨⟨[], s.startingSidecar sidecar⟩, []⟩).bind _ = _
  rw [ran]
  show some (found.flatten.eraseDupsBy sameName, _) = _
  rw [flat]
  rfl

end Setting

end Ambient
