import Ambient.Proofs.Resolution.Ancestors
import Ambient.Proofs.Translation.Agreement
import Ambient.Proofs.Translation.Containers

/-!
# The bases of objects

The search for a base takes one step for each entry that it looks at. It ends, since each undeclared
class is gone into at most once, however these classes inherit from each other, and the place inside
each of them is found in turn. Its result is the first declared class that a class inherits from,
and it has a result if there is such a class.
-/
namespace Ambient

open Host StateTransition

namespace Setting

/-- One step of the search for a base: it leaves an entry behind or goes into an
undeclared class. -/
def searchStep? (s : Setting) (sidecar : Sidecar) :
    List String × List (Site × String) → Option (List String × List (Site × String))
  | (_, []) => none
  | (visited, (site, written) :: work) =>
    match s.baseSense sidecar visited site written with
    | .passed => some (visited, work)
    | .opened key e => some (key :: visited, s.innerBases site key e ++ work)
    | _ => none

/-- What the search stops at. -/
def stoppedAt (s : Setting) (sidecar : Sidecar) :
    List String × List (Site × String) → Option FoundBase
  | (_, []) => none
  | (visited, (site, written) :: _) =>
    match s.baseSense sidecar visited site written with
    | .declared key e => some (.declared key e)
    | .known home => some (.known home)
    | _ => none

/-- The classes that the search has gone into are undeclared, and each was gone into once. -/
def Counted (s : Setting) (visited : List String) : Prop :=
  visited.Nodup ∧ ∀ key ∈ visited, key ∈ s.undeclared

variable {s : Setting} {sidecar : Sidecar} {site : Site} {bases : List String} {trail : Trail}

/-- The search comes to an end, with what it stops at as its result. -/
theorem exists_mem_eval_searchStep (visited : List String) (work : List (Site × String)) :
    ∃ last ∈ eval (s.searchStep? sidecar) (visited, work),
      s.searchBase sidecar visited work = s.stoppedAt sidecar last := by
  induction visited, work using @searchBase_induction s sidecar with
  | nil visited => exact ⟨_, mem_eval.mpr ⟨.refl, rfl⟩, by rw [searchBase, stoppedAt]⟩
  | passed visited site written work sense ih =>
    obtain ⟨last, ended, same⟩ := ih
    have step : s.searchStep? sidecar (visited, (site, written) :: work) =
        some (visited, work) := by
      simp only [searchStep?, sense]
    refine ⟨last, by rwa [reaches_eval (.single step)], ?_⟩
    rw [searchBase_cons, ← same]
    simp only [sense]
  | declared visited site written work key e sense =>
    refine ⟨_, mem_eval.mpr ⟨.refl, by simp only [searchStep?, sense]⟩, ?_⟩
    rw [searchBase_cons, stoppedAt]
    simp only [sense]
  | known visited site written work home sense =>
    refine ⟨_, mem_eval.mpr ⟨.refl, by simp only [searchStep?, sense]⟩, ?_⟩
    rw [searchBase_cons, stoppedAt]
    simp only [sense]
  | opened visited site written work key e sense ih =>
    obtain ⟨last, ended, same⟩ := ih
    have step : s.searchStep? sidecar (visited, (site, written) :: work) =
        some (key :: visited, s.innerBases site key e ++ work) := by
      simp only [searchStep?, sense]
    refine ⟨last, by rwa [reaches_eval (.single step)], ?_⟩
    rw [searchBase_cons, ← same]
    simp only [sense]

theorem Counted.step {now next : List String × List (Site × String)} (counted : s.Counted now.1)
    (step : s.searchStep? sidecar now = some next) : s.Counted next.1 := by
  obtain ⟨visited, work⟩ := now
  match work with
  | [] => cases step
  | (site, written) :: work =>
    rw [searchStep?] at step
    split at step
    · cases step
      exact counted
    · rename_i key e sense
      cases step
      obtain ⟨name, found, -, undeclared, fresh⟩ := lookup?_of_base_opened sense
      refine ⟨List.nodup_cons.mpr ⟨by simpa using fresh, counted.1⟩, ?_⟩
      exact List.forall_mem_cons.mpr
        ⟨mem_undeclared_of_get? (get?_of_lookup? found) undeclared, counted.2⟩
    · cases step

/-- The search goes into no more classes than there are undeclared ones. -/
theorem length_le_of_reaches {last : List String × List (Site × String)}
    {work : List (Site × String)}
    (reaches : StateTransition.Reaches (s.searchStep? sidecar) ([], work) last) :
    last.1.length ≤ s.undeclared.card := by
  have counted : s.Counted last.1 := by
    induction reaches with
    | refl => exact ⟨List.nodup_nil, fun _ h => by cases h⟩
    | tail _ step ih => exact ih.step step
  rw [← List.toFinset_card_of_nodup counted.1]
  exact Finset.card_le_card fun key hk => counted.2 key (List.mem_toFinset.mp hk)

theorem fst_resolveBase (site : Site) (bases : List String) (trail : Trail) :
    (s.resolveBase site bases trail).1 =
      (s.searchBase trail.sidecar [] (bases.map (site, ·))).map s.baseName := by
  rw [resolveBase, Resolving.bind_apply, Resolving.get_apply]
  cases s.searchBase trail.sidecar [] (bases.map (site, ·)) with
  | none => rfl
  | some found => cases found <;> rfl

theorem Inherits.declared {past : List String} {key : String} {e : Entry}
    (h : s.Inherits past site bases key e) : e.host.kind = .classKind ∧ e.isDeclared = true := by
  induction h with
  | base _ found declared =>
    obtain ⟨_, _, kind⟩ := lookup?_of_baseClass? found
    exact ⟨kind, declared⟩
  | through _ _ _ _ _ ih => exact ih

/-- Objects of enums have no base. -/
theorem base_of_enum {t : TypeDecl} {d : Declaration} (h : d ∈ s.objectsOf sidecar t)
    (enum : d.isEnum = true) : d.base = none := by
  unfold objectsOf at h
  split at h
  · cases h
  · rw [List.mem_singleton.mp h]
    rfl
  · rcases List.mem_cons.mp h with rfl | nested
    · cases enum
    · obtain ⟨_, _, rfl⟩ := exists_enumeration nested
      rfl

end Setting

/-- Where the names of all types are not empty and no types are assumed, the search for a base ends:
the places inside all types are found, and it goes into no more classes than there are undeclared
ones. A base that it finds is the first declared class that a walk through the bases comes to, and
the walk comes to just the declared classes that are reached through undeclared classes. If it finds
none, no declared class is reached. The base of an object is found in this way for a class of the
file, and enums have none. -/
theorem base_is_first_ancestor {file : File} {files : List File} (name : String) (root : Path)
    {options : Options} (assumes : options.assumeExternalType = false)
    (named : ∀ f ∈ file :: files, f.Named) (sidecar : Sidecar) :
    let s := Setting.of file (.ofFiles name root files) options
    (∀ key, (s.outward key).reverse ∈ eval s.widen? [key]) ∧
      (∀ site bases trail,
        let work := bases.map (site, ·)
        let base := (s.resolveBase site bases trail).1
        (∃ last ∈ eval (s.searchStep? trail.sidecar) ([], work),
          s.searchBase trail.sidecar [] work = s.stoppedAt trail.sidecar last ∧
            last.1.length ≤ s.undeclared.card) ∧
        base = (s.ancestors [] site bases).head?.map
          (fun found => ⟨s.moduleName found.2.host.space, found.2.host.name⟩) ∧
        (∀ key e, (key, e) ∈ s.ancestors [] site bases ↔ s.Inherits [] site bases key e) ∧
        (∀ key e, s.Inherits [] site bases key e →
          e.host.kind = .classKind ∧ e.isDeclared = true) ∧
        (base = none ↔ ∀ key e, ¬ s.Inherits [] site bases key e)) ∧
      ∀ d ∈ (s.translate sidecar).1, (d.isEnum = true ∧ d.base = none) ∨
        ∃ t ∈ file.types, t.kind = .classKind ∧ d.isEnum = false ∧ d.name = t.name ∧
          ∀ trail, d.base = (s.resolveBase (s.siteOf t) t.bases trail).1 := by
  intro s
  have off : s.options.assumeExternalType = false := assumes
  have first : ∀ site bases trail, (s.resolveBase site bases trail).1 =
      (s.ancestors [] site bases).head?.map
        fun found => ⟨s.moduleName found.2.host.space, found.2.host.name⟩ := by
    intro site bases trail
    rw [Setting.fst_resolveBase, Setting.searchBase_eq_head? off, Option.map_map]
    rfl
  refine ⟨Setting.outward_mem_of_named named, fun site bases trail => ?_, fun d hd => ?_⟩
  · intro work base
    have lists : ∀ key e, (key, e) ∈ s.ancestors [] site bases ↔
        s.Inherits [] site bases key e :=
      fun key e => Setting.mem_ancestors_iff
    obtain ⟨last, ended, same⟩ := @Setting.exists_mem_eval_searchStep s trail.sidecar [] work
    refine ⟨⟨last, ended, same, Setting.length_le_of_reaches (mem_eval.mp ended).1⟩,
      first site bases trail, lists, fun key e inherits => inherits.declared, ?_⟩
    rw [show base = _ from first site bases trail, Option.map_eq_none_iff, List.head?_eq_none_iff]
    constructor
    · intro none key e inherits
      have listed := (lists key e).mpr inherits
      rw [none] at listed
      cases listed
    · intro none
      exact List.eq_nil_iff_forall_not_mem.mpr fun found listed =>
        none found.1 found.2 ((lists _ _).mp listed)
  · rw [Setting.translate_eq sidecar (Setting.alone_of_not_assuming off)] at hd
    obtain ⟨t, ht, made⟩ := List.mem_flatMap.mp (mem_of_mem_eraseDupsBy hd)
    rcases Setting.enum_or_class_of_mem
      ⟨t, ht, made⟩ with ⟨enum, -⟩ | ⟨u, hu, kind, rfl⟩
    · exact .inl ⟨enum, Setting.base_of_enum made enum⟩
    · refine .inr ⟨u, hu, kind, rfl, rfl, fun trail => ?_⟩
      have found : s.baseFound (s.startingSidecar sidecar) u =
          s.searchBase trail.sidecar [] (u.bases.map (s.siteOf u, ·)) := by
        rw [Setting.baseFound, Setting.searchBase_eq_head? off, Setting.searchBase_eq_head? off]
      rw [Setting.fst_resolveBase, ← found]
      rfl

/-- A dog descends from two classes that are known by their shape only and inherit from each other,
one of them before it names an animal. -/
def dogFile : File :=
  ⟨⟨"/p/Dog.cs"⟩, [],
    [⟨"Dog", "App", .classKind, ["Hound"], none, [], [], []⟩,
      ⟨"Animal", "App", .classKind, [], none, [], [], []⟩],
    [⟨"Hound", "App", .classKind, ["Wolf", "Animal"], none, [], [], []⟩,
      ⟨"Wolf", "App", .classKind, ["Hound"], none, [], [], []⟩]⟩

def houndEntry : Entry :=
  ⟨⟨"Hound", "App", .classKind, ["Wolf", "Animal"], none, [], [], []⟩, none, none⟩

def wolfEntry : Entry :=
  ⟨⟨"Wolf", "App", .classKind, ["Hound"], none, [], [], []⟩, none, none⟩

def animalEntry : Entry :=
  ⟨⟨"Animal", "App", .classKind, [], none, [], [], []⟩, none, some ⟨"/p/Dog.cs"⟩⟩

theorem named_dogFile : dogFile.Named := by
  have flat : ∀ t ∈ dogFile.types ++ dogFile.externalTypes, t.name ≠ "" ∧
      t.nested.length = 0 := by
    decide
  intro t ht
  refine .intro (flat t ht).1 fun u hu => ?_
  rw [List.length_eq_zero_iff.mp (flat t ht).2] at hu
  cases hu

/-- The search comes back to the hound, passes over it and finds the animal. -/
theorem base_is_first_ancestor_of_dog :
    let s := Setting.of dogFile (.ofFiles "App" ⟨"/p"⟩ [dogFile]) .default
    let site : Site := ⟨"App", ["App.Dog"], "App"⟩
    (∀ f ∈ [dogFile, dogFile], f.Named) ∧
    s.Inherits [] site ["Hound"] "App.Animal" animalEntry ∧
      (s.resolveBase site ["Hound"] ⟨[], .empty⟩).1 = some ⟨"App", "Animal"⟩ := by
  intro s site
  have named : ∀ f ∈ [dogFile, dogFile], f.Named := by
    intro f hf
    have same : f = dogFile := by simpa using hf
    exact same ▸ named_dogFile
  have hound : s.siteIn "App" "App.Hound" houndEntry.host = ⟨"App", ["App.Hound"], "App"⟩ := by
    rw [Setting.siteIn, show s.outward "App.Hound" = ["App.Hound"] by decide +kernel]
    rfl
  have wolf : s.siteIn "App" "App.Wolf" wolfEntry.host = ⟨"App", ["App.Wolf"], "App"⟩ := by
    rw [Setting.siteIn, show s.outward "App.Wolf" = ["App.Wolf"] by decide +kernel]
    rfl
  have knownHound : s.get? "App.Hound" = some houndEntry := by with_unfolding_all rfl
  have knownWolf : s.get? "App.Wolf" = some wolfEntry := by with_unfolding_all rfl
  have knownAnimal : s.get? "App.Animal" = some animalEntry := by with_unfolding_all rfl
  have first : s.baseClass? site "Hound" = some ("App.Hound", houndEntry) :=
    Setting.baseClass?_of_key (by decide +kernel) knownHound
  have inHound : s.baseClass? ⟨"App", ["App.Hound"], "App"⟩ "Wolf" =
      some ("App.Wolf", wolfEntry) :=
    Setting.baseClass?_of_key (by decide +kernel) knownWolf
  have inWolf : s.baseClass? ⟨"App", ["App.Wolf"], "App"⟩ "Hound" =
      some ("App.Hound", houndEntry) :=
    Setting.baseClass?_of_key (by decide +kernel) knownHound
  have last : s.baseClass? ⟨"App", ["App.Hound"], "App"⟩ "Animal" =
      some ("App.Animal", animalEntry) :=
    Setting.baseClass?_of_key (by decide +kernel) knownAnimal
  have walk : s.ancestors [] site ["Hound"] = [("App.Animal", animalEntry)] := by
    have within : site.module_ = "App" := rfl
    have lists : houndEntry.host.bases = ["Wolf", "Animal"] ∧ wolfEntry.host.bases = ["Hound"] :=
      ⟨rfl, rfl⟩
    have kinds : houndEntry.isDeclared = false ∧ wolfEntry.isDeclared = false ∧
        animalEntry.isDeclared = true := by
      decide
    simp [Setting.ancestors_cons, Setting.ancestors_nil, first, inHound, inWolf, last,
      within, hound, wolf, lists, kinds]
  have whole := (@base_is_first_ancestor dogFile [dogFile] "App" ⟨"/p"⟩ .default rfl named
    .empty).2.1 site ["Hound"] ⟨[], .empty⟩
  have listed : ("App.Animal", animalEntry) ∈ s.ancestors [] site ["Hound"] := by
    rw [walk]
    exact List.mem_singleton_self _
  refine ⟨named, (whole.2.2.1 _ _).mp listed, ?_⟩
  rw [whole.2.1, walk]
  rfl

end Ambient
