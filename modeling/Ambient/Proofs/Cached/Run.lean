import Ambient.Proofs.Cached.Scene

/-!
# When the objects are the same again

Name by name, the run from recorded homes refers to the same outputs as the full run, and it writes
the same text unless the type is an enum nested in a class of another file. So the objects of a
class agree exactly if no such enum shows the difference.
-/
namespace Ambient

open Host

theorem ne_qualified (module_ name : String) : name ≠ module_ ++ "." ++ name := by
  intro same
  have sizes := congrArg (fun s => (String.toList s).length) same
  have dot : ".".toList.length = 1 := rfl
  simp only [String.toList_append, List.length_append, dot] at sizes
  omega

theorem append_right_inj {a b back : String} (h : a ++ back = b ++ back) : a = b := by
  have chars := congrArg String.toList h
  rw [String.toList_append, String.toList_append] at chars
  exact String.toList_inj.mp (List.append_cancel_right chars)

/-- A type is displayed alike in two namespaces if modules are not written or are the same. -/
theorem Setting.displayName_eq_iff {s : Setting} {site : Site} {a b name : String} :
    s.displayName site a name = s.displayName site b name ↔
      s.options.globalScope = true ∨ s.moduleName a = s.moduleName b := by
  unfold displayName
  by_cases global : s.options.globalScope = true
  · simp [global]
  · by_cases hereA : s.moduleName a = site.module_ <;>
      by_cases hereB : s.moduleName b = site.module_
    · simp [hereA, hereB]
    · have other : site.module_ ≠ s.moduleName b := fun same => hereB same.symm
      simpa [global, hereA, hereB, other] using ne_qualified _ _
    · simp [global, hereA, hereB]
    · simp only [ne_eq, hereA, hereB, global, not_false_eq_true, Bool.not_false, and_self, if_true,
        false_or, Bool.false_eq_true]
      constructor
      · intro same
        exact append_right_inj (append_right_inj same)
      · intro same
        rw [same]

namespace Scene
variable {c : Scene} {site : Site} {written key : String} {e : Entry}

/-- The output of the file of a home is the output of the file it was recorded for. -/
theorem outputOf?_home (project : c.Project) {g : File} (hg : g ∈ c.others) :
    c.cached.outputOf? (.known (c.home key g.path)) = some (c.full.naming.outputPath g.path) := by
  obtain ⟨names, some, proper, path⟩ := project.below g hg
  have root : c.cached.project.root = c.root := (Index.root_ofFiles [c.file]).1
  have root' : c.full.project.root = c.root := (Index.root_ofFiles (c.file :: c.others)).1
  have item := Setting.join_itemName (s := c.full) proper some
  rw [root', ← path] at item
  show Option.some
    (c.cached.naming.outputPath (c.cached.project.root.join ⟨c.full.itemName g.path⟩)) = _
  rw [root, item]
  rfl

/-- What is met for a name of a declared type leads to the same outputs in both runs. -/
theorem outputs_visits {done : List String} (project : c.Project) (apart : c.Apart)
    (looked : c.full.lookup? site written = some (key, e)) (declared : e.isDeclared = true)
    (mentioned : ∃ t ∈ c.file.types, t.kind = .classKind ∧ c.full.Mentions c.start t key e) :
    (c.cached.visits c.left done site written).filterMap c.cached.outputOf? =
      (c.full.visits c.start done site written).filterMap c.full.outputOf? := by
  have sense : c.full.sense done site written = .declared key e :=
    Setting.sense_eq_declared looked declared
  have full : c.full.visits c.start done site written = [.declared key e] := by
    rw [Setting.visits_eq, sense]
  rw [full]
  cases own : c.full.own.lookup? (c.full.scope site) written with
  | some found =>
    have same := looked
    rw [lookup?_full, own, Option.some_or] at same
    rw [Option.some.inj same] at own
    have sense : c.cached.sense done site written = .declared key e :=
      Setting.sense_eq_declared (lookup?_cached.trans own) declared
    have cached : c.cached.visits c.left done site written = [.declared key e] := by
      rw [Setting.visits_eq, sense]
    rw [cached]
    rfl
  | none =>
    have elsewhere := looked
    rw [lookup?_full, own, Option.none_or] at elsewhere
    obtain ⟨g, hg, entry, file, other⟩ := file_of_project project own elsewhere
    have found := findHome?_left apart ⟨mentioned, file, other⟩ looked
    have missing : c.cached.sense done site written = .missing := by
      rw [Setting.sense, lookup?_cached, own]
    have cached : c.cached.visits c.left done site written = [.known (c.home key g.path)] := by
      have assumes : c.cached.options.assumeExternalType = true := rfl
      rw [Setting.visits_eq, missing]
      simp only [assumes, if_true, found, Option.toList_some, List.map_cons, List.map_nil]
    have output : c.full.outputOf? (.declared key e) = some (c.full.naming.outputPath g.path) :=
      Setting.outputOf?_declared.mpr ⟨g.path, file, other, rfl⟩
    rw [cached]
    simp only [List.filterMap_cons, List.filterMap_nil, outputOf?_home project hg, output]

/-- The types of members resolve to declared types, and so do the bases that are found at all. -/
structure Resolves (c : Scene) : Prop where
  members : ∀ t ∈ c.file.types, t.kind = .classKind →
    ∀ m ∈ t.members, m.isIgnored = false → ∀ name, m.subject? = some name →
      ∃ key e, c.full.lookup? (c.full.siteOf t) name = some (key, e) ∧ e.isDeclared = true
  bases : ∀ t ∈ c.file.types, t.kind = .classKind → ∀ b ∈ t.bases, ∀ name args,
    TypeSyntax.parse b = .ok (.named name args) → KnownType.primitive? name = none →
      ∀ key e, c.full.lookup? (c.full.siteOf t) name = some (key, e) → e.isDeclared = true

/-- A base that is passed over, since it is no class, is not taken for a type that was recorded. -/
def PassesAlike (c : Scene) : Prop :=
  ∀ t ∈ c.file.types, t.kind = .classKind → ∀ b ∈ t.bases, ∀ name args,
    TypeSyntax.parse b = .ok (.named name args) → KnownType.primitive? name = none →
      (∀ key e, c.full.lookup? (c.full.siteOf t) name = some (key, e) →
        e.host.kind ≠ .classKind) → c.left.findHome? name = none

/-- What one entry of a base list comes to in the two runs. -/
theorem baseSense_alike {b : String}
    (resolves : ∀ name args, TypeSyntax.parse b = .ok (.named name args) →
      KnownType.primitive? name = none →
      ∀ key e, c.full.lookup? site name = some (key, e) → e.isDeclared = true)
    (passes : ∀ name args, TypeSyntax.parse b = .ok (.named name args) →
      KnownType.primitive? name = none →
      (∀ key e, c.full.lookup? site name = some (key, e) → e.host.kind ≠ .classKind) →
      c.left.findHome? name = none) :
    (c.full.baseSense c.start [] site b = .passed ∧
      c.cached.baseSense c.left [] site b = .passed) ∨
    (∃ key e, c.full.baseSense c.start [] site b = .declared key e ∧
      c.cached.baseSense c.left [] site b = .declared key e) ∨
    ∃ name key e, c.full.lookup? site name = some (key, e) ∧ e.host.kind = .classKind ∧
      c.full.own.lookup? (c.full.scope site) name = none ∧
      c.full.baseSense c.start [] site b = .declared key e ∧
      ∀ home, c.left.findHome? name = some home →
        c.cached.baseSense c.left [] site b = .known home := by
  unfold Setting.baseSense
  split
  · rename_i name args parsed
    cases primitive : KnownType.primitive? name with
    | some rendered => simp
    | none =>
      simp only [Option.isSome_none, Bool.false_eq_true, if_false, lookup?_cached]
      cases own : c.full.own.lookup? (c.full.scope site) name with
      | some found =>
        obtain ⟨key, e⟩ := found
        have looked : c.full.lookup? site name = some (key, e) := by
          rw [lookup?_full, own, Option.some_or]
        have declared := resolves name args parsed primitive key e looked
        by_cases kind : e.host.kind = .classKind
        · right
          left
          exact ⟨key, e, by simp [looked, kind, declared], by simp [kind, declared]⟩
        · left
          simp [looked, kind]
      | none =>
        cases looked : c.full.lookup? site name with
        | none =>
          left
          have absent := passes name args parsed primitive (by simp [looked])
          have homes : c.start.findHome? name = none := by
            simp [Sidecar.findHome?, homes_start]
          simp [absent, homes]
        | some found =>
          obtain ⟨key, e⟩ := found
          have declared := resolves name args parsed primitive key e looked
          by_cases kind : e.host.kind = .classKind
          · right
            right
            have assumes : c.cached.options.assumeExternalType = true := rfl
            refine ⟨name, key, e, looked, kind, own, by simp [kind, declared], ?_⟩
            intro home found
            simp [found, assumes]
          · left
            have absent := passes name args parsed primitive (by
              intro key' e' same
              rw [looked] at same
              obtain ⟨rfl, rfl⟩ := Prod.mk.inj (Option.some.inj same)
              exact kind)
            simp [kind, absent]
  · exact .inl ⟨rfl, rfl⟩

theorem baseName_home (project : c.Project) {file : Path} (looked : c.full.lookup? site written =
    some (key, e)) (missing : c.full.own.lookup? (c.full.scope site) written = none)
    (kind : e.host.kind = .classKind) (declared : e.isDeclared = true) :
    c.cached.baseName (.known (c.home key file)) = c.full.baseName (.declared key e) := by
  obtain ⟨spelled, word⟩ := key_of_other project missing looked
  have outermost : e.container = none := by
    simp only [Entry.isDeclared, Entry.isNested, TypeDecl.isEnum, kind, Bool.and_eq_true,
      Bool.or_eq_true, Bool.not_eq_true'] at declared
    simpa using declared.2
  rw [outermost, Option.getD_none] at spelled
  simp only [Setting.baseName, home, spelled, splitQualified_qualify word]
  rfl

/-- Both runs name the same base, and it leads to the same output. -/
theorem searchBase_alike (project : c.Project) (apart : c.Apart) {t : TypeDecl}
    (ht : t ∈ c.file.types) (kind : t.kind = .classKind) (bases : List String)
    (rest : c.full.searchBase c.start [] (bases.map (c.full.siteOf t, ·)) =
      c.full.baseFound c.start t)
    (resolves : ∀ b ∈ bases, ∀ name args, TypeSyntax.parse b = .ok (.named name args) →
      KnownType.primitive? name = none →
      ∀ key e, c.full.lookup? (c.full.siteOf t) name = some (key, e) → e.isDeclared = true)
    (passes : ∀ b ∈ bases, ∀ name args, TypeSyntax.parse b = .ok (.named name args) →
      KnownType.primitive? name = none →
      (∀ key e, c.full.lookup? (c.full.siteOf t) name = some (key, e) →
        e.host.kind ≠ .classKind) → c.left.findHome? name = none) :
    let found := c.cached.searchBase c.left [] (bases.map (c.full.siteOf t, ·))
    found.map c.cached.baseName = (c.full.baseFound c.start t).map c.full.baseName ∧
      found.toList.filterMap c.cached.outputOf? =
        (c.full.baseFound c.start t).toList.filterMap c.full.outputOf? := by
  induction bases with
  | nil =>
    rw [← rest]
    simp [Setting.searchBase]
  | cons b more ih =>
    intro found
    have sense := baseSense_alike (resolves b List.mem_cons_self) (passes b List.mem_cons_self)
    have step : found = _ := Setting.searchBase_cons
    rw [List.map_cons, Setting.searchBase_cons] at rest
    rcases sense with ⟨full, cached⟩ | ⟨key, e, full, cached⟩ |
      ⟨name, key, e, looked, isClass, missing, full, cached⟩
    · rw [full] at rest
      rw [step, cached]
      exact ih rest (fun b hb => resolves b (List.mem_cons_of_mem _ hb))
        (fun b hb => passes b (List.mem_cons_of_mem _ hb))
    · rw [full] at rest
      rw [step, cached, ← rest]
      exact ⟨rfl, rfl⟩
    · rw [full] at rest
      obtain ⟨_, _, _, declared⟩ := Setting.lookup?_of_base_declared full
      have elsewhere := looked
      rw [lookup?_full, missing, Option.none_or] at elsewhere
      obtain ⟨g, hg, entry, file, other⟩ := file_of_project project missing elsewhere
      have mentions : c.full.Mentions c.start t key e := .base rest.symm
      have home := findHome?_left apart ⟨⟨t, ht, kind, mentions⟩, file, other⟩ looked
      have output : c.full.outputOf? (.declared key e) = some (c.full.naming.outputPath g.path) :=
        Setting.outputOf?_declared.mpr ⟨g.path, file, other, rfl⟩
      rw [step, cached _ home, ← rest]
      refine ⟨congrArg some (baseName_home project looked missing isClass declared), ?_⟩
      simp only [Option.toList_some, List.filterMap_cons, List.filterMap_nil,
        outputOf?_home project hg, output]

/-- What the members of a class of the file at hand mean is mentioned. -/
theorem mentions_of_member {t : TypeDecl} (ht : t ∈ c.file.types) (kind : t.kind = .classKind)
    {m : Host.Member} (hm : m ∈ t.members) (kept : m.isIgnored = false)
    {name : String} (subject : m.subject? = some name)
    (looked : c.full.lookup? (c.full.siteOf t) name = some (key, e))
    (declared : e.isDeclared = true) :
    ∃ t ∈ c.file.types, t.kind = .classKind ∧ c.full.Mentions c.start t key e :=
  ⟨t, ht, kind, .member hm kept subject (.named looked declared)⟩

/-- Both runs refer to the same outputs for a class. -/
theorem references_alike (project : c.Project) (apart : c.Apart) (resolves : c.Resolves)
    (passes : c.PassesAlike) {t : TypeDecl} (ht : t ∈ c.file.types) (kind : t.kind = .classKind) :
    (c.cached.classObject c.left t).base = (c.full.classObject c.start t).base ∧
      (c.cached.classObject c.left t).references = (c.full.classObject c.start t).references := by
  obtain ⟨names, outputs⟩ := searchBase_alike project apart ht kind t.bases rfl
    (resolves.bases t ht kind) (passes t ht kind)
  refine ⟨names, congrArg (List.foldl Path.insertNew []) ?_⟩
  rw [Setting.classVisits, Setting.classVisits, List.filterMap_append, List.filterMap_append]
  refine congrArg₂ (· ++ ·) outputs ?_
  rw [Setting.memberVisits, Setting.memberVisits, List.filterMap_flatMap, List.filterMap_flatMap]
  refine List.flatMap_congr fun m hm => ?_
  obtain ⟨hm, kept⟩ := List.mem_filter.mp hm
  have kept : m.isIgnored = false := by simpa using kept
  cases subject : m.subject? with
  | none => rfl
  | some name =>
    obtain ⟨key, e, looked, declared⟩ := resolves.members t ht kind m hm kept name subject
    exact outputs_visits project apart looked declared
      (mentions_of_member ht kind hm kept subject looked declared)

/-- The members of a class show no difference: either modules are not written, or each enum that is
nested in a class of another file has that class's name for its module. -/
def Recalls (c : Scene) (t : TypeDecl) : Prop :=
  c.options.globalScope = true ∨ ∀ m ∈ t.members, m.isIgnored = false →
    ∀ name key e outer,
    m.subject? = some name → c.full.lookup? (c.full.siteOf t) name = some (key, e) →
    e.file ≠ some c.file.path → e.container = some outer →
    c.full.moduleName outer = c.full.moduleName e.host.space

/-- One member of a class in the two runs. -/
theorem member_alike_iff (project : c.Project) (apart : c.Apart) (resolves : c.Resolves)
    {t : TypeDecl} (ht : t ∈ c.file.types) (kind : t.kind = .classKind) {m : Host.Member}
    (hm : m ∈ t.members) (kept : m.isIgnored = false) :
    m.declare c.cached.options (m.subject?.elim .unknown
        (c.cached.typeOf c.left [t.qualifiedName] (c.full.siteOf t))) =
      m.declare c.full.options (m.subject?.elim .unknown
        (c.full.typeOf c.start [t.qualifiedName] (c.full.siteOf t))) ↔
    (c.options.globalScope = true ∨ ∀ name key e outer, m.subject? = some name →
      c.full.lookup? (c.full.siteOf t) name = some (key, e) → e.file ≠ some c.file.path →
      e.container = some outer → c.full.moduleName outer = c.full.moduleName e.host.space) := by
  have spelling : c.cached.options = c.full.options.assuming true := rfl
  rw [spelling, Member.declare_assuming]
  cases subject : m.subject? with
  | none => simp
  | some name =>
    obtain ⟨key, e, looked, declared⟩ := resolves.members t ht kind m hm kept name subject
    rw [Option.elim_some, Option.elim_some, typeOf_full looked declared]
    cases own : c.full.own.lookup? (c.full.scope (c.full.siteOf t)) name with
    | some found =>
      have same := looked
      rw [lookup?_full, own, Option.some_or] at same
      rw [Option.some.inj same] at own
      rw [typeOf_cached_own own declared]
      refine iff_of_true rfl (.inr ?_)
      intro name' key' e' outer subject' looked' other
      cases subject'
      rw [looked] at looked'
      obtain ⟨rfl, rfl⟩ := Prod.mk.inj (Option.some.inj looked')
      exact absurd (file_of_own project own) other
    | none =>
      have elsewhere := looked
      rw [lookup?_full, own, Option.none_or] at elsewhere
      obtain ⟨g, hg, entry, file, other⟩ := file_of_project project own elsewhere
      rw [typeOf_cached_other project apart own looked
        ⟨mentions_of_member ht kind hm kept subject looked declared, file, other⟩]
      have elsewhere : e.file ≠ some c.file.path := by
        rw [file]
        intro same
        rw [Option.some.inj same, Path.same, beq_self_eq_true] at other
        cases other
      constructor
      · intro same
        have texts := Setting.displayName_eq_iff.mp (Member.declare_plain_inj subject same)
        refine texts.imp id fun modules => ?_
        intro name' key' e' outer subject' looked' _ nested
        cases subject'
        rw [looked] at looked'
        obtain ⟨rfl, rfl⟩ := Prod.mk.inj (Option.some.inj looked')
        rw [nested, Option.getD_some] at modules
        exact modules
      · intro alike
        refine congrArg _ (congrArg TypeRef.plain (Setting.displayName_eq_iff.mpr ?_))
        refine alike.imp id fun modules => ?_
        cases nested : e.container with
        | none => rfl
        | some outer => exact modules name key e outer rfl looked elsewhere nested

/-- The object of a class is the same in both runs exactly if its members show no difference. -/
theorem classObject_alike_iff (project : c.Project) (apart : c.Apart) (resolves : c.Resolves)
    (passes : c.PassesAlike) {t : TypeDecl} (ht : t ∈ c.file.types) (kind : t.kind = .classKind) :
    c.cached.classObject c.left t = c.full.classObject c.start t ↔ c.Recalls t := by
  obtain ⟨base, references⟩ := references_alike project apart resolves passes ht kind
  have member := fun m (hm : m ∈ t.members.filter (!·.isIgnored)) =>
    member_alike_iff project apart resolves ht kind (List.mem_filter.mp hm).1
      (by simpa using (List.mem_filter.mp hm).2)
  have members : (c.cached.classObject c.left t).members =
      (c.full.classObject c.start t).members ↔ c.Recalls t := by
    refine (List.map_inj_left (f := _) (g := _)).trans ?_
    constructor
    · intro alike
      by_cases global : c.options.globalScope = true
      · exact .inl global
      · refine .inr fun m hm kept name key e outer subject looked other nested => ?_
        have found : m ∈ t.members.filter (!·.isIgnored) :=
          List.mem_filter.mpr ⟨hm, by simp [kept]⟩
        exact ((member m found).mp (alike m found)).resolve_left global name key e outer subject
          looked other nested
    · intro recalls m hm
      refine (member m hm).mpr (recalls.imp id fun all => ?_)
      obtain ⟨hm, kept⟩ := List.mem_filter.mp hm
      exact all m hm (by simpa using kept)
  constructor
  · intro same
    exact members.mp (congrArg Declaration.members same)
  · intro recalls
    exact Declaration.mk.injEq .. |>.mpr
      ⟨rfl, rfl, rfl, base, rfl, members.mpr recalls, references⟩

theorem nestedEnumsIn_alike (space : String) (ts : List TypeDecl) :
    c.cached.nestedEnumsIn space ts = c.full.nestedEnumsIn space ts := by
  rw [Setting.nestedEnumsIn_eq, Setting.nestedEnumsIn_eq]
  refine List.flatMap_congr fun t ht => ?_
  rw [Setting.nestedEnums_eq, Setting.nestedEnums_eq]
  cases t.kind with
  | enumKind => rfl
  | interfaceKind => rfl
  | classKind => exact nestedEnumsIn_alike _ t.nested
termination_by sizeOf ts
decreasing_by
  have := List.sizeOf_lt_of_mem ht
  cases t
  simp only [TypeDecl.mk.sizeOf_spec] at *
  omega

theorem objectsOf_alike {t : TypeDecl}
    (classes : t.kind = .classKind →
      c.cached.classObject c.left t = c.full.classObject c.start t) :
    c.cached.objectsOf c.left t = c.full.objectsOf c.start t := by
  unfold Setting.objectsOf
  cases kind : t.kind with
  | interfaceKind => rfl
  | enumKind => rfl
  | classKind =>
    simp only [classes kind, nestedEnumsIn_alike]

theorem alone_cached (project : c.Project) : c.cached.Alone := by
  intro site written key e file looked declares
  have own := lookup?_cached.symm.trans looked
  rw [file_of_own project own] at declares
  show file.same c.file.path = true
  rw [← Option.some.inj declares, Path.same, beq_self_eq_true]

end Scene

/-- Where every type that a file mentions is declared in the project, and no two of these types
share the last segment of their names, a run of the file alone from the homes that a full run left
gives the same object for a class exactly if none of its members' types is an enum nested in a class
of another file, as far as modules are written. If that holds of all classes, the objects and the
text of the file are the same. -/
theorem cached_run_alike_iff {c : Scene} (project : c.Project) (resolves : c.Resolves)
    (apart : c.Apart) (passes : c.PassesAlike) :
    (∀ t ∈ c.file.types, t.kind = .classKind →
      (c.cached.classObject c.left t = c.full.classObject c.start t ↔ c.Recalls t)) ∧
    ((∀ t ∈ c.file.types, t.kind = .classKind → c.Recalls t) →
      (c.cached.translate c.left).1 = (c.full.translate c.sidecar).1 ∧
      ∀ mode naming sidecarOf previous,
        render (c.cached.translate c.left).1
            (Directive.settle naming c.cached.options.keepReferencesUnchanged sidecarOf
              (c.cached.translate c.left).1 c.file.path previous) c.cached.options mode =
          render (c.full.translate c.sidecar).1
            (Directive.settle naming c.full.options.keepReferencesUnchanged sidecarOf
              (c.full.translate c.sidecar).1 c.file.path previous) c.full.options mode) := by
  refine ⟨fun t ht kind => Scene.classObject_alike_iff project apart resolves passes ht kind,
    ?_⟩
  intro recalls
  have objects : (c.cached.translate c.left).1 = (c.full.translate c.sidecar).1 := by
    rw [Setting.translate_eq c.left fun _ => Scene.alone_cached project,
      Setting.translate_eq c.sidecar fun assumes => absurd assumes (by simp [Scene.not_assuming])]
    refine congrArg (List.eraseDupsBy Setting.sameName) (List.flatMap_congr fun t ht => ?_)
    refine Scene.objectsOf_alike fun kind => ?_
    exact (Scene.classObject_alike_iff project apart resolves passes ht kind).mpr
      (recalls t ht kind)
  refine ⟨objects, fun mode naming sidecarOf previous => ?_⟩
  rw [objects]
  exact @render_assuming c.full.options true _ _ mode

namespace Scene

/-- The class whose member is of an enum nested in a class of another file. -/
def ticket : Scene := ⟨ticketFile, [orderFile], "App", ⟨"/p"⟩, .default, .empty⟩

def ticketClass : TypeDecl :=
  ⟨"Ticket", "App", .classKind, [], none,
    [⟨"Current", "Order.State", none, none, []⟩], [], []⟩

def stateEntry : Entry :=
  ⟨⟨"State", "App", .enumKind, [], none, [⟨"Open", "", none, none, []⟩], [], []⟩,
    some "App.Order", some ⟨"/p/Order.cs"⟩⟩

theorem subject?_ticket : Member.subject? ⟨"Current", "Order.State", none, none, []⟩ =
    some "Order.State" := by
  with_unfolding_all rfl

theorem lookup?_ticket : ticket.full.lookup? (ticket.full.siteOf ticketClass) "Order.State" =
    some ("App.Order.State", stateEntry) := by
  with_unfolding_all rfl

theorem project_ticket : ticket.Project where
  source := source_of_ticket
  below := by
    intro g hg
    rw [List.mem_singleton.mp hg]
    exact ⟨["Order.cs"], by decide, by decide, by decide⟩
  distinct := by decide

theorem resolves_ticket : ticket.Resolves where
  members := by
    intro t ht _ m hm _ name subject
    obtain rfl : t = ticketClass := List.mem_singleton.mp ht
    rw [List.mem_singleton.mp hm, subject?_ticket] at subject
    obtain rfl := Option.some.inj subject
    exact ⟨_, _, lookup?_ticket, rfl⟩
  bases := by
    intro t ht _ b hb
    obtain rfl : t = ticketClass := List.mem_singleton.mp ht
    cases hb

theorem passesAlike_ticket : ticket.PassesAlike := by
  intro t ht _ b hb
  obtain rfl : t = ticketClass := List.mem_singleton.mp ht
  cases hb

theorem apart_ticket : ticket.Apart := by
  have only : ∀ t ∈ ticket.file.types, ∀ key e, ticket.full.Mentions ticket.start t key e →
      key = "App.Order.State" := by
    intro t ht key e mentions
    obtain rfl : t = ticketClass := List.mem_singleton.mp ht
    cases mentions with
    | member hm _ subject reaches =>
      rw [List.mem_singleton.mp hm, subject?_ticket] at subject
      obtain rfl := Option.some.inj subject
      cases reaches with
      | named looked _ => exact (Prod.mk.inj (Option.some.inj (looked.symm.trans lookup?_ticket))).1
      | inside looked kind =>
        have found := (Prod.mk.inj (Option.some.inj (looked.symm.trans lookup?_ticket))).2
        rw [found] at kind
        cases kind
    | base found => simp [Setting.baseFound, ticketClass, Setting.searchBase] at found
  intro t ht t' ht' key e key' e' mentions mentions' _
  rw [only t ht key e mentions, only t' ht' key' e' mentions']

end Scene

/-- The object of the ticket is another one in the run from recorded homes. -/
theorem cached_run_of_ticket :
    Scene.ticket.cached.classObject Scene.ticket.left Scene.ticketClass ≠
      Scene.ticket.full.classObject Scene.ticket.start Scene.ticketClass := by
  intro same
  have alike := (cached_run_alike_iff Scene.project_ticket Scene.resolves_ticket
    Scene.apart_ticket Scene.passesAlike_ticket).1 Scene.ticketClass List.mem_cons_self rfl
  rcases alike.mp same with global | modules
  · cases global
  · exact absurd (modules _ List.mem_cons_self rfl _ _ _ _ Scene.subject?_ticket
      Scene.lookup?_ticket (by decide) rfl) (by decide)

end Ambient
