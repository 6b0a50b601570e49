import Ambient.Proofs.Resolution.Nearest
import Ambient.Proofs.Resolution.Progress
import Ambient.Proofs.Translation.Agreement
import Ambient.Proofs.Translation.Bounded
import Ambient.Proofs.Translation.Order

/-!
# One class in the shapes of two files

A class without a declaration of its own is written out wherever it is mentioned. What its
members mean is looked up at the place inside the class, with the file that mentions it asked
first and its imports asked last. So two files write out the same shape as far as neither
declares a type that hides one of the project, and as far as the names inside are found without
imports or the imports agree.
-/
namespace Ambient

open Host

namespace Index

/-- The type that a written name means through the imported namespaces. -/
def imported? (ix : Index) (usings : List String) (written : String) : Option (String × Entry) :=
  (usings.map (qualify · written)).findSome? fun key => (ix.get? key).map (key, ·)

/-- The imported namespaces come last. -/
theorem lookup?_eq_or (ix : Index) (scope : Scope) (written : String) :
    ix.lookup? scope written =
      (ix.lookup? { scope with usings := [] } written).or (ix.imported? scope.usings written) := by
  simp only [lookup?, imported?, Scope.candidates, List.map_append, List.append_nil,
    List.findSome?_append]

end Index

namespace Setting

/-- The place inside a type, as in an object of its own namespace. -/
def within (s : Setting) (key : String) (e : Entry) : Site :=
  s.siteIn (s.moduleName e.host.space) key e.host

/-- No type of the file at hand hides the one that a name means in the project. -/
def Unshadowed (s : Setting) (site : Site) (written : String) : Prop :=
  ∀ found, s.own.lookup? (s.scope site) written = some found →
    s.project.lookup? (s.scope site) written = some found

/-- A name needs no imports, or those of both files give the same. -/
def SameImports (a b : Setting) (site : Site) (written : String) : Prop :=
  (a.project.lookup? ⟨site.space, [], site.containers⟩ written).isSome = true ∨
    a.project.imported? a.file.usings written = b.project.imported? b.file.usings written

/-- `s.Inside key e k t`: the class `t` of the qualified name `k` is written out in the shape of the
class `e`, at any depth. -/
inductive Inside (s : Setting) (key : String) (e : Entry) : String → Entry → Prop
  | self : Inside s key e key e
  | member {k k' name : String} {t t' : Entry} {m : Host.Member} :
    Inside s key e k t → m ∈ t.host.members → m.isIgnored = false →
      m.subject? = some name →
    s.lookup? (s.within k t) name = some (k', t') → t'.host.kind = .classKind →
    t'.isDeclared = false → Inside s key e k' t'

/-- `s.Writes key e k t name`: the name stands in a class that is written out in
the shape of `e`. -/
def Writes (s : Setting) (key : String) (e : Entry) (k : String) (t : Entry)
    (name : String) : Prop :=
  s.Inside key e k t ∧ ∃ m ∈ t.host.members, m.isIgnored = false ∧ m.subject? = some name

/-- Two settings of one project. -/
structure Beside (a b : Setting) : Prop where
  options : a.options = b.options
  project : ∀ key, a.project.get? key = b.project.get? key
  get? : ∀ key, a.get? key = b.get? key

variable {a b : Setting} {site site' : Site} {written written' key : String} {e : Entry}
  {f g : File} {files others : List File} {name : String} {root : Path} {options : Options}

theorem Beside.symm (beside : Beside a b) : Beside b a where
  options := beside.options.symm
  project key := (beside.project key).symm
  get? key := (beside.get? key).symm

theorem SameImports.symm (imports : a.SameImports b site written) (beside : Beside a b) :
    b.SameImports a site written := by
  refine imports.imp (fun found => ?_) Eq.symm
  rwa [Index.lookup?_congr beside.project] at found

theorem lookup?_of_unshadowed (apart : a.Unshadowed site written) :
    a.lookup? site written = a.project.lookup? (a.scope site) written := by
  unfold lookup?
  cases own : a.own.lookup? (a.scope site) written with
  | none => rfl
  | some found => exact (apart found own).symm

theorem lookup?_of_key (found : (a.lookup? site written).map (·.1) = some key)
    (known : a.get? key = some e) : a.lookup? site written = some (key, e) := by
  obtain ⟨⟨k, t⟩, looked, rfl⟩ := Option.map_eq_some_iff.mp found
  rw [looked, Option.some.inj ((get?_of_lookup? looked).symm.trans known)]

/-- Where the file at hand gives nothing, it hides nothing. -/
theorem unshadowed_of_isNone (none : (a.own.lookup? (a.scope site) written).isNone = true) :
    a.Unshadowed site written := by
  intro found own
  rw [own] at none
  cases none

theorem within_congr (beside : Beside a b) (key : String) (e : Entry) :
    a.within key e = b.within key e := by
  unfold within
  rw [siteIn_congr beside.get?, moduleName, moduleName, beside.options]

/-- In the project a name means the same for both files. -/
theorem project_lookup?_congr (beside : Beside a b) (imports : a.SameImports b site written) :
    a.project.lookup? (a.scope site) written = b.project.lookup? (b.scope site) written := by
  rw [Index.lookup?_eq_or, Index.lookup?_eq_or b.project]
  have bare := Index.lookup?_congr beside.project ⟨site.space, [], site.containers⟩ written
  show (a.project.lookup? ⟨site.space, [], site.containers⟩ written).or _ =
    (b.project.lookup? ⟨site.space, [], site.containers⟩ written).or _
  rcases imports with found | same
  · obtain ⟨entry, found⟩ := Option.isSome_iff_exists.mp found
    rw [← bare, found]
    rfl
  · rw [← bare]
    exact congrArg _ same

theorem lookup?_congr_of_unshadowed (beside : Beside a b) (imports : a.SameImports b site written)
    (here : a.Unshadowed site written) (there : b.Unshadowed site written) :
    a.lookup? site written = b.lookup? site written := by
  rw [lookup?_of_unshadowed here, lookup?_of_unshadowed there, project_lookup?_congr beside imports]

/-- What the file at hand gives hides nothing if the other file comes to the same
without giving it. -/
theorem unshadowed_of_lookup?_eq (beside : Beside a b) (imports : a.SameImports b site written)
    (foreign : ∀ found, a.own.lookup? (a.scope site) written = some found →
      b.own.lookup? (b.scope site) written ≠ some found)
    (same : a.lookup? site written = b.lookup? site written) : a.Unshadowed site written := by
  intro found own
  have here : b.lookup? site written = some found := by
    rw [← same, lookup?, own]
    rfl
  rw [project_lookup?_congr beside imports]
  rcases Option.or_eq_some_iff.mp here with there | ⟨-, project⟩
  · exact absurd there (foreign found own)
  · exact project

/-- A name that is found alike has the same sense, as far as the same classes are being expanded. -/
theorem sense_congr {doneA doneB : List String}
    (same : a.lookup? site written = b.lookup? site' written')
    (opened : ∀ k t, a.lookup? site written = some (k, t) → t.host.kind = .classKind →
      t.isDeclared = false → (k ∈ doneA ↔ k ∈ doneB)) :
    a.sense doneA site written = b.sense doneB site' written' := by
  unfold sense
  rw [← same]
  cases found : a.lookup? site written with
  | none => rfl
  | some entry =>
    obtain ⟨k, t⟩ := entry
    cases kind : t.host.kind with
    | interfaceKind => simp only [kind, if_true]
    | enumKind =>
      simp only [kind, TypeDecl.isEnum, reduceCtorEq, if_false, beq_self_eq_true, if_true]
    | classKind =>
      cases declared : t.isDeclared with
      | true => simp only [kind, declared, reduceCtorEq, if_false, if_true]
      | false =>
        have both := opened k t found kind declared
        simp only [kind, declared, reduceCtorEq, if_false, Bool.false_eq_true,
          List.contains_iff_mem, both]

/-- What stands inside a class that is written out is found alike from both files. -/
def Agree (a b : Setting) (key : String) (e : Entry) : Prop :=
  ∀ k t name, a.Writes key e k t name →
    a.lookup? (a.within k t) name = b.lookup? (a.within k t) name

theorem Agree.inside (agree : Agree a b key e) (beside : Beside a b) {k : String} {t : Entry}
    (h : a.Inside key e k t) : b.Inside key e k t := by
  induction h with
  | self => exact .self
  | member inside hm kept subject found kind undeclared ih =>
    rw [agree _ _ _ ⟨inside, _, hm, kept, subject⟩, within_congr beside] at found
    exact .member ih hm kept subject found kind undeclared

theorem Agree.of_inside (agree : Agree a b key e) (beside : Beside a b) {k : String} {t : Entry}
    (h : b.Inside key e k t) : a.Inside key e k t := by
  induction h with
  | self => exact .self
  | member inside hm kept subject found kind undeclared ih =>
    rw [← within_congr beside, ← agree _ _ _ ⟨ih, _, hm, kept, subject⟩] at found
    exact .member ih hm kept subject found kind undeclared

/-- A class that both files find gives one shape, as far as the same classes are being expanded. -/
theorem typeOf_congr (agree : Agree a b key e) (beside : Beside a b)
    (assumes : a.options.assumeExternalType = false) {sidecarA sidecarB : Sidecar}
    {doneA doneB : List String} {site site' : Site} {written written' : String}
    (same : a.lookup? site written = b.lookup? site' written')
    (module_ : site.module_ = site'.module_)
    (within : ∀ k t, a.lookup? site written = some (k, t) → t.host.kind = .classKind →
      t.isDeclared = false → a.Inside key e k t)
    (opened : ∀ k t, a.Inside key e k t → (k ∈ doneA ↔ k ∈ doneB)) :
    a.typeOf sidecarA doneA site written = b.typeOf sidecarB doneB site' written' := by
  have senses := sense_congr same fun k t found kind undeclared =>
    opened k t (within k t found kind undeclared)
  rw [typeOf_eq, typeOf_eq, ← senses]
  cases h : a.sense doneA site written with
  | missing => simp only [← beside.options, assumes, Bool.false_eq_true, if_false]
  | interface => rfl
  | number => rfl
  | expanding t => simp only [beside.options]
  | declared k t =>
    simp only [displayName, moduleName, beside.options, module_]
    rfl
  | inlined k t =>
    have := remaining_lt_of_inlined h
    obtain ⟨found, -⟩ := lookup?_of_inlined h
    obtain ⟨kind, undeclared⟩ := kind_of_inlined h
    have inside := within k t found kind undeclared
    have place : b.siteIn site'.module_ k t.host = a.siteIn site.module_ k t.host := by
      rw [siteIn_congr beside.get?, module_]
    simp only [beside.options, place, TypeRef.shape.injEq, and_true]
    refine List.map_congr_left fun m hm => ?_
    obtain ⟨hm, kept⟩ := List.mem_filter.mp hm
    cases subject : m.subject? with
    | none => rfl
    | some name =>
      simp only [Option.elim_some]
      have kept : m.isIgnored = false := by simpa using kept
      -- the module of the object plays no part in a lookup
      have alike : a.lookup? (a.siteIn site.module_ k t.host) name =
        b.lookup? (a.siteIn site.module_ k t.host) name :=
          agree k t name ⟨inside, m, hm, kept, subject⟩
      rw [typeOf_congr agree beside assumes alike rfl
        (fun k' t' found kind undeclared => .member inside hm kept subject found kind undeclared)
        fun k' t' inside' => ?_]
      rw [List.mem_cons, List.mem_cons, opened k' t' inside']
termination_by a.remaining doneA

/-- Among files that share no name, the file at hand adds nothing to the project. -/
theorem get?_of_apart (apart : Index.Apart files) (mem : f ∈ files) (key : String) :
    (Setting.of f (.ofFiles name root files) options).get? key =
      Index.first? (files.flatMap Index.entriesOfFile) key := by
  have own : (Setting.of f (.ofFiles name root files) options).get? key =
      (Index.first? (Index.entriesOfFile f) key).or
        (Index.first? (files.flatMap Index.entriesOfFile) key) := by
    unfold get?
    exact congrArg₂ Option.or (Index.get?_ofFile f key) (Index.get?_ofFiles files key)
  rw [own]
  cases here : Index.first? (Index.entriesOfFile f) key with
  | none => rfl
  | some e => exact ((Index.first?_flatMap_iff apart).mpr ⟨f, mem, here⟩).symm

theorem beside_of (apart : Index.Apart files) (perm : files.Perm others) (hf : f ∈ files)
    (hg : g ∈ files) :
    Beside (Setting.of f (.ofFiles name root files) options)
      (Setting.of g (.ofFiles name root others) options) where
  options := rfl
  project key := by
    show (Index.ofFiles name root files).get? key = (Index.ofFiles name root others).get? key
    rw [Index.get?_ofFiles, Index.get?_ofFiles, Index.first?_flatMap_perm perm apart]
  get? key := by
    rw [get?_of_apart apart hf, get?_of_apart (apart.perm perm) (perm.mem_iff.mp hg),
      Index.first?_flatMap_perm perm apart]

/-- Two files do not give the same type. -/
theorem own_ne_of_apart (apart : Index.Apart files) (hf : f ∈ files) (hg : g ∈ files)
    (differ : f ≠ g) {project project' : Index} {scope scope' : Scope} {found : String × Entry}
    (h : (Setting.of f project options).own.lookup? scope written = some found) :
    (Setting.of g project' options).own.lookup? scope' written ≠ some found := by
  intro h'
  have inF := (Index.get?_ofFile f found.1).symm.trans (Index.get?_of_lookup? h)
  have inG := (Index.get?_ofFile g found.1).symm.trans (Index.get?_of_lookup? h')
  exact differ (apart f hf g hg found.1 (Index.mem_keysOfFile_of_first? inF)
    (Index.mem_keysOfFile_of_first? inG))

/-- A class at the top level of a file is declared. -/
theorem exists_declared_of_class (distinct : Index.Distinct files) (hf : f ∈ files)
    (hg : g ∈ files) {t : TypeDecl} (ht : t ∈ g.types) (kind : t.kind = .classKind) :
    ∃ e, (Setting.of f (.ofFiles name root files) options).get? t.qualifiedName = some e ∧
      e.isDeclared = true := by
  have spelled : Index.keyOf none "" t = t.qualifiedName := by
    unfold Index.keyOf TypeDecl.qualifiedName
    rw [space_placedIn_empty]
  have entry : (t.qualifiedName, (⟨Index.placedIn "" t, none, some g.path⟩ : Entry)) ∈
      files.flatMap Index.entriesOfFile := by
    refine List.mem_flatMap.mpr ⟨g, hg, List.mem_append_left _ ?_⟩
    exact Index.mem_entriesOfList.mpr ⟨t, ht, .inr (by rw [spelled])⟩
  have known := Index.isSome_first?_iff.mpr (List.mem_map_of_mem (f := Prod.fst) entry)
  obtain ⟨e, found⟩ := Option.isSome_iff_exists.mp known
  refine ⟨e, (get?_of_apart distinct.apart hf _).trans found, ?_⟩
  rw [distinct.eq_of_mem entry (Index.mem_of_first? found)]
  simp [Entry.isDeclared, Entry.isNested, Index.placedIn, kind]

theorem Inside.undeclared {k : String} {t : Entry} (h : a.Inside key e k t)
    (known : a.get? key = some e) (undeclared : e.isDeclared = false) :
    a.get? k = some t ∧ t.isDeclared = false := by
  cases h with
  | self => exact ⟨known, undeclared⟩
  | member _ _ _ _ found _ undeclared => exact ⟨get?_of_lookup? found, undeclared⟩

/-- Where neither file hides a type and the imports agree, what stands inside a
class is found alike. -/
theorem agree_of_unshadowed (beside : Beside a b)
    (shared : ∀ k t name, a.Writes key e k t name → a.SameImports b (a.within k t) name ∧
      a.Unshadowed (a.within k t) name ∧ b.Unshadowed (a.within k t) name) : Agree a b key e := by
  intro k t name writes
  obtain ⟨imports, here, there⟩ := shared k t name writes
  exact lookup?_congr_of_unshadowed beside imports here there

end Setting

/-- A name inside an indexed class means the same whichever of two files is translated exactly if
neither file declares a type that hides the one it means in the project, given that the name is
found without imports or that the imports of both files give the same. If this holds of all names in
a class that is written out and in the classes written out inside it, the two files write out the
same classes in it, no class at the top level of either file is among them, and both files give one
shape up to the module of the object, as far as the same classes are being expanded around it. -/
theorem shapes_agree {f g : File} {files others : List File} (distinct : Index.Distinct files)
    (perm : files.Perm others) (hf : f ∈ files) (hg : g ∈ files) (differ : f ≠ g)
    {options : Options}
    (assumes : options.assumeExternalType = false) (name : String) (root : Path) :
    let a := Setting.of f (.ofFiles name root files) options
    let b := Setting.of g (.ofFiles name root others) options
    (∀ key e written, a.SameImports b (a.within key e) written → ∀ module_ module_',
      (a.lookup? (a.siteIn module_ key e.host) written =
          b.lookup? (b.siteIn module_' key e.host) written ↔
        a.Unshadowed (a.within key e) written ∧ b.Unshadowed (a.within key e) written)) ∧
    ∀ key e, a.get? key = some e → e.isDeclared = false →
      (∀ k t written, a.Writes key e k t written → a.SameImports b (a.within k t) written ∧
        a.Unshadowed (a.within k t) written ∧ b.Unshadowed (a.within k t) written) →
      (∀ k t, a.Inside key e k t ↔ b.Inside key e k t) ∧
      (∀ t ∈ f.types ++ g.types, t.kind = .classKind → ∀ e',
        ¬ a.Inside key e t.qualifiedName e') ∧
      ∀ site site' written written', a.lookup? site written = some (key, e) →
        b.lookup? site' written' = some (key, e) → ∀ done done' trail trail',
        (∀ k t, a.Inside key e k t → (k ∈ done ↔ k ∈ done')) →
        (a.resolveName done site written trail).1 =
          (b.resolveName done' { site' with module_ := site.module_ } written' trail').1 := by
  intro a b
  have apart := distinct.apart
  have beside : Setting.Beside a b := Setting.beside_of apart perm hf hg
  refine ⟨fun key e written imports module_ module_' => ?_,
    fun key e known undeclared shared => ?_⟩
  · -- the module of the object plays no part in a lookup
    have place : b.lookup? (b.siteIn module_' key e.host) written =
        b.lookup? (a.within key e) written := by
      rw [Setting.within_congr beside]
      rfl
    rw [place]
    refine ⟨fun same => ⟨?_, ?_⟩, fun both =>
      Setting.lookup?_congr_of_unshadowed beside imports both.1 both.2⟩
    · exact Setting.unshadowed_of_lookup?_eq beside imports
        (fun found => Setting.own_ne_of_apart apart hf hg differ) same
    · exact Setting.unshadowed_of_lookup?_eq beside.symm (imports.symm beside)
        (fun found => Setting.own_ne_of_apart apart hg hf differ.symm) same.symm
  · have agree := Setting.agree_of_unshadowed beside shared
    refine ⟨fun k t => ⟨agree.inside beside, agree.of_inside beside⟩,
      fun t ht kind e' inside => ?_,
      fun site site' written written' foundA foundB done done' trail trail' opened => ?_⟩
    · have declared : ∃ e', a.get? t.qualifiedName = some e' ∧ e'.isDeclared = true := by
        rcases List.mem_append.mp ht with own | foreign
        · exact Setting.exists_declared_of_class distinct hf hf own kind
        · exact Setting.exists_declared_of_class distinct hf hg foreign kind
      obtain ⟨found, not⟩ := inside.undeclared known undeclared
      obtain ⟨_, found', yes⟩ := declared
      cases found.symm.trans found'
      cases not.symm.trans yes
    · have alone : ∀ {s : Setting} (t : Trail), s.options.assumeExternalType = false →
          s.Steady t.sidecar t := fun t off =>
        fun on => ⟨Setting.alone_of_not_assuming off on, rfl⟩
      rw [(Setting.resolveName_apply done site written trail (alone trail assumes)).1,
        (Setting.resolveName_apply done' _ written' trail' (alone trail' assumes)).1]
      refine Setting.typeOf_congr agree beside assumes (foundA.trans foundB.symm) rfl ?_ opened
      intro k t found _ _
      cases foundA.symm.trans found
      exact .self

/-- An order with a nested class, whose members mention a type of its namespace and
an imported one. -/
def salesFile : File :=
  ⟨⟨"/p/Order.cs"⟩, ["Lib"],
    [⟨"Order", "Shop.Sales", .classKind, [], none, [⟨"First", "Line", none, none, []⟩],
      [⟨"Line", "", .classKind, [], none,
        [⟨"State", "Status", none, none, []⟩, ⟨"Price", "Money", none, none, []⟩],
        [], []⟩], []⟩],
    []⟩

def moneyFile : File :=
  ⟨⟨"/p/Money.cs"⟩, [], [⟨"Money", "Lib", .classKind, [], none, [], [], []⟩], []⟩

/-- A class that mentions the nested one, with the same imports. -/
def buyerFile : File :=
  ⟨⟨"/p/Buyer.cs"⟩, ["Lib"],
    [⟨"Buyer", "Shop.Sales", .classKind, [], none, [⟨"Item", "Order.Line", none, none, []⟩],
      [], []⟩], []⟩

/-- A class that mentions the nested one without imports, beside a type of the name that the nested
class mentions, and one of two nested classes that hold each other. -/
def shopFile : File :=
  ⟨⟨"/p/Client.cs"⟩, [],
    [⟨"Status", "Shop", .classKind, [], none, [], [], []⟩,
      ⟨"Client", "Shop", .classKind, [], none,
        [⟨"Item", "Sales.Order.Line", none, none, []⟩,
          ⟨"End", "App.Tree.Leaf", none, none, []⟩], [], []⟩],
    []⟩

/-- The nested class as it is indexed. -/
def lineEntry : Entry :=
  ⟨⟨"Line", "Shop.Sales", .classKind, [], none,
    [⟨"State", "Status", none, none, []⟩, ⟨"Price", "Money", none, none, []⟩], [], []⟩,
    some "Shop.Sales.Order", some ⟨"/p/Order.cs"⟩⟩

/-- The order and the buyer write out one shape for the nested class. -/
theorem shapes_agree_of_buyer :
    let files := [salesFile, statusFile, moneyFile, buyerFile]
    let a := Setting.of buyerFile (.ofFiles "App" ⟨"/p"⟩ files) .default
    let b := Setting.of salesFile (.ofFiles "App" ⟨"/p"⟩ files) .default
    let site : Site := ⟨"Shop.Sales", ["Shop.Sales.Buyer"], "Shop.Sales"⟩
    let site' : Site := ⟨"Shop.Sales", ["Shop.Sales.Order"], "Shop.Sales"⟩
    Index.Distinct files ∧ buyerFile ≠ salesFile ∧
      (a.resolveName ["Shop.Sales.Buyer"] site "Order.Line" ⟨[], .empty⟩).1 =
        (b.resolveName ["Shop.Sales.Order"] site' "Line" ⟨[], .empty⟩).1 := by
  intro files a b site site'
  let key := "Shop.Sales.Order.Line"
  have distinct : Index.Distinct files := by
    unfold Index.Distinct
    decide +kernel
  have differ : buyerFile ≠ salesFile := by
    intro same
    have path : buyerFile.path = salesFile.path := congrArg File.path same
    revert path
    decide
  have known : a.get? key = some lineEntry := by with_unfolding_all rfl
  have known' : b.get? key = some lineEntry := by with_unfolding_all rfl
  have mentions : a.lookup? site "Order.Line" = some (key, lineEntry) :=
    Setting.lookup?_of_key (by decide +kernel) known
  have mentions' : b.lookup? site' "Line" = some (key, lineEntry) :=
    Setting.lookup?_of_key (by decide +kernel) known'
  have names : ∀ m ∈ lineEntry.host.members, ∀ name, m.subject? = some name →
      name ∈ ["Status", "Money"] := by
    decide +kernel
  have declared : ∀ name ∈ ["Status", "Money"],
      (a.lookup? (a.within key lineEntry) name).all (·.2.isDeclared) = true := by
    decide +kernel
  have foreign : ∀ s ∈ [a, b], ∀ name ∈ ["Status", "Money"],
      (s.own.lookup? (s.scope (a.within key lineEntry)) name).isNone = true := by
    decide +kernel
  -- no other class is written out in the nested one
  have inside : ∀ k t, a.Inside key lineEntry k t → k = key ∧ t = lineEntry := by
    intro k t h
    induction h with
    | self => exact ⟨rfl, rfl⟩
    | member _ hm _ subject found _ undeclared ih =>
      obtain ⟨rfl, rfl⟩ := ih
      have shown := declared _ (names _ hm _ subject)
      rw [found, Option.all_some, undeclared] at shown
      cases shown
  have whole := (@shapes_agree buyerFile salesFile files files distinct (.refl files)
    (List.mem_of_mem_getLast? rfl) List.mem_cons_self differ .default rfl "App" ⟨"/p"⟩).2
    key lineEntry known rfl
  refine ⟨distinct, differ, (whole ?_).2.2 site site' _ _ mentions mentions' _ _ _ _ ?_⟩
  · rintro k t written ⟨within, m, hm, -, subject⟩
    obtain ⟨rfl, rfl⟩ := inside k t within
    have listed := names m hm written subject
    exact ⟨.inr rfl, Setting.unshadowed_of_isNone (foreign a (by simp) written listed),
      Setting.unshadowed_of_isNone (foreign b (by simp) written listed)⟩
  · intro k t within
    obtain ⟨rfl, -⟩ := inside k t within
    decide

/-- The client finds another status than the order in the nested class, and no money. It also
writes out the class around a leaf, where the tree writes the leaf out in this class and so
gives its bare name. -/
theorem shapes_differ :
    let files := [salesFile, statusFile, moneyFile, Setting.treeFile, shopFile]
    let a := Setting.of shopFile (.ofFiles "App" ⟨"/p"⟩ files) .default
    let b := Setting.of salesFile (.ofFiles "App" ⟨"/p"⟩ files) .default
    let c := Setting.of Setting.treeFile (.ofFiles "App" ⟨"/p"⟩ files) .default
    let site : Site := ⟨"Shop", ["Shop.Client"], "Shop"⟩
    let site' : Site := ⟨"Shop.Sales", ["Shop.Sales.Order"], "Shop"⟩
    let site'' : Site := ⟨"App", ["App.Tree", "App.Tree.Node"], "Shop"⟩
    let line := "Shop.Sales.Order.Line"
    let meant (s : Setting) (written : String) : Option String :=
      (s.get? line).bind fun e => (s.lookup? (s.within line e) written).map (·.1)
    Index.Distinct files ∧ shopFile ∈ files ∧
      (a.lookup? site "Sales.Order.Line").map (·.1) = some line ∧
      (b.lookup? site' "Line").map (·.1) = some line ∧
      ["Status", "Money"].map (meant a) = [some "Shop.Status", none] ∧
      ["Status", "Money"].map (meant b) = [some "Shop.Sales.Status", some "Lib.Money"] ∧
      (a.resolveName ["Shop.Client"] site "Sales.Order.Line" ⟨[], .empty⟩).1.text .default =
        "\x7b state: Status; price: any; \x7d" ∧
      (b.resolveName ["Shop.Sales.Order"] site' "Line" ⟨[], .empty⟩).1.text .default =
        "\x7b state: Shop.Sales.Status; price: Lib.Money; \x7d" ∧
      (a.lookup? site "App.Tree.Leaf").map (·.1) = some "App.Tree.Leaf" ∧
      (c.lookup? site'' "Leaf").map (·.1) = some "App.Tree.Leaf" ∧
      (a.resolveName ["Shop.Client"] site "App.Tree.Leaf" ⟨[], .empty⟩).1.text .default =
        "\x7b up?: \x7b next: Node; end: Leaf; \x7d; all: \x7b next: Node; end: Leaf; \x7d[]; \x7d" ∧
      (c.resolveName ["App.Tree.Node", "App.Tree"] site'' "Leaf" ⟨[], .empty⟩).1.text .default =
        "\x7b up?: Node; all: Node[]; \x7d" := by
  intro files a b c site site' site'' line meant
  have distinct : Index.Distinct files := by
    unfold Index.Distinct
    decide +kernel
  exact ⟨distinct, List.mem_of_mem_getLast? rfl, by decide +kernel, by decide +kernel,
    by decide +kernel, by decide +kernel, by decide +kernel, by decide +kernel, by decide +kernel,
    by decide +kernel, by decide +kernel, by decide +kernel⟩

end Ambient
