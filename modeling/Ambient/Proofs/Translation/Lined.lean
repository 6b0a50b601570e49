import Ambient.Proofs.Index.Keys
import Ambient.Proofs.Rendering.Lines
import Ambient.Proofs.Resolution.Subject
import Ambient.Proofs.Translation.Declared

/-!
# Declarations on lines of their own

The names in a source are words, so whatever is declared for it is made of texts on one line.
Besides the source only the initializers of enums count, which are taken over as written, and where
types elsewhere are assumed the names recorded for them.
-/
namespace Ambient

open Host Text

theorem oneLine_splitQualified {name : String} (h : OneLine name) :
    OneLine (splitQualified name).space ∧ OneLine (splitQualified name).name := by
  refine ⟨.ofList fun feed => h (List.mem_of_mem_take feed), .ofList fun feed => h ?_⟩
  have inner := (List.takeWhile_prefix _).subset (List.mem_reverse.mp feed)
  exact List.mem_reverse.mp inner

namespace KnownType

theorem oneLine_of_primitive? {name rendered : String} (h : primitive? name = some rendered) :
    OneLine rendered := by
  unfold primitive? at h
  simp only at h
  repeat' split at h
  all_goals first | cases h; decide | cases h

theorem oneLine_of_ofPlainName {name rendered : String}
    (h : ofPlainName name = .primitive rendered) :
    OneLine rendered := by
  unfold ofPlainName at h
  split at h
  · rename_i found
    cases h
    exact oneLine_of_primitive? found
  · split at h
    · cases h
      decide
    · cases h

theorem oneLine_of_classify {ty : TypeSyntax} {rendered : String}
    (h : classify ty = .primitive rendered) : OneLine rendered := by
  fun_induction classify ty
  case case3 => cases h; decide
  case case4 => exact oneLine_of_ofPlainName h
  all_goals simp_all

end KnownType

namespace TypeSyntax
variable {o : Options}

theorem spelled_of_mem_inner {ty part : TypeSyntax} (spelled : Spelled ty)
    (h : part ∈ (KnownType.classify ty).inner) : Spelled part := by
  have args : ∀ {name : String} {tys : List TypeSyntax}, Spelled (.named name tys) →
      ∀ ty ∈ tys, Spelled ty := by
    intro name tys spelled
    cases spelled with
    | named _ each => exact each
  fun_induction KnownType.classify ty with
  | case1 inner =>
    cases spelled with
    | nullable inner => exact List.mem_singleton.mp h ▸ inner
  | case2 element =>
    cases spelled with
    | array element => exact List.mem_singleton.mp h ▸ element
  | case3 items => cases h
  | case4 name =>
    rw [KnownType.inner_ofPlainName] at h
    cases h
  | case5 name inner => exact List.mem_singleton.mp h ▸ args spelled inner (by simp)
  | case6 name inner => exact List.mem_singleton.mp h ▸ args spelled inner (by simp)
  | case7 name inner _ _ _ _ ih => exact ih (args spelled inner (by simp)) h
  | case8 => cases h
  | case9 name key value => exact List.mem_singleton.mp h ▸ args spelled value (by simp)
  | case10 => cases h
  | case11 => cases h

theorem oneLine_of_subject? {ty : TypeSyntax} {name : String} (spelled : Spelled ty)
    (h : ty.subject? = some name) : OneLine name := by
  fun_induction subject? ty with
  | case1 => cases h
  | case2 ty inner found _ ih =>
    exact ih (spelled_of_mem_inner spelled (by rw [found]; exact List.mem_singleton_self _)) h
  | case3 ty element found _ ih =>
    exact ih (spelled_of_mem_inner spelled (by rw [found]; exact List.mem_singleton_self _)) h
  | case4 ty key value found _ ih =>
    exact ih (spelled_of_mem_inner spelled (by rw [found]; exact List.mem_singleton_self _)) h
  | case5 name args _ =>
    cases h
    cases spelled with
    | named dotted _ => exact dotted.oneLine
  | case6 => cases h

end TypeSyntax

namespace TypeRef
variable {o : Options}

mutual
theorem oneLine_text : (type : TypeRef) → type.Lined o → OneLine (type.text o)
  | .known rendered isArray, lined => by
    rw [text]
    refine OneLine.append lined ?_
    cases isArray <;> decide
  | .shape members isArray, lined => by
    rw [text]
    have opening : OneLine "\x7b " := by decide
    have closing : OneLine " \x7d" := by decide
    have fields := OneLine.intercalate (by decide : OneLine " ") (oneLine_fieldTexts members lined)
    refine ((opening.append fields).append closing).append ?_
    cases isArray <;> decide
  | .untyped isArray, _ => by
    rw [text]
    cases isArray <;> decide

theorem oneLine_fieldTexts : (members : List Member) → LinedIn o members →
    ∀ field ∈ fieldTexts o members, OneLine field
  | [], _ => by
    intro field hf
    cases hf
  | m :: more, lined => by
    intro field hf
    rw [fieldTexts] at hf
    rcases List.mem_cons.mp hf with rfl | later
    · exact oneLine_fieldText m lined.1
    · exact oneLine_fieldTexts more lined.2 field later

theorem oneLine_fieldText : (m : Member) → LinedMember o m → OneLine (fieldText o m)
  | ⟨name, shownName, type, init, summary, explicitName⟩, lined => by
    rw [fieldText]
    have colon : OneLine ": " := by decide
    have ending : OneLine ";" := by decide
    exact ((OneLine.append lined.1 colon).append (oneLine_text type lined.2)).append ending
end

theorem Lined.asArray {type : TypeRef} (lined : type.Lined o) : type.asArray.Lined o := by
  cases type <;> exact lined

theorem Lined.listOf {inner : TypeRef} (lined : inner.Lined o) : (inner.listOf o).Lined o := by
  unfold TypeRef.listOf
  split
  · exact oneLine_text inner lined
  · exact lined.asArray

theorem Lined.dictionaryOf {value : TypeRef} (lined : value.Lined o) (numericKey : Bool) :
    (value.dictionaryOf o numericKey).Lined o := by
  have opening :
      OneLine ("\x7b [key: " ++ (if numericKey then "number" else "string") ++ "]: ") := by
    cases numericKey <;> decide
  have closing : OneLine " \x7d" := by decide
  exact (opening.append (oneLine_text value lined)).append closing

end TypeRef

theorem TypeSyntax.lined_wrap {o : Options} {ty : TypeSyntax} {leaf : TypeRef}
    (lined : leaf.Lined o) :
    (ty.wrap o leaf).Lined o := by
  fun_induction wrap o ty leaf with
  | case1 ty rendered h => exact KnownType.oneLine_of_classify h
  | case2 ty inner h _ ih => exact ih
  | case3 ty element h _ ih => exact ih.listOf
  | case4 ty key value h _ ih => exact ih.dictionaryOf _
  | case5 ty h => exact lined

theorem Host.Member.oneLine_of_subject? {m : Host.Member} {name : String}
    (h : m.subject? = some name) : OneLine name := by
  unfold subject? at h
  cases parsed : TypeSyntax.parse m.typeName with
  | error fault => rw [parsed] at h; cases h
  | ok ty =>
    rw [parsed] at h
    exact TypeSyntax.oneLine_of_subject? (TypeSyntax.spelled_of_parse parsed) h

theorem Host.Member.lined_declare {o : Options} {m : Host.Member} {leaf : TypeRef}
    (name : OneLine m.name) (lined : leaf.Lined o) : TypeRef.LinedMember o (m.declare o leaf) := by
  have marked : OneLine (m.name ++ "?") := name.append (by decide)
  rw [TypeRef.linedMember_iff]
  constructor
  · refine Options.oneLine_memberName fun plain => ?_
    have none : m.serializedName? = none := by
      cases found : m.serializedName? with
      | none => rfl
      | some explicit =>
        unfold declare at plain
        rw [found] at plain
        cases plain
    unfold declare
    rw [none]
    cases TypeSyntax.parse m.typeName with
    | error fault => exact name
    | ok ty =>
      simp only [Option.getD_none]
      split
      · exact marked
      · exact name
  · cases parsed : TypeSyntax.parse m.typeName with
    | error fault =>
      have unknown : (m.declare o leaf).type = .unknown := by
        unfold declare
        rw [parsed]
        rfl
      rw [unknown]
      trivial
    | ok ty =>
      rw [type_declare parsed]
      exact TypeSyntax.lined_wrap lined

namespace Host.TypeDecl
variable {t u : TypeDecl}

/-- The names in a declaration lie on one line each. -/
structure Lined (t : TypeDecl) : Prop where
  name : OneLine t.name
  space : OneLine t.space
  members : ∀ m ∈ t.members, OneLine m.name

/-- Each initializer in an enum lies on one line. -/
inductive SingleLine : TypeDecl → Prop
  | intro {t : TypeDecl}
    (values : t.kind = .enumKind → ∀ m ∈ t.members, ∀ init,
      m.init = some init → OneLine init)
    (nested : ∀ u ∈ t.nested, SingleLine u) : SingleLine t

theorem SingleLine.values (h : t.SingleLine) (enum : t.kind = .enumKind) :
    ∀ m ∈ t.members, ∀ init, m.init = some init → OneLine init := by
  cases h with
  | intro values _ => exact values enum

theorem SingleLine.of_nested (h : t.SingleLine) (hu : u ∈ t.nested) : u.SingleLine := by
  cases h with
  | intro _ nested => exact nested u hu

theorem FromSource.lined {space : String} (inSpace : IsSpace space) (h : t.FromSource space) :
    t.Lined where
  name := h.word.oneLine
  space := by
    rw [h.space_eq]
    rcases inSpace with rfl | dotted
    · exact List.not_mem_nil
    · exact dotted.oneLine
  members := fun m hm => (h.member hm).oneLine

end Host.TypeDecl

namespace Index
variable {key : String} {e : Entry} {f : File}

theorem lined_placedIn {t : TypeDecl} {space : String} (outer : OneLine space) (lined : t.Lined) :
    (placedIn space t).Lined := by
  unfold placedIn
  split
  · exact ⟨lined.name, outer, lined.members⟩
  · exact ⟨lined.name, lined.space, lined.members⟩

theorem lined_of_mem_entriesOfList {container : Option String} {space : String}
    {file : Option Path} {ts : List TypeDecl} (outer : OneLine space)
    (source : ∀ t ∈ ts, ∃ space, IsSpace space ∧ t.FromSource space)
    (h : (key, e) ∈ entriesOfList container space file ts) : e.host.Lined := by
  refine entriesOfList_induction (motive := fun _ space ts => OneLine space →
    (∀ t ∈ ts, ∃ space, IsSpace space ∧ t.FromSource space) → e.host.Lined) ?here ?inside
      h outer source
  case here =>
    intro container space ts t ht own outer source
    obtain ⟨inner, inSpace, shape⟩ := source t ht
    rw [(Prod.mk.inj own).2]
    exact lined_placedIn outer (shape.lined inSpace)
  case inside =>
    intro container space ts t ht ih outer source
    obtain ⟨inner, inSpace, shape⟩ := source t ht
    exact ih (lined_placedIn outer (shape.lined inSpace)).space
      fun u hu => ⟨inner, inSpace, shape.of_nested hu⟩

theorem lined_of_mem_entriesOfFile (source : f.FromSource) (h : (key, e) ∈ entriesOfFile f) :
    e.host.Lined := by
  rcases List.mem_append.mp h with own | external
  · exact lined_of_mem_entriesOfList (by decide) source.types own
  · rw [source.external, entriesOfList] at external
    cases external

end Index

namespace Setting
variable {s : Setting} {sidecar : Sidecar} {site : Site} {written key : String} {e : Entry}
  {home : TypeHome}

theorem lookup?_of_expanding {done : List String} (h : s.sense done site written = .expanding e) :
    ∃ key, s.lookup? site written = some (key, e) := by
  unfold sense at h
  repeat' split at h
  all_goals simp_all

/-- What a translation reads lies on lines of its own. -/
structure Lined (s : Setting) (sidecar : Sidecar) : Prop where
  default : OneLine s.options.defaultModuleName
  known : ∀ site written key e, s.lookup? site written = some (key, e) → e.host.Lined
  homes : s.options.assumeExternalType = true → ∀ h ∈ sidecar.homes, OneLine h.typeName

/-- What sources declare is on lines of its own. -/
theorem lined_of_lookup? {file : File} {files : List File} {name : String} {root : Path}
    {o : Options} (own : file.FromSource) (project : ∀ f ∈ files, f.FromSource)
    (looked : (Setting.of file (.ofFiles name root files) o).lookup? site written = some (key, e)) :
    e.host.Lined := by
  rcases Option.or_eq_some_iff.mp looked with here | ⟨_, there⟩
  · have found := Index.get?_of_lookup? here
    exact Index.lined_of_mem_entriesOfFile own
      (Index.mem_of_first? ((Index.get?_ofFile file key).symm.trans found))
  · have found := Index.get?_of_lookup? there
    obtain ⟨f, hf, member⟩ := List.mem_flatMap.mp
      (Index.mem_of_first? ((Index.get?_ofFiles files key).symm.trans found))
    exact Index.lined_of_mem_entriesOfFile (project f hf) member

namespace Lined

theorem moduleName (lined : s.Lined sidecar) {space : String} (h : OneLine space) :
    OneLine (s.moduleName space) := by
  unfold Setting.moduleName
  split
  · exact lined.default
  · exact h

theorem displayName (lined : s.Lined sidecar) {space name : String} (hs : OneLine space)
    (hn : OneLine name) : OneLine (s.displayName site space name) := by
  have dot : OneLine "." := by decide
  unfold Setting.displayName
  simp only
  split
  · exact ((lined.moduleName hs).append dot).append (Options.oneLine_typeName hn)
  · exact Options.oneLine_typeName hn

theorem recorded (lined : s.Lined sidecar) (assumes : s.options.assumeExternalType = true)
    (found : sidecar.findHome? written = some home) : OneLine home.typeName := by
  refine lined.homes assumes home ?_
  rcases Option.or_eq_some_iff.mp found with exact_ | ⟨_, close⟩
  · exact List.mem_of_find?_eq_some exact_
  · exact List.mem_of_find?_eq_some close

theorem assumed (lined : s.Lined sidecar) (assumes : s.options.assumeExternalType = true)
    (name : OneLine written) : (s.assumed sidecar site written).Lined s.options := by
  have parts := oneLine_splitQualified name
  unfold Setting.assumed
  simp only
  split
  · rename_i home found
    exact lined.displayName (oneLine_splitQualified (lined.recorded assumes found)).1 parts.2
  · have simple := @Options.oneLine_typeName s.options _ parts.2
    have dot : OneLine "." := by decide
    split
    · exact simple
    · exact (parts.1.append dot).append simple

/-- The type that a name stands for. -/
theorem typeOf (lined : s.Lined sidecar) (done : List String) (site : Site) (written : String)
    (name : OneLine written) : (s.typeOf sidecar done site written).Lined s.options := by
  fun_induction Setting.typeOf s sidecar done site written with
  | case1 done site written h assumes => exact lined.assumed assumes name
  | case2 => trivial
  | case3 => trivial
  | case4 done site written key e h =>
    have host := lined.known _ _ _ _ (lookup?_of_declared h).1
    exact lined.displayName host.space host.name
  | case5 => exact (by decide : OneLine "number")
  | case6 done site written e h =>
    obtain ⟨key, looked⟩ := lookup?_of_expanding h
    exact Options.oneLine_typeName (lined.known _ _ _ _ looked).name
  | case7 done site written key e h _ inner ih =>
    have host := lined.known _ _ _ _ (lookup?_of_inlined h).1
    refine TypeRef.linedIn_iff.mpr fun d hd => ?_
    obtain ⟨m, hm, rfl⟩ := List.mem_map.mp hd
    refine Host.Member.lined_declare (host.members m (List.mem_filter.mp hm).1) ?_
    cases subject : m.subject? with
    | none => trivial
    | some name => exact ih name (Host.Member.oneLine_of_subject? subject)

theorem classMembers (lined : s.Lined sidecar) {t : TypeDecl} (own : t.Lined) :
    TypeRef.LinedIn s.options (s.classMembers sidecar t) := by
  refine TypeRef.linedIn_iff.mpr fun d hd => ?_
  obtain ⟨m, hm, rfl⟩ := List.mem_map.mp hd
  refine Host.Member.lined_declare (own.members m (List.mem_filter.mp hm).1) ?_
  cases subject : m.subject? with
  | none => trivial
  | some name => exact lined.typeOf _ _ _ (Host.Member.oneLine_of_subject? subject)

end Lined

/-- What a search for a base finds by its home is recorded in the sidecar. -/
theorem findHome?_of_searchBase (visited : List String) (work : List (Site × String))
    (h : s.searchBase sidecar visited work = some (.known home)) :
    s.options.assumeExternalType = true ∧ ∃ written, sidecar.findHome? written = some home := by
  induction visited, work using @searchBase_induction s sidecar with
  | nil visited => simp [searchBase] at h
  | passed visited site written work sense ih =>
    rw [searchBase_cons] at h
    simp only [sense] at h
    exact ih h
  | declared visited site written work key e sense =>
    rw [searchBase_cons] at h
    simp [sense] at h
  | known visited site written work home' sense =>
    rw [searchBase_cons] at h
    simp only [sense, Option.some.injEq, FoundBase.known.injEq] at h
    subst h
    unfold baseSense at sense
    repeat' split at sense
    all_goals simp_all
    exact ⟨_, ‹_›⟩
  | opened visited site written work key e sense ih =>
    rw [searchBase_cons] at h
    simp only [sense] at h
    exact ih h

theorem Lined.baseName (lined : s.Lined sidecar) {t : TypeDecl} {v : FoundBase}
    (found : s.baseFound sidecar t = some v) :
    OneLine (s.baseName v).space ∧ OneLine (s.baseName v).name := by
  cases v with
  | declared key e =>
    obtain ⟨site, name, looked, -⟩ := lookup?_of_searchBase _ _ found
    have host := lined.known _ _ _ _ looked
    exact ⟨lined.moduleName host.space, host.name⟩
  | known home =>
    obtain ⟨assumes, written, found⟩ := findHome?_of_searchBase _ _ found
    have parts := oneLine_splitQualified (lined.recorded assumes found)
    simp only [Setting.baseName]
    exact ⟨lined.moduleName parts.1, parts.2⟩

theorem Lined.classObject (lined : s.Lined sidecar) {t : TypeDecl} (own : t.Lined) :
    (s.classObject sidecar t).Lined s.options where
  name := own.name
  space := lined.moduleName own.space
  base := by
    intro b hb
    obtain ⟨v, found, rfl⟩ := Option.map_eq_some_iff.mp hb
    exact lined.baseName found
  members := fun _ => lined.classMembers own
  values := fun no => by cases no

theorem Lined.enumeration (lined : s.Lined sidecar) {t : TypeDecl} {space : String}
    (outer : OneLine space) (own : t.Lined)
    (values : ∀ m ∈ t.members, ∀ init, m.init = some init → OneLine init) :
    (s.enumeration t space).Lined s.options where
  name := own.name
  space := lined.moduleName outer
  base := fun b hb => by cases hb
  members := fun no => by cases no
  values := by
    intro _ d hd
    obtain ⟨m, hm, rfl⟩ := List.mem_map.mp hd
    have member := (List.mem_filter.mp hm).1
    exact ⟨own.members m member, values m member⟩

theorem Lined.nestedEnumsIn (lined : s.Lined sidecar) {space : String} {ts : List TypeDecl}
    (outer : OneLine space) (source : ∀ t ∈ ts, ∃ space, IsSpace space ∧ t.FromSource space)
    (single : ∀ t ∈ ts, t.SingleLine) :
    ∀ d ∈ s.nestedEnumsIn space ts, d.Lined s.options := by
  intro d hd
  rw [nestedEnumsIn_eq] at hd
  obtain ⟨t, ht, declared⟩ := List.mem_flatMap.mp hd
  obtain ⟨own, inSpace, shape⟩ := source t ht
  have here := Index.lined_placedIn outer (shape.lined inSpace)
  rw [nestedEnums_eq] at declared
  split at declared
  · rename_i enum
    rw [List.mem_singleton.mp declared]
    exact lined.enumeration here.space (shape.lined inSpace) ((single t ht).values enum)
  · exact lined.nestedEnumsIn here.space (fun u hu => ⟨own, inSpace, shape.of_nested hu⟩)
      (fun u hu => (single t ht).of_nested hu) d declared
  · cases declared
termination_by sizeOf ts
decreasing_by
  have := List.sizeOf_lt_of_mem ht
  cases t
  simp only [TypeDecl.mk.sizeOf_spec] at *
  omega

/-- Everything that is declared for a source lies on lines of its own. -/
theorem lined_translate {sidecar : Sidecar}
    (alone : s.options.assumeExternalType = true → s.Alone)
    (lined : s.Lined sidecar) (source : s.file.FromSource)
    (single : ∀ t ∈ s.file.types, t.SingleLine) :
    ∀ d ∈ (s.translate sidecar).1, d.Lined s.options := by
  have start : s.Lined (s.startingSidecar sidecar) := by
    refine ⟨lined.default, lined.known, fun assumes => ?_⟩
    have same : s.startingSidecar sidecar = sidecar := if_pos assumes
    rw [same]
    exact lined.homes assumes
  intro d hd
  rw [translate_eq sidecar alone] at hd
  obtain ⟨t, ht, declared⟩ := List.mem_flatMap.mp (mem_of_mem_eraseDupsBy hd)
  obtain ⟨space, inSpace, shape⟩ := source.types t ht
  have own := shape.lined inSpace
  unfold objectsOf at declared
  split at declared
  · cases declared
  · rename_i enum
    rw [List.mem_singleton.mp declared]
    exact start.enumeration own.space own ((single t ht).values enum)
  · rcases List.mem_cons.mp declared with rfl | nested
    · exact start.classObject own
    · exact start.nestedEnumsIn own.space (fun u hu => ⟨space, inSpace, shape.of_nested hu⟩)
        (fun u hu => (single t ht).of_nested hu) d nested

end Setting

end Ambient
