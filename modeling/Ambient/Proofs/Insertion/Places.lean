import Ambient.Proofs.Insertion.Beyond

/-!
# From the whole source to a place inside

A reader of a source comes to every body in it by steps: behind a portion of the body it stands in,
or into the body of a type or a namespace. If two sources differ at one place only, and are read
alike from there on, every step towards the place is read alike, and with it the whole source.
-/
namespace Ambient.Host
variable {O : Overlap} {p : Pairing} {src : List Char} {typeName space : String} {braced : Bool}
  {stage stage' : Stage} {ts us mid inside rest : List Item}

/-- The stage in the body of a type, unless it is an enum. -/
def Header.stage? (header : Header) (space : String) : Option Stage :=
  match header.kind with
  | .classKind => some (.members header.name space)
  | .interfaceKind => some (.hidden 0)
  | .enumKind => none

/-- A type starts here, and this is the inside of its body. -/
inductive Enters (src : List Char) (space : String) : List Item → Stage → List Item → Prop
  | mk {ts inside : List Item} {header : Header} {brace : Item} {stage : Stage} :
    Takes (readHeader src ts) header (brace :: inside) → brace.token = .mark .openBrace →
    header.stage? space = some stage → Enters src space ts stage inside

/-- A reader at some stage in front of the items that are left. -/
structure Place where
  stage : Stage
  items : List Item

/-- One step of a reader behind what stands first, or into a body. -/
inductive Goes (src : List Char) : Place → Place → Prop
  | member {typeName space : String} {ts rest : List Item} {change : Body → Body} :
    Extends src typeName space ts change rest →
    Goes src ⟨.members typeName space, ts⟩ ⟨.members typeName space, rest⟩
  | nested {typeName space : String} {stage : Stage} {ts start inside : List Item} {lead : Lead}
    {modifiers : Modifiers} : Opens src ts lead modifiers start →
    startsNestedType start = true → Enters src space start stage inside →
    Goes src ⟨.members typeName space, ts⟩ ⟨stage, inside⟩
  | part {space : String} {braced : Bool} {ts rest : List Item} {parts : List Part} :
    Adds src space ts parts rest →
      Goes src ⟨.parts space braced, ts⟩ ⟨.parts space braced, rest⟩
  | onward {space name : String} {braced : Bool} {t : Item} {r after : List Item} :
    t.token = .keyword .namespaceKw → Takes (readQualifiedName r) name after →
    Item.isMark .semicolon after = true →
    Goes src ⟨.parts space braced, t :: r⟩ ⟨.parts (qualify space name) braced, after.tail⟩
  | inner {space name : String} {braced : Bool} {t brace : Item} {r inside : List Item} :
    t.token = .keyword .namespaceKw → Takes (readQualifiedName r) name (brace :: inside) →
    brace.token = .mark .openBrace →
    Goes src ⟨.parts space braced, t :: r⟩ ⟨.parts (qualify space name) true, inside⟩
  | declared {space : String} {braced : Bool} {stage : Stage} {ts start inside : List Item}
    {lead : Lead}
    {modifiers : Modifiers} : StartsDeclaration ts → Opens src ts lead modifiers start →
    Item.isKeyword .delegateKw start = false → Enters src space start stage inside →
    Goes src ⟨.parts space braced, ts⟩ ⟨stage, inside⟩
  | hidden {inner inner' : Nat} {t : Item} {r : List Item} :
    (∀ us, Skip.group .openBrace .closeBrace inner (t :: us) =
      Skip.group .openBrace .closeBrace inner' us) →
        Goes src ⟨.hidden inner, t :: r⟩ ⟨.hidden inner', r⟩

/-- A type of which nothing but the name stands between its keyword and its body
starts a declaration. -/
theorem opens_plain (kind : Kind) {name : String} {keyword named brace : Item} (inside : List Item)
    (declares : keyword.token = .keyword kind.keyword) (spelled : named.token = .ident name)
    (opens : brace.token = .mark .openBrace) :
    StartsDeclaration (keyword :: named :: brace :: inside) ∧
      (∃ lead modifiers, Opens src (keyword :: named :: brace :: inside) lead modifiers
        (keyword :: named :: brace :: inside)) ∧
      Item.isKeyword .delegateKw (keyword :: named :: brace :: inside) = false ∧
      Takes (readHeader src (keyword :: named :: brace :: inside)) ⟨kind, name, [], []⟩
        (brace :: inside) := by
  have first : Item.token? (keyword :: named :: brace :: inside) = some (.keyword kind.keyword) :=
    congrArg some declares
  have behind : Item.token? (brace :: inside) = some (.mark .openBrace) := congrArg some opens
  have starts : StartsDeclaration (keyword :: named :: brace :: inside) := by
    refine ⟨?_, ?_, ?_⟩ <;> cases kind <;>
      simp [isGlobalUsing, isGlobalAttribute, Item.isMark, first, Kind.keyword]
  have bases : Passes (readBaseList src (brace :: inside)) [] (brace :: inside) := by
    rw [readBaseList, if_neg (by simp [opens])]
    exact ⟨_, rfl⟩
  have header : Takes (readHeader src (keyword :: named :: brace :: inside)) _ (brace :: inside) :=
    takes_readHeader_on (takes_readKind declares) (takes_readName rfl spelled)
      (if_neg (by simp [Item.isMark, behind]))
      (passes_readParameterList_keep (by simp [Item.isMark, behind])) bases
      (if_neg (by simp [Item.isKeyword, behind]))
  rw [ite_self] at header
  have lead : Passes (readLead src (keyword :: named :: brace :: inside)) _ _ :=
    passes_readLead_of (passes_readAttributeLists_keep (by simp [Item.isMark, first])) rfl id
  have unmodified : Modifiers.absent.add? kind.keyword = none := by cases kind <;> rfl
  have front : Opens src (keyword :: named :: brace :: inside) _ _ _ :=
    ⟨by simp [Item.isMark, first], by simp [Item.isMark, first], _, lead,
      leaves_readModifiers_other declares unmodified⟩
  have other : kind.keyword ≠ .delegateKw := by cases kind <;> decide
  exact ⟨starts, ⟨_, _, front⟩, by simp [Item.isKeyword, first, other], header⟩

/-- A plain class is gone into at its name. -/
theorem goes_class {name : String} {keyword named brace : Item} (inside : List Item)
    (declares : keyword.token = .keyword .classKw) (spelled : named.token = .ident name)
    (opens : brace.token = .mark .openBrace) :
    Goes src ⟨.parts space braced, keyword :: named :: brace :: inside⟩
      ⟨.members name space, inside⟩ := by
  obtain ⟨starts, ⟨_, _, front⟩, other, header⟩ :=
    opens_plain .classKind inside declares spelled opens
  exact .declared starts front other (.mk header opens rfl)

theorem Takes.unique {α : Type} {read : Read (Step α ts)} {a b : α} {rest' : List Item}
    (h : Takes read a rest) (h' : Takes read b rest') : a = b ∧ rest = rest' := by
  obtain ⟨_, rfl⟩ := h
  obtain ⟨_, same⟩ := h'
  cases same
  exact ⟨rfl, rfl⟩

theorem Opens.unique {lead lead' : Lead} {modifiers modifiers' : Modifiers}
    {start start' : List Item}
    (h : Opens src ts lead modifiers start) (h' : Opens src ts lead' modifiers' start') :
    lead = lead' ∧ modifiers = modifiers' ∧ start = start' := by
  obtain ⟨-, -, afterLead, ⟨_, front⟩, _, modified⟩ := h
  obtain ⟨-, -, afterLead', ⟨_, front'⟩, _, modified'⟩ := h'
  cases front.symm.trans front'
  cases modified.symm.trans modified'
  exact ⟨rfl, rfl, rfl⟩

/-- A type in the body of a class is read, and then the body behind it. -/
theorem exists_nested {lead : Lead} {modifiers : Modifiers} {start : List Item} {body : Body}
    (opens : Opens src ts lead modifiers start) (nests : startsNestedType start = true)
    (h : Takes (readClassBody src typeName space ts) body rest) :
    ∃ decl more inner, Takes (readType src space lead start) decl more ∧
      Takes (readClassBody src typeName space more) inner rest ∧
      body = Body.addNested decl inner := by
  rcases exists_extends h with ⟨t, rfl, closes, -⟩ | ⟨_, more, inner, first, others, rfl⟩
  · simpa [Item.isMark, Item.token?, closes] using opens.inside
  cases first with
  | empty semicolon => simpa [Item.isMark, Item.token?, semicolon] using opens.nonempty
  | member other plain =>
    obtain ⟨rfl, rfl, rfl⟩ := opens.unique other
    cases plain.symm.trans nests
  | nested other _ read =>
    obtain ⟨rfl, rfl, rfl⟩ := opens.unique other
    exact ⟨_, more, inner, read, others, rfl⟩

/-- A member in the body of a class is read, and then the body behind it. -/
theorem exists_member {lead : Lead} {modifiers : Modifiers} {start : List Item} {body : Body}
    (opens : Opens src ts lead modifiers start) (plain : startsNestedType start = false)
    (h : Takes (readClassBody src typeName space ts) body rest) :
    ∃ members more inner, Takes (readMember src typeName lead modifiers start) members more ∧
      Takes (readClassBody src typeName space more) inner rest ∧
      body = Body.addMembers members inner := by
  rcases exists_extends h with ⟨t, rfl, closes, -⟩ | ⟨_, more, inner, first, others, rfl⟩
  · simpa [Item.isMark, Item.token?, closes] using opens.inside
  cases first with
  | empty semicolon => simpa [Item.isMark, Item.token?, semicolon] using opens.nonempty
  | member other _ read =>
    obtain ⟨rfl, rfl, rfl⟩ := opens.unique other
    exact ⟨_, more, inner, read, others, rfl⟩
  | nested other nests =>
    obtain ⟨rfl, rfl, rfl⟩ := opens.unique other
    cases plain.symm.trans nests

/-- A type in the body of a namespace is read, and then the body behind it. -/
theorem exists_type {lead : Lead} {modifiers : Modifiers} {start : List Item} {value : List Part}
    (starts : StartsDeclaration ts) (opens : Opens src ts lead modifiers start)
    (other : Item.isKeyword .delegateKw start = false) (nonempty : ts ≠ [])
    (h : Passes (readNamespaceBody src space braced ts) value rest) :
    ∃ decl more parts, Takes (readType src space lead start) decl more ∧
      Passes (readNamespaceBody src space braced more) parts rest ∧
      value = .declared decl :: parts := by
  obtain ⟨_, more, parts, top, others, rfl⟩ := exists_declared starts nonempty h
  obtain ⟨_, _, _, again, declares⟩ := exists_declares top
  obtain ⟨rfl, rfl, rfl⟩ := opens.unique again
  cases declares with
  | delegate delegates => simp [Item.isKeyword, Item.token?, delegates] at other
  | type _ read => exact ⟨_, more, parts, read, others, rfl⟩

/-- A header is a keyword and a name at least. -/
theorem length_of_readHeader {header : Header} (h : Takes (readHeader src ts) header rest) :
    rest.length + 2 ≤ ts.length := by
  obtain ⟨_, h⟩ := h
  rw [readHeader] at h
  split at h
  · cases h
  rename_i kind afterKind keyword _
  split at h
  · cases h
  rename_i name afterName named _
  dsimp only at h
  split at h
  · cases h
  rename_i parameters afterParameters listed _
  obtain ⟨⟨bases, afterBases, based⟩, _, same⟩ := map_eq_ok h
  have grouped := (passGroup .openAngle .closeAngle afterName).short
  have constrained := (passConstraints afterBases).short
  cases same
  have := keyword.1
  have := named.1
  have := grouped.1
  have := listed.1
  have := based.1
  have := constrained.1
  show (passConstraints afterBases).rest.length + 2 ≤ ts.length
  omega

theorem Enters.length_le (h : Enters src space ts stage inside) :
    inside.length + 3 ≤ ts.length := by
  cases h with
  | mk head =>
    have := length_of_readHeader head
    rw [List.length_cons] at this
    omega

theorem Enters.seals (h : Enters O.source space ts stage inside) :
    Seals O (fun ts' us => Mirrors O p stage inside us → ∀ lead decl rest,
      Takes (readType O.source space lead ts) decl rest → ∃ rest', p.At rest rest' ∧
        Takes (readType O.source' space lead ts') decl rest') ts inside := by
  cases h with
  | @mk _ header brace _ head opens staged =>
    have ends : EndsHeader (brace :: inside) := .inl (by simp [Item.isMark, Item.token?, opens])
    refine ((keeps_readsHeader head ends).seals
      (Seals.first (opens ▸ Token.isQuiet_mark _) inside)).imp ?_
    rintro ts' us ⟨_, head', rfl⟩ mirrors lead decl rest type
    obtain ⟨header', after, body, again, completes, rfl⟩ := exists_completes type
    obtain ⟨rfl, rfl⟩ := Takes.unique head again
    cases completes with
    | semicolon semicolon => cases opens.symm.trans semicolon
    | @body _ _ behind _ _ read =>
      have inside' : ∃ behind', p.At behind behind' ∧
          ReadsBody O.source' header.name space header.kind us body behind' := by
        unfold Header.stage? at staged
        generalize header.kind = kind at read staged ⊢
        cases read with
        | classBody read =>
          cases staged
          obtain ⟨behind', there, read⟩ := mirrors _ _ read
          exact ⟨behind', there, .classBody read⟩
        | enumBody => cases staged
        | interfaceBody passed =>
          cases staged
          subst passed
          exact ⟨_, mirrors, .interfaceBody rfl⟩
      obtain ⟨behind', there, read⟩ := inside'
      exact ⟨_, Pairing.at_dropMark there .semicolon,
        (Completes.body opens read).takes_readType head'⟩

/-- At a place the two sources are read alike from there on, and no reader that comes to it sees
that they differ. -/
structure Gate (O : Overlap) (p : Pairing) (stage : Stage) (ts us : List Item) : Prop where
  apart : Apart ts us
  mirrors : Mirrors O p stage ts us
  closing : Item.isMark .closeBrace ts = true → Mirrors O p stage ts (Skip.wholeMember us)
  beside : ∀ space braced, stage = .parts space braced → Beside ts us

theorem beside_of_length {taken : List Item} (long : 3 ≤ taken.length) (r r' : List Item) :
    Beside (taken ++ r) (taken ++ r') := by
  match taken, long with
  | a :: b :: c :: more, _ => exact .mk a b c _ _

/-- Behind an item that stands in both sources only the reading matters. -/
theorem Gate.behind {taken : List Item} (nonempty : taken ≠ [])
    (mirrors : Mirrors O p stage (taken ++ mid) (taken ++ us))
    (beside : ∀ space braced, stage = .parts space braced →
      Beside (taken ++ mid) (taken ++ us)) :
    Gate O p stage (taken ++ mid) (taken ++ us) := by
  obtain ⟨t, more, rfl⟩ := List.exists_cons_of_ne_nil nonempty
  refine ⟨fun _ _ => id, mirrors, fun brace => ?_, beside⟩
  rw [wholeMember_closeBrace (show Item.isMark .closeBrace (t :: more ++ us) = true from brace)]
  exact mirrors

theorem Extends.mirrors {change : Body → Body} {us' : List Item}
    (h : Extends O.source typeName space ts change mid)
    (h' : Extends O.source' typeName space us change us')
    (mirrors : Mirrors O p (.members typeName space) mid us') :
    Mirrors O p (.members typeName space) ts us := by
  intro body rest read
  rw [takes_iff, h.outcome_eq] at read
  obtain ⟨⟨inner, rest⟩, others, same⟩ := map_eq_ok read
  cases same
  obtain ⟨rest', there, read'⟩ := mirrors inner rest (takes_iff.mpr others)
  refine ⟨rest', there, ?_⟩
  rw [takes_iff] at read' ⊢
  rw [h'.outcome_eq, read']
  rfl

theorem Adds.mirrors {parts : List Part} {us' : List Item} (h : Adds O.source space ts parts mid)
    (h' : Adds O.source' space us parts us') (mirrors : Mirrors O p (.parts space braced) mid us') :
    Mirrors O p (.parts space braced) ts us := by
  intro value rest read
  obtain ⟨more, others, rfl⟩ := h.passes_iff.mp read
  obtain ⟨rest', there, read'⟩ := mirrors more rest others
  exact ⟨rest', there, h'.passes_iff.mpr ⟨more, read', rfl⟩⟩

/-- The type in the body of a class is read alike, and the body behind it. -/
theorem mirrors_nested (carries : p.Carries O.spelling) {lead : Lead} {modifiers : Modifiers}
    {start us start' : List Item} (opens : Opens O.source ts lead modifiers start)
    (nests : startsNestedType start = true) (opens' : Opens O.source' us lead modifiers start')
    (nests' : startsNestedType start' = true)
    (type : ∀ decl rest, Takes (readType O.source space lead start) decl rest →
      ∃ rest', p.At rest rest' ∧ Takes (readType O.source' space lead start') decl rest') :
    Mirrors O p (.members typeName space) ts us := by
  intro body rest read
  obtain ⟨_, more, inner, nested, others, rfl⟩ := exists_nested opens nests read
  obtain ⟨more', there, read'⟩ := type _ _ nested
  have behind : Extends O.source' typeName space us _ more' := .nested opens' nests' read'
  obtain ⟨rest', at', others'⟩ :=
    mirrors_of_at carries there (.members typeName space) _ _ others
  refine ⟨rest', at', ?_⟩
  rw [takes_iff] at others' ⊢
  rw [behind.outcome_eq, others']
  rfl

/-- The type in the body of a namespace is read alike, and the body behind it. -/
theorem mirrors_declared (carries : p.Carries O.spelling) {lead : Lead} {modifiers : Modifiers}
    {start us start' : List Item} (starts : StartsDeclaration ts)
    (opens : Opens O.source ts lead modifiers start)
    (other : Item.isKeyword .delegateKw start = false) (starts' : StartsDeclaration us)
    (opens' : Opens O.source' us lead modifiers start')
    (other' : Item.isKeyword .delegateKw start' = false) (nonempty : ts ≠ [])
    (type : ∀ decl rest, Takes (readType O.source space lead start) decl rest →
      ∃ rest', p.At rest rest' ∧ Takes (readType O.source' space lead start') decl rest') :
    Mirrors O p (.parts space braced) ts us := by
  intro value rest read
  obtain ⟨_, behind, more, declared, others, rfl⟩ :=
    exists_type starts opens other nonempty read
  obtain ⟨behind', there, read'⟩ := type _ _ declared
  obtain ⟨_, front, modified⟩ := opens'.front
  have top' := takes_readTopLevel_declares front modified (.type other' read')
  obtain ⟨rest', at', others'⟩ := mirrors_of_at carries there (.parts space braced) _ _ others
  exact ⟨rest', at', (Adds.declared starts' top').passes_iff.mpr ⟨_, others', rfl⟩⟩

/-- Read alike from `mid` on, and so from `ts` on, where the items in front of `mid` stand
in both sources. -/
def Opened (O : Overlap) (p : Pairing) (stage : Stage) (ts : List Item) (stage' : Stage)
    (mid : List Item) : Prop :=
  ∃ taken, ts = taken ++ mid ∧
    ((∀ i ∈ taken, O.shared i) → ∀ us, Gate O p stage' mid us →
    Gate O p stage ts (taken ++ us))

theorem opened_of_seals
    (h : Seals O (fun ts' us => Mirrors O p stage' mid us → Mirrors O p stage ts ts') ts mid)
    (long : ∀ space braced, stage = .parts space braced → mid.length + 3 ≤ ts.length) :
    Opened O p stage ts stage' mid := by
  obtain ⟨taken, rfl, firm, again⟩ := h
  refine ⟨taken, rfl, fun shared us gate =>
    .behind firm.ne_nil (again shared us gate.mirrors) ?_⟩
  intro space braced parts
  have := long space braced parts
  rw [List.length_append] at this
  exact beside_of_length (by omega) mid us

theorem opened_member {change : Body → Body}
    (h : Extends O.source typeName space ts change rest) :
    Opened O p (.members typeName space) ts (.members typeName space) rest := by
  by_cases none : rest = []
  · subst none
    have nonempty : ts ≠ [] := List.ne_nil_of_length_pos h.shorter
    have whole : ts = ts ++ [] := (List.append_nil ts).symm
    refine ⟨ts, whole, fun _ us _ => ?_⟩
    rw [whole, List.append_assoc]
    refine .behind nonempty ?_ (by simp)
    intro body rest read
    rw [List.append_nil, takes_iff, h.outcome_eq, readClassBody] at read
    cases read
  · obtain ⟨taken, rfl, firm, again⟩ := stops_extends h none
    refine ⟨taken, rfl, fun shared us gate => .behind firm.ne_nil ?_ (by simp)⟩
    rcases again shared with closed | ⟨brace, opened⟩
    · exact h.mirrors (closed us gate.apart) gate.mirrors
    · exact h.mirrors (opened us) (gate.closing brace)

theorem opened_part {parts : List Part} (h : Adds O.source space ts parts rest) :
    Opened O p (.parts space braced) ts (.parts space braced) rest := by
  have shorter := h.shorter
  obtain ⟨taken, rfl, again⟩ := follows_adds h
  have nonempty : taken ≠ [] := by
    rintro rfl
    exact Nat.lt_irrefl _ shorter
  refine ⟨taken, rfl, fun shared us gate => .behind nonempty ?_ ?_⟩
  · exact h.mirrors (again shared us (gate.beside _ _ rfl)) gate.mirrors
  · exact fun _ _ _ => (gate.beside _ _ rfl).append taken

theorem Seals.beside {P : List Item → List Item → Prop} (h : Seals O P ts rest)
    (long : rest.length + 3 ≤ ts.length) :
    Seals O (fun us rest => Beside ts us ∧ P us rest) ts rest := by
  obtain ⟨taken, rfl, firm, again⟩ := h
  rw [List.length_append] at long
  exact ⟨taken, rfl, firm,
    fun shared us => ⟨beside_of_length (by omega) rest us, again shared us⟩⟩

/-- What leads into a type stands in both sources, and the type is read alike if its inside is. -/
theorem seals_opens {lead : Lead} {modifiers : Modifiers} {start : List Item}
    (opens : Opens O.source ts lead modifiers start)
    (enters : Enters O.source space start stage inside) :
    Seals O (fun ts' us => Beside ts ts' ∧ ∃ start',
      Opens O.source' ts' lead modifiers start' ∧
      Near start start' ∧ (Mirrors O p stage inside us → ∀ decl rest,
        Takes (readType O.source space lead start) decl rest → ∃ rest', p.At rest rest' ∧
          Takes (readType O.source' space lead start') decl rest')) ts inside := by
  have long : inside.length + 3 ≤ ts.length := Nat.le_trans enters.length_le opens.shorter
  have behind := Seals.near (enters.seals (p := p))
  refine (Seals.beside ((keeps_opens opens).seals behind) long).imp ?_
  rintro ts' us ⟨beside, start', opens', near, type⟩
  exact ⟨beside, start', opens', near, fun mirrors => type mirrors lead⟩

/-- A step of the reader of the one source is one of the reader of the other. -/
theorem opened_of_goes (carries : p.Carries O.spelling) {a b : Place} (h : Goes O.source a b) :
    Opened O p a.stage a.items b.stage b.items := by
  cases h with
  | member first => exact opened_member first
  | nested opens nests enters =>
    refine opened_of_seals ((seals_opens (p := p) opens enters).imp ?_) (by simp)
    rintro ts' us ⟨-, start', opens', near, type⟩ mirrors
    exact mirrors_nested carries opens nests opens' ((startsNestedType_near near).trans nests)
      (type mirrors)
  | part adds => exact opened_part adds
  | @onward space name braced t r after keyword named ends =>
    obtain ⟨taken, spelled⟩ := named
    have head := ((Keeps.first (O := O) t r).trans (keeps_readQualifiedName spelled)).seals
      (seals_tail ends)
    refine opened_of_seals (head.imp ?_) fun _ _ _ => ?_
    · rintro _ us ⟨_, ⟨_, rfl, named'⟩, ends', rfl⟩ mirrors value rest read
      rw [passes_scoped_iff keyword ⟨_, spelled⟩ ends] at read
      obtain ⟨rest', there, read'⟩ := mirrors value rest read
      exact ⟨rest', there, (passes_scoped_iff keyword named' ends').mpr read'⟩
    · have := taken.1
      have := List.length_pos_of_ne_nil (Seals.ne_nil (seals_tail (O := O) ends))
      rw [List.length_tail, List.length_cons]
      omega
  | @inner space name braced t brace r inside keyword named opens =>
    obtain ⟨taken, spelled⟩ := named
    have head := ((Keeps.first (O := O) t r).trans (keeps_readQualifiedName spelled)).seals
      (Seals.first (opens ▸ Token.isQuiet_mark _) inside)
    refine opened_of_seals (head.imp ?_) fun _ _ _ => ?_
    · rintro _ us ⟨_, ⟨_, rfl, named'⟩, rfl⟩ mirrors value rest read
      obtain ⟨inner, behind, more, body, others, rfl⟩ :=
        exists_inner keyword ⟨_, spelled⟩ opens read
      obtain ⟨behind', there, body'⟩ := mirrors inner behind body
      obtain ⟨rest', at', others'⟩ :=
        mirrors_of_at carries there (.parts space braced) _ _ others
      have adds : Adds O.source' space (t :: _) inner behind' := .inner keyword named' opens body'
      exact ⟨rest', at', adds.passes_iff.mpr ⟨_, others', rfl⟩⟩
    · have := taken.1
      simp only [List.length_cons] at *
      omega
  | @declared space braced stage ts start inside lead modifiers starts opens other enters =>
    have long : inside.length + 3 ≤ ts.length := Nat.le_trans enters.length_le opens.shorter
    have nonempty : ts ≠ [] := List.ne_nil_of_length_pos (by omega)
    refine opened_of_seals ((seals_opens (p := p) opens enters).imp ?_) fun _ _ _ => long
    rintro ts' us ⟨beside, start', opens', near, type⟩ mirrors
    refine mirrors_declared carries starts opens other
      (beside.startsDeclaration starts) opens' ?_ nonempty (type mirrors)
    rwa [Item.isKeyword, near.token?]
  | @hidden inner inner' t r passes =>
    refine ⟨[t], rfl, fun _ us gate => .behind (List.cons_ne_nil t []) ?_ (by simp)⟩
    have mirrors := gate.mirrors
    simp only [Mirrors, List.singleton_append, passes] at mirrors ⊢
    exact mirrors

/-- All that a reader comes to from a place by steps. -/
def Reaches (src : List Char) : Place → Place → Prop := Relation.ReflTransGen (Goes src)

/-- If two sources are read alike from a place on, then they are so from every place before it. -/
theorem opened_of_reaches (carries : p.Carries O.spelling) {a b : Place}
    (h : Reaches O.source a b) :
    Opened O p a.stage a.items b.stage b.items := by
  induction h using Relation.ReflTransGen.head_induction_on with
  | refl => exact ⟨[], rfl, fun _ _ gate => gate⟩
  | head step _ ih =>
    obtain ⟨front, first, one⟩ := opened_of_goes carries step
    obtain ⟨taken, more, others⟩ := ih
    refine ⟨front ++ taken, by rw [first, more, List.append_assoc], fun shared us gate => ?_⟩
    rw [List.forall_mem_append] at shared
    rw [List.append_assoc]
    exact one shared.1 _ (others shared.2 us gate)

end Ambient.Host
