import Ambient.Proofs.Canonical.Members

/-!
# Declarations read back

The header of a declaration is read up to the opening brace. A class is read back once the types
nested in it are, so the argument goes by the nesting; along the types of one class it goes from
each to the next, as it does for members.
-/
namespace Ambient.Host
variable {src text : List Char} {docs : List String} {ts rest after : List Item}
  {typeName space name : String}

def Kind.keyword : Kind → Keyword
  | .classKind => .classKw
  | .interfaceKind => .interfaceKw
  | .enumKind => .enumKw

theorem takes_readKind {i : Item} {kind : Kind} (declares : i.token = .keyword kind.keyword) :
    Takes (readKind (i :: ts)) kind ts := by
  have found : declaredKind? i.token = some kind := by
    rw [declares]
    cases kind <;> rfl
  have single : ¬ (i.token = .keyword .recordKw ∧ isClassOrStruct (Item.token? ts) = true) := by
    rw [declares]
    cases kind <;> simp [Kind.keyword]
  rw [takes_iff, readKind]
  split
  · rename_i none
    cases found.symm.trans none
  · rename_i kind' same
    cases found.symm.trans same
    rw [if_neg single]
    rfl

theorem leaves_passGroup {opening closing : Mark} (h : skipGroupAt opening closing ts = rest) :
    Leaves (passGroup opening closing ts) () rest := by
  subst h
  exact ⟨_, rfl⟩

theorem leaves_passGroup_keep (opening closing : Mark) (h : Item.isMark opening ts = false) :
    Leaves (passGroup opening closing ts) () ts := by
  refine leaves_passGroup ?_
  rw [skipGroupAt, h]
  rfl

theorem passes_readParameterList_keep (h : Item.isMark .openParen ts = false) :
    Passes (readParameterList src ts) [] ts := by
  cases ts with
  | nil => exact ⟨_, rfl⟩
  | cons t r =>
    rw [readParameterList, if_neg (TypeSyntax.not_token h)]
    exact ⟨_, rfl⟩

theorem leaves_passConstraints (h : skipConstraints ts = rest) :
    Leaves (passConstraints ts) () rest := by
  subst h
  exact ⟨_, rfl⟩

theorem leaves_passConstraints_keep (h : Item.isKeyword .whereKw ts = false) :
    Leaves (passConstraints ts) () ts := by
  refine leaves_passConstraints ?_
  rw [skipConstraints, h]
  rfl

theorem takes_readBases_last {base : String} {brace : Item}
    (type : Takes (readWrittenType src ts) base (brace :: rest))
    (opens : brace.token = .mark .openBrace) : Takes (readBases src ts) [base] (brace :: rest) := by
  obtain ⟨_, type⟩ := type
  have none : Item.isMark .openParen (brace :: rest) = false :=
    TypeSyntax.isMark_of_mark opens (by decide)
  obtain ⟨_, group⟩ := leaves_passGroup_keep .openParen .closeParen none
  rw [takes_iff, readBases, type]
  simp only
  rw [group]
  simp only [opens]
  rfl

theorem takes_readBases_more {base : String} {bases : List String} {comma : Item}
    (type : Takes (readWrittenType src ts) base (comma :: rest))
    (separates : comma.token = .mark .comma) (others : Takes (readBases src rest) bases after) :
    Takes (readBases src ts) (base :: bases) after := by
  obtain ⟨_, type⟩ := type
  have none : Item.isMark .openParen (comma :: rest) = false :=
    TypeSyntax.isMark_of_mark separates (by decide)
  obtain ⟨_, group⟩ := leaves_passGroup_keep .openParen .closeParen none
  obtain ⟨_, again⟩ := others
  rw [takes_iff, readBases, type]
  simp only
  rw [group]
  simp only [separates, if_true, again]
  rfl

theorem leaves_readModifiers_kind {kind : Kind} {m : Modifiers}
    (declares : Item.token? ts = some (.keyword kind.keyword)) :
    Leaves (readModifiers m ts) m ts := by
  cases ts with
  | nil => cases declares
  | cons t r =>
    refine leaves_readModifiers_other (Option.some.inj declares) ?_
    cases kind <;> rfl

/-- The bases of a type are read up to the opening brace. -/
theorem takes_readBases : (bases : List String) → bases ≠ [] →
    (∀ base ∈ bases, IsTypeText base) →
    ∀ {docs : List String} {text : List Char} {ts : List Item},
    Laid src docs (printBases bases ++ text) ts →
      ∃ brace rest, brace.token = .mark .openBrace ∧ Laid src [] text rest ∧
        Takes (readBases src ts) bases (brace :: rest)
  | [], nonempty, _, _, _, _, _ => absurd rfl nonempty
  | [base], _, types, docs, text, ts, laid => by
    obtain ⟨ty, formed, rfl⟩ := types base List.mem_cons_self
    have chars : printBases [ty.display] ++ text = ty.display.toList ++ ' ' :: '\x7b' :: text := by
      simp [printBases]
    rw [chars] at laid
    obtain ⟨us, laid, -, type⟩ :=
      takes_readWrittenType formed laid (endsWord_cons (by decide) _)
    obtain ⟨brace, rest, rfl, opens, -, spans⟩ := laid.space.mark (by decide) fun _ => rfl
    have type := type (TypeSyntax.endsType_mark rest opens (by decide))
    exact ⟨brace, rest, opens, spans.laid, takes_readBases_last type opens⟩
  | base :: next :: others, _, types, docs, text, ts, laid => by
    obtain ⟨ty, formed, rfl⟩ := types base List.mem_cons_self
    have chars : printBases (ty.display :: next :: others) ++ text =
        ty.display.toList ++ ',' :: ' ' :: (printBases (next :: others) ++ text) := by
      simp [printBases]
    rw [chars] at laid
    obtain ⟨us, laid, -, type⟩ :=
      takes_readWrittenType formed laid (endsWord_cons (by decide) _)
    obtain ⟨comma, vs, rfl, separates, -, spans⟩ := laid.mark (by decide) fun _ => rfl
    have type := type (TypeSyntax.endsType_mark vs separates (by decide))
    obtain ⟨brace, rest, opens, laid, more⟩ := takes_readBases (next :: others) (by simp)
      (fun b hb => types b (List.mem_cons_of_mem _ hb)) spans.laid.space
    exact ⟨brace, rest, opens, laid, takes_readBases_more type separates more⟩

theorem passes_readBaseList {bases : List String} (types : ∀ base ∈ bases, IsTypeText base)
    (laid : Laid src [] (printBaseList bases ++ text) ts) :
    ∃ brace rest, brace.token = .mark .openBrace ∧ Laid src [] text rest ∧
      (∀ m ∉ [Mark.colon, .openBrace], Item.isMark m ts = false) ∧
      Passes (readBaseList src ts) bases (brace :: rest) := by
  cases bases with
  | nil =>
    obtain ⟨brace, rest, rfl, opens, -, spans⟩ := laid.space.mark (by decide) fun _ => rfl
    refine ⟨brace, rest, opens, spans.laid, ?_, ?_⟩
    · exact fun m other => TypeSyntax.isMark_of_mark opens fun same => other (by simp [← same])
    · rw [readBaseList, if_neg (by simp [opens])]
      exact ⟨_, rfl⟩
  | cons base others =>
    have chars : printBaseList (base :: others) ++ text =
        ' ' :: ':' :: ' ' :: (printBases (base :: others) ++ text) := by
      simp [printBaseList]
    rw [chars] at laid
    obtain ⟨colon, us, rfl, opens, -, spans⟩ := laid.space.mark (by decide) fun _ => rfl
    obtain ⟨brace, rest, braced, laid, _, read⟩ :=
      takes_readBases (base :: others) (by simp) types spans.laid.space
    refine ⟨brace, rest, braced, laid, ?_, ?_⟩
    · exact fun m other => TypeSyntax.isMark_of_mark opens fun same => other (by simp [← same])
    · rw [readBaseList, if_pos opens, read]
      exact ⟨_, rfl⟩

theorem takes_readHeader {kind : Kind} {bases : List String} (spelled : IsName name)
    (types : ∀ base ∈ bases, IsTypeText base)
    (laid : Laid src docs (kind.label.toList ++ ' ' ::
      (name.toList ++ (printBaseList bases ++ text))) ts) :
    ∃ brace rest, brace.token = .mark .openBrace ∧ Laid src [] text rest ∧
      Item.token? ts = some (.keyword kind.keyword) ∧
      Takes (readHeader src ts) ⟨kind, name, [], if kind = .enumKind then [] else bases⟩
        (brace :: rest) := by
  have label : kind.label = kind.keyword.spelling := by
    cases kind <;> rfl
  have ends : EndsWord (printBaseList bases ++ text) := by
    cases bases with
    | nil => exact endsWord_cons (by decide) _
    | cons base others => exact endsWord_cons (by decide) _
  rw [label] at laid
  obtain ⟨k, us, rfl, declares, -, laid⟩ := laid.keyword
  obtain ⟨i, vs, rfl, named, -, spans⟩ := laid.name spelled ends
  obtain ⟨brace, rest, opens, laid, apart, list⟩ := passes_readBaseList types spans.laid
  refine ⟨brace, rest, opens, laid, congrArg some declares, ?_⟩
  obtain ⟨_, kinded⟩ : Takes (readKind (k :: i :: vs)) kind (i :: vs) := takes_readKind declares
  obtain ⟨_, first⟩ : Takes (readName (i :: vs)) name vs := takes_readName rfl named
  obtain ⟨_, group⟩ := leaves_passGroup_keep .openAngle .closeAngle
    (apart .openAngle (by decide))
  obtain ⟨_, parameters⟩ : Passes (readParameterList src vs) [] vs :=
    passes_readParameterList_keep (apart .openParen (by decide))
  obtain ⟨_, list⟩ := list
  obtain ⟨_, constraints⟩ : Leaves (passConstraints (brace :: rest)) () (brace :: rest) :=
    leaves_passConstraints_keep (by simp [Item.isKeyword, Item.token?, opens])
  rw [takes_iff, readHeader, kinded]
  simp only [first]
  rw [group]
  simp only [parameters, list]
  show Except.ok (_, (passConstraints (brace :: rest)).rest) = _
  rw [constraints]
  rfl

namespace TypeDecl

/-- The text between the braces. -/
def printBody (t : TypeDecl) : List Char :=
  match t.kind with
  | .classKind => t.members.flatMap (·.printProperty) ++ printAll t.nested
  | .enumKind => t.members.flatMap (·.printValue)
  | .interfaceKind => []

/-- The text behind the word `public`. -/
def printCore (t : TypeDecl) : List Char :=
  t.kind.label.toList ++ ' ' :: (t.name.toList ++ (printBaseList t.bases ++
    '\n' :: (t.printBody ++ ['\x7d', '\n'])))

theorem print_eq (t : TypeDecl) :
    t.print = printLead t.summary t.attributes ++ ("public ".toList ++ t.printCore) := by
  obtain ⟨name, space, kind, bases, summary, members, nested, attributes⟩ := t
  rw [print.eq_def]
  cases kind <;> rfl

/-- From what stands behind the word `public`, the declaration is read back. -/
def IsReadBack (space : String) (t : TypeDecl) : Prop :=
  ∀ {src text : List Char} {docs : List String} {ts : List Item} {lead : Lead},
    Laid src docs (t.printCore ++ text) ts → Summary.ofDocs lead.docs = t.summary →
    lead.attributes = t.attributes →
    ∃ rest, Laid src [] text rest ∧ Item.token? ts = some (.keyword t.kind.keyword) ∧
      (Item.isMark .semicolon rest = false →
        Takes (readType src space lead ts) (t.kept space) rest)

end TypeDecl

theorem takes_readClassBody_close {t : Item} (closes : t.token = .mark .closeBrace) :
    Takes (readClassBody src typeName space (t :: rest)) .empty rest := by
  rw [takes_iff, readClassBody, if_pos closes]
  rfl

/-- A nested type goes to the types of the class, and the body is read on behind it. -/
theorem outcome_readClassBody_nested {lead : Lead} {modifiers : Modifiers}
    {afterLead start : List Item} {decl : TypeDecl} (inside : Item.isMark .closeBrace ts = false)
    (nonempty : Item.isMark .semicolon ts = false) (front : Passes (readLead src ts) lead afterLead)
    (modified : Leaves (readModifiers .absent afterLead) modifiers start)
    (nests : startsNestedType start = true)
    (type : Takes (readType src space lead start) decl rest) :
    outcome (readClassBody src typeName space ts) =
      (outcome (readClassBody src typeName space rest)).map
        (Prod.map (Body.addNested decl) id) := by
  obtain ⟨passed, front⟩ := front
  obtain ⟨passed', modified⟩ := modified
  obtain ⟨taken, type⟩ := type
  cases ts with
  | nil =>
    have none := passed.1
    have fewer := Nat.lt_of_lt_of_le taken.1 passed'.1
    rw [List.length_nil] at none
    omega
  | cons t r =>
    have other : t.token ≠ .mark .closeBrace ∧ t.token ≠ .mark .semicolon := by
      simpa [Item.isMark, Item.token?] using And.intro inside nonempty
    rw [readClassBody, if_neg other.1, if_neg other.2]
    simp only [front]
    generalize readModifiers .absent afterLead = left at modified ⊢
    subst modified
    simp only [nests, if_true, type]
    cases readClassBody src typeName space rest <;> rfl

/-- The types of a class are read one after another. -/
theorem readClassBody_nested (typeName : String) {nested : List TypeDecl}
    (leads : ∀ u ∈ nested, LeadWellFormed u.summary u.attributes)
    (reads : ∀ u ∈ nested, u.IsReadBack space) :
    ∀ {ts : List Item}, Laid src [] (TypeDecl.printAll nested ++ text) ts →
      ∃ rest, Laid src [] text rest ∧ (ts = rest ∨ OpensPublic ts) ∧
        (Item.isMark .semicolon rest = false →
          outcome (readClassBody src typeName space ts) =
            (outcome (readClassBody src typeName space rest)).map
              (Prod.map (fun body =>
                ⟨body.members, TypeDecl.keptAll space nested ++ body.nested⟩) id)) := by
  induction nested with
  | nil =>
    intro ts laid
    refine ⟨ts, laid, .inl rfl, fun _ => ?_⟩
    cases outcome (readClassBody src typeName space ts) <;> rfl
  | cons u others ih =>
    intro ts laid
    have chars : TypeDecl.printAll (u :: others) ++ text =
        printLead u.summary u.attributes ++ ("public ".toList ++
          (u.printCore ++ (TypeDecl.printAll others ++ text))) := by
      rw [TypeDecl.printAll, TypeDecl.print_eq]
      simp only [List.append_assoc]
    rw [chars] at laid
    obtain ⟨docs, us, laid, opens, lead, front, summarized, attributed⟩ :=
      passes_readLead (leads u List.mem_cons_self) fronts_publicly laid
    obtain ⟨p, vs, rfl, publicly, -, laid⟩ := Laid.publicly laid
    obtain ⟨ws, laid, keyword, type⟩ := reads u List.mem_cons_self laid summarized attributed
    obtain ⟨rest, laid, later, more⟩ := ih (fun v hv => leads v (List.mem_cons_of_mem u hv))
      (fun v hv => reads v (List.mem_cons_of_mem u hv)) laid
    have publicFirst := opensPublic_of_lead opens publicly
    refine ⟨rest, laid, .inr publicFirst, fun ends => ?_⟩
    have apart : Item.isMark .semicolon ws = false := by
      rcases later with rfl | later
      · exact ends
      · exact later.isMark (by decide)
    have modified : Leaves (readModifiers .absent (p :: vs)) _ vs :=
      leaves_readModifiers_public publicly (leaves_readModifiers_kind keyword)
    have nests : startsNestedType vs = true := by
      rw [startsNestedType, keyword]
      cases u.kind <;> rfl
    rw [outcome_readClassBody_nested (publicFirst.isMark (by decide))
      (publicFirst.isMark (by decide)) front modified nests (type apart), more ends]
    cases outcome (readClassBody src typeName space rest) <;> rfl

theorem dropMark_eq {m : Mark} (h : Item.isMark m ts = false) : dropMark m ts = ts := by
  rw [dropMark, h]
  rfl

/-- What is between the braces of a declaration is read as this body. -/
inductive ReadsBody (src : List Char) (name space : String) :
    Kind → List Item → Body → List Item → Prop
  | classBody {inside rest : List Item} {body : Body} :
    Takes (readClassBody src name space inside) body rest →
    ReadsBody src name space .classKind inside body rest
  | enumBody {inside rest : List Item} {values : List Member} :
    Takes (readEnumValues src inside) values rest →
    ReadsBody src name space .enumKind inside ⟨values, []⟩ rest
  | interfaceBody {inside rest : List Item} : Skip.braces inside = rest →
    ReadsBody src name space .interfaceKind inside .empty rest

/-- A semicolon behind the closing brace goes with the declaration. -/
theorem takes_readType_body {lead : Lead} {brace : Item} {inside : List Item} {header : Header}
    {body : Body} (head : Takes (readHeader src ts) header (brace :: inside))
    (opens : brace.token = .mark .openBrace)
    (read : ReadsBody src header.name space header.kind inside body rest) :
    Takes (readType src space lead ts) (header.declare space lead body)
      (dropMark .semicolon rest) := by
  obtain ⟨_, head⟩ := head
  obtain ⟨_, opened⟩ : Takes (readMark .openBrace (brace :: inside)) () inside :=
    takes_readMark rfl opens
  have more : Item.isMark .semicolon (brace :: inside) = false :=
    TypeSyntax.isMark_of_mark opens (by decide)
  obtain ⟨kind, name, parameters, bases⟩ := header
  rw [takes_iff, readType, head]
  simp only [more, Bool.false_eq_true, if_false, opened]
  cases read with
  | classBody read =>
    obtain ⟨_, read⟩ := read
    simp only [read]
    rfl
  | @enumBody _ _ values read =>
    obtain ⟨_, read⟩ := read
    simp only [read]
    rfl
  | interfaceBody passed =>
    subst passed
    rfl

theorem takes_readType {lead : Lead} {brace : Item} {inside : List Item} {kind : Kind}
    {parameters : List Member} {bases : List String} {body : Body}
    (head : Takes (readHeader src ts) ⟨kind, name, parameters, bases⟩ (brace :: inside))
    (opens : brace.token = .mark .openBrace) (read : ReadsBody src name space kind inside body rest)
    (ends : Item.isMark .semicolon rest = false) :
    Takes (readType src space lead ts)
      (Header.declare ⟨kind, name, parameters, bases⟩ space lead body) rest := by
  have read : Takes (readType src space lead ts) _ _ := takes_readType_body head opens read
  rwa [dropMark_eq ends] at read

namespace TypeDecl

/-- A declaration is read back if what is between its braces is. -/
theorem readsBack_of_body {t : TypeDecl} (body : Body) (named : IsName t.name)
    (types : ∀ base ∈ t.bases, IsTypeText base)
    (between : ∀ {src text : List Char} {ts : List Item},
      Laid src [] (t.printBody ++ '\x7d' :: text) ts →
        ∃ rest, Laid src [] text rest ∧ ReadsBody src t.name space t.kind ts body rest)
    (same : t.kept space = ⟨t.name, space, t.kind, if t.kind = .enumKind then [] else t.bases,
      t.summary, body.members, body.nested, t.attributes⟩) : t.IsReadBack space := by
  intro src text docs ts lead laid summarized attributed
  have chars : t.printCore ++ text = t.kind.label.toList ++ ' ' :: (t.name.toList ++
      (printBaseList t.bases ++ '\n' :: (t.printBody ++ '\x7d' :: '\n' :: text))) := by
    simp [printCore]
  rw [chars] at laid
  obtain ⟨brace, inside, opens, laid, keyword, head⟩ := takes_readHeader named types laid
  obtain ⟨rest, laid, read⟩ := between laid.newline
  refine ⟨rest, laid.newline, keyword, fun ends => ?_⟩
  have type : Takes (readType src space lead ts) _ rest := takes_readType head opens read ends
  rwa [Header.declare, summarized, attributed, List.nil_append, ← same] at type

/-- A declaration is read back from its text, as far as the text keeps it. -/
theorem WellFormed.readsBack {t : TypeDecl} (formed : t.WellFormed) : t.IsReadBack space := by
  induction formed with
  | @intro t named types _ members nested ih =>
  obtain ⟨name, outer, kind, bases, summary, ms, us, attributes⟩ := t
  cases kind with
  | classKind =>
    refine readsBack_of_body ⟨ms.map (·.asProperty), keptAll space us⟩ named types ?_
      (by rw [kept]; rfl)
    intro src text ts laid
    rw [printBody, List.append_assoc] at laid
    have leads : ∀ u ∈ us, LeadWellFormed u.summary u.attributes := by
      intro u hu
      cases nested u hu with
      | intro _ _ lead => exact lead
    obtain ⟨vs, laid, -, properties⟩ := readClassBody_properties name space members laid
    obtain ⟨ws, laid, first, types⟩ := readClassBody_nested name leads ih laid
    obtain ⟨c, rest, rfl, closes, -, spans⟩ := Laid.mark laid (by decide) fun _ => rfl
    have close : Takes (readClassBody src name space (c :: rest)) .empty rest :=
      takes_readClassBody_close closes
    have apart : Item.isMark .equals vs = false := by
      rcases first with rfl | first
      · exact TypeSyntax.isMark_of_mark closes (by decide)
      · exact first.isMark (by decide)
    refine ⟨rest, spans.laid, .classBody (takes_iff.mpr ?_)⟩
    rw [properties apart, types (TypeSyntax.isMark_of_mark closes (by decide)), takes_iff.mp close]
    show Except.ok (Body.mk (ms.map (·.asProperty) ++ []) (keptAll space us ++ []), rest) = _
    rw [List.append_nil, List.append_nil]
  | enumKind =>
    refine readsBack_of_body ⟨ms.map (·.asValue), []⟩ named types ?_ (by rw [kept]; rfl)
    intro src text ts laid
    rw [printBody] at laid
    obtain ⟨rest, laid, read⟩ := takes_readEnumValues members laid
    exact ⟨rest, laid, .enumBody read⟩
  | interfaceKind =>
    refine readsBack_of_body .empty named types ?_ (by rw [kept]; rfl)
    intro src text ts laid
    rw [printBody] at laid
    obtain ⟨c, rest, rfl, closes, -, spans⟩ := Laid.mark laid (by decide) fun _ => rfl
    refine ⟨rest, spans.laid, .interfaceBody ?_⟩
    simp [Skip.braces, Skip.wholeGroup, Skip.group, closes]

end TypeDecl

end Ambient.Host
