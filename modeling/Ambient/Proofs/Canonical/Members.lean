import Ambient.Proofs.Canonical.Expressions

/-!
# Members read back

A property is read with the type, the name and the lead it was written with, and an enum value with
its initializer. Behind each of them the reader goes on with the next.
-/
namespace Ambient.Host
variable {src text : List Char} {docs : List String} {ts rest after : List Item}
  {name : String}

/-- What a declaration begins with: an attribute list without a target, or the word `public`. -/
def OpensPublic (ts : List Item) : Prop :=
  OpensList ts ∨ Item.token? ts = some (.keyword .publicKw)

theorem OpensPublic.isMark {m : Mark} (h : OpensPublic ts) (other : m ≠ .openBracket) :
    Item.isMark m ts = false := by
  rw [Item.isMark, beq_eq_false_iff_ne]
  intro same
  rcases h with ⟨bracket, -⟩ | publicly
  · rw [bracket] at same
    cases same
    exact other rfl
  · rw [publicly] at same
    cases same

theorem opensPublic_of_lead {i : Item} (opens : OpensList ts ∨ ts = i :: rest)
    (publicly : i.token = .keyword .publicKw) : OpensPublic ts := by
  rcases opens with opens | rfl
  · exact .inl opens
  · exact .inr (congrArg some publicly)

theorem Laid.publicly (laid : Laid src docs ("public ".toList ++ text) ts) :
    ∃ i rest, ts = i :: rest ∧ i.token = .keyword .publicKw ∧ i.docs = docs ∧
      Laid src [] text rest :=
  Ambient.Laid.keyword (k := .publicKw) laid

theorem fronts_publicly : Fronts src ("public ".toList ++ text) := by
  intro docs ts laid
  obtain ⟨i, rest, rfl, token, known, -⟩ := Laid.publicly laid
  exact ⟨known, by simp [Item.isMark, Item.token?, token]⟩

theorem leaves_readModifiers_more {i : Item} {m m' m'' : Modifiers} {k : Keyword}
    (keyword : i.token = .keyword k) (modifies : m.add? k = some m')
    (unnamed : ¬ (k = .partialKw ∧ Item.isMark .openParen ts = true))
    (more : Leaves (readModifiers m' ts) m'' rest) :
    Leaves (readModifiers m (i :: ts)) m'' rest := by
  obtain ⟨_, more⟩ := more
  rw [readModifiers, keyword]
  simp only [modifies]
  rw [if_neg unnamed, more]
  exact ⟨_, rfl⟩

theorem leaves_readModifiers_public {i : Item} {m m' : Modifiers}
    (publicly : i.token = .keyword .publicKw)
    (more : Leaves (readModifiers { m with isPublic := true } ts) m' rest) :
    Leaves (readModifiers m (i :: ts)) m' rest :=
  leaves_readModifiers_more publicly rfl (fun h => nomatch h.1) more

theorem leaves_readModifiers_other {i : Item} {m : Modifiers} {k : Keyword}
    (keyword : i.token = .keyword k) (other : m.add? k = none) :
    Leaves (readModifiers m (i :: ts)) m (i :: ts) := by
  rw [readModifiers, keyword]
  simp only [other]
  split <;> exact ⟨_, rfl⟩

theorem laid_accessors (laid : Laid src docs (" \x7b get; set; \x7d\n".toList ++ text) ts) :
    ∃ accessors rest, ts = accessors ++ rest ∧ accessors.map (·.token) = autoAccessors ∧
      Laid src [] text rest := by
  have words : IsName "get" ∧ IsName "set" := by decide
  have chars : " \x7b get; set; \x7d\n".toList ++ text =
      ' ' :: '\x7b' :: ' ' :: ("get".toList ++ ';' :: ' ' :: ("set".toList ++
        ';' :: ' ' :: '\x7d' :: '\n' :: text)) := rfl
  rw [chars] at laid
  obtain ⟨a, _, rfl, ha, -, spans⟩ := laid.space.mark (by decide) fun _ => rfl
  obtain ⟨b, _, rfl, hb, -, spans⟩ :=
    spans.laid.space.name words.1 (endsWord_cons (by decide) _)
  obtain ⟨c, _, rfl, hc, -, spans⟩ := spans.laid.mark (by decide) fun _ => rfl
  obtain ⟨d, _, rfl, hd, -, spans⟩ :=
    spans.laid.space.name words.2 (endsWord_cons (by decide) _)
  obtain ⟨e, _, rfl, he, -, spans⟩ := spans.laid.mark (by decide) fun _ => rfl
  obtain ⟨f, rest, rfl, hf, -, spans⟩ := spans.laid.space.mark (by decide) fun _ => rfl
  refine ⟨[a, b, c, d, e, f], rest, rfl, ?_, spans.laid.newline⟩
  simp [autoAccessors, ha, hb, hc, hd, he, hf]

theorem passes_readMemberTail_auto {accessors : List Item}
    (auto : accessors.map (·.token) = autoAccessors) (ends : Item.isMark .equals rest = false) :
    Passes (readMemberTail src name (accessors ++ rest)) [name] rest := by
  obtain ⟨opens, inside, rfl, opening, _, read⟩ :=
    @takes_readAccessors_autoAccessors src accessors auto rest
  obtain ⟨_, property⟩ : Takes (readProperty src (inside ++ rest)) true rest := by
    rw [takes_iff, readProperty]
    simp only [read, ends, Bool.false_eq_true, if_false]
    rfl
  have found : Item.token? (opens :: (inside ++ rest)) = some (.mark .openBrace) :=
    congrArg some opening
  rw [List.cons_append]
  unfold readMemberTail
  simp only [found, List.tail_cons, property]
  exact ⟨_, rfl⟩

theorem not_untranslated (typeName : String) (starts : TypeSyntax.StartsType docs ts rest)
    (ends : Item.isMark .openParen rest = false) :
    startsNestedType ts = false ∧ isUntranslated typeName ts = false ∧
      ∀ k, Item.token? ts ≠ some (.keyword k) := by
  rcases starts.2 with paren | ⟨⟨word, named⟩, ahead⟩
  · refine ⟨?_, ?_, fun k => by rw [paren]; simp⟩
    · rw [startsNestedType, paren]
    · rw [isUntranslated, paren]
  · refine ⟨?_, ?_, fun k => by rw [named]; simp⟩
    · rw [startsNestedType, named]
    · rw [isUntranslated, named]
      simp only [Bool.and_eq_false_imp, beq_eq_false_iff_ne]
      exact fun _ => ahead ends

/-- A property goes to the members of the class, and the body is read on behind it. -/
theorem readClassBody_property (typeName space : String) {m : Member}
    (property : m.WellFormed .classKind) (laid : Laid src [] (m.printProperty ++ text) ts) :
    ∃ rest, Laid src [] text rest ∧ OpensPublic ts ∧ (Item.isMark .equals rest = false →
      outcome (readClassBody src typeName space ts) =
        (outcome (readClassBody src typeName space rest)).map
          (Prod.map (Body.addMembers [m.asProperty]) id)) := by
  obtain ⟨ty, formed, shown⟩ := property.type rfl
  rw [Member.printProperty, List.append_assoc, List.append_assoc] at laid
  obtain ⟨docs, us, laid, opens, lead, front, summarized, attributed⟩ :=
    passes_readLead property.lead fronts_publicly laid
  obtain ⟨p, vs, rfl, publicly, -, laid⟩ := Laid.publicly laid
  rw [← shown, List.append_assoc, List.cons_append] at laid
  obtain ⟨ws, laid, starts, type⟩ :=
    takes_readWrittenType formed laid (endsWord_cons (by decide) _)
  rw [List.append_assoc] at laid
  obtain ⟨i, xs, rfl, named, -, spans⟩ :=
    laid.space.name property.name (endsWord_cons (by decide) _)
  obtain ⟨accessors, rest, rfl, auto, laid⟩ := laid_accessors spans.laid
  have apart : ∀ mark, Item.isMark mark (i :: (accessors ++ rest)) = false := by
    simp [Item.isMark, Item.token?, named]
  have publicFirst := opensPublic_of_lead opens publicly
  obtain ⟨plain, translated, word⟩ := not_untranslated typeName starts (apart _)
  refine ⟨rest, laid, publicFirst, fun ends => ?_⟩
  have begins : Begins src typeName ts lead { Modifiers.absent with isPublic := true } ty.display
      (i :: (accessors ++ rest)) :=
    ⟨publicFirst.isMark (by decide), publicFirst.isMark (by decide), p :: vs, vs, front,
      leaves_readModifiers_public publicly (leaves_readModifiers_keep word), plain, translated,
      type ⟨fun m _ => apart m, fun m _ => apart m⟩⟩
  have declared : plainMember m.name ty.display (Summary.ofDocs lead.docs) lead.attributes =
      m.asProperty := by
    rw [summarized, attributed, shown, plainMember, Member.asProperty]
  have read : outcome (readClassBody src typeName space ts) = _ :=
    begins.readClassBody (congrArg nameOf? named) (passes_readMemberTail_auto auto ends)
  rw [read]
  show (outcome _).map (Prod.map (Body.addMembers [plainMember m.name ty.display _ _]) id) = _
  rw [declared]

/-- The members of a class are read one after another. -/
theorem readClassBody_properties (typeName space : String) {members : List Member}
    (properties : ∀ m ∈ members, m.WellFormed .classKind) :
    ∀ {ts : List Item}, Laid src [] (members.flatMap (·.printProperty) ++ text) ts →
      ∃ rest, Laid src [] text rest ∧ (ts = rest ∨ OpensPublic ts) ∧
        (Item.isMark .equals rest = false →
          outcome (readClassBody src typeName space ts) =
            (outcome (readClassBody src typeName space rest)).map
              (Prod.map (Body.addMembers (members.map (·.asProperty))) id)) := by
  induction members with
  | nil =>
    intro ts laid
    refine ⟨ts, laid, .inl rfl, fun _ => ?_⟩
    cases outcome (readClassBody src typeName space ts) <;> rfl
  | cons m others ih =>
    intro ts laid
    rw [List.flatMap_cons, List.append_assoc] at laid
    obtain ⟨us, laid, opens, first⟩ :=
      readClassBody_property typeName space (properties m List.mem_cons_self) laid
    obtain ⟨rest, laid, later, more⟩ :=
      ih (fun n hn => properties n (List.mem_cons_of_mem m hn)) laid
    refine ⟨rest, laid, .inr opens, fun ends => ?_⟩
    have apart : Item.isMark .equals us = false := by
      rcases later with rfl | later
      · exact ends
      · exact later.isMark (by decide)
    rw [first apart, more ends]
    cases outcome (readClassBody src typeName space rest) <;> rfl

theorem takes_readEnumValues_close {lead : Lead} {t : Item}
    (front : Passes (readLead src ts) lead (t :: rest)) (closes : t.token = .mark .closeBrace) :
    Takes (readEnumValues src ts) [] rest := by
  obtain ⟨_, front⟩ := front
  rw [takes_iff, readEnumValues, front]
  simp only [closes, if_true]
  rfl

theorem takes_readEnumValues_more {lead : Lead} {i comma : Item} {us : List Item}
    {init : Option String} {values : List Member}
    (front : Passes (readLead src ts) lead (i :: us)) (named : i.token = .ident name)
    (initializer : Leaves (readInitializer src us) init (comma :: rest))
    (separates : comma.token = .mark .comma)
    (others : Takes (readEnumValues src rest) values after) :
    Takes (readEnumValues src ts)
      (⟨name, "", init, Summary.ofDocs lead.docs, lead.attributes⟩ :: values) after := by
  obtain ⟨_, front⟩ := front
  obtain ⟨_, first⟩ : Takes (readName (i :: us)) name us := takes_readName rfl named
  obtain ⟨_, initializer⟩ := initializer
  obtain ⟨_, again⟩ := others
  have inside : i.token ≠ .mark .closeBrace := by simp [named]
  rw [takes_iff, readEnumValues, front]
  simp only [if_neg inside, first]
  rw [initializer]
  simp only [separates, if_true, again]
  rfl

/-- An enum value comes first, and the values are read on behind its comma. -/
theorem takes_readEnumValues_value {m : Member} (value : m.WellFormed .enumKind)
    (laid : Laid src [] (m.printValue ++ text) ts) :
    ∃ rest, Laid src [] text rest ∧ ∀ {values : List Member} {after : List Item},
      Takes (readEnumValues src rest) values after →
        Takes (readEnumValues src ts) (m.asValue :: values) after := by
  have chars : m.printValue ++ text = printLead m.summary m.attributes ++
      (m.name.toList ++ (printInitializer m.init ++ ',' :: '\n' :: text)) := by
    simp [Member.printValue]
  have ends : EndsWord (printInitializer m.init ++ ',' :: '\n' :: text) := by
    cases m.init with
    | none => exact endsWord_cons (by decide) _
    | some written => exact endsWord_cons (by decide) _
  have fronts : Fronts src (m.name.toList ++ (printInitializer m.init ++ ',' :: '\n' :: text)) := by
    intro docs us laid
    obtain ⟨i, _, rfl, named, known, -⟩ := laid.name value.name ends
    exact ⟨known, by simp [Item.isMark, Item.token?, named]⟩
  rw [chars] at laid
  obtain ⟨docs, us, laid, -, lead, front, summarized, attributed⟩ :=
    passes_readLead value.lead fronts laid
  obtain ⟨i, vs, rfl, named, -, spans⟩ := laid.name value.name ends
  obtain ⟨comma, rest, separates, laid, initializer⟩ :=
    exists_readInitializer value.init spans.laid
  refine ⟨rest, laid.newline, fun {values after} others => ?_⟩
  have read := takes_readEnumValues_more front named initializer separates others
  rwa [summarized, attributed] at read

/-- The values of an enum are read up to its closing brace. -/
theorem takes_readEnumValues {members : List Member}
    (values : ∀ m ∈ members, m.WellFormed .enumKind) :
    ∀ {ts : List Item}, Laid src [] (members.flatMap (·.printValue) ++ '\x7d' :: text) ts →
      ∃ rest, Laid src [] text rest ∧
        Takes (readEnumValues src ts) (members.map (·.asValue)) rest := by
  induction members with
  | nil =>
    intro ts laid
    obtain ⟨t, rest, rfl, closes, known, spans⟩ := Laid.mark laid (by decide) fun _ => rfl
    have lists : Passes (readAttributeLists src (t :: rest)) [] (t :: rest) :=
      passes_readAttributeLists_keep (TypeSyntax.isMark_of_mark closes (by decide))
    exact ⟨rest, spans.laid,
      takes_readEnumValues_close (passes_readLead_of lists known fun _ => known) closes⟩
  | cons m others ih =>
    intro ts laid
    rw [List.flatMap_cons, List.append_assoc] at laid
    obtain ⟨us, laid, first⟩ := takes_readEnumValues_value (values m List.mem_cons_self) laid
    obtain ⟨rest, laid, more⟩ := ih (fun n hn => values n (List.mem_cons_of_mem m hn)) laid
    exact ⟨rest, laid, first more⟩

end Ambient.Host
