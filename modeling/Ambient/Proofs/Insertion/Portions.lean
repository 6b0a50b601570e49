import Ambient.Proofs.Insertion.Headers

/-!
# Bodies read portion by portion

The body of a class is read member by member and that of a namespace part by part. One relation for
each says what stands first in the body and what it adds, so a body is read as its first portion and
then as the body behind it.
-/
namespace Ambient.Host
variable {O : Overlap} {src : List Char} {typeName space : String} {ts us rest : List Item}

/-- Attributes and modifiers in front of a declaration in a class, and where the
declaration starts. -/
structure Opens (src : List Char) (ts : List Item) (lead : Lead) (modifiers : Modifiers)
    (start : List Item) : Prop where
  inside : Item.isMark .closeBrace ts = false
  nonempty : Item.isMark .semicolon ts = false
  front : ∃ afterLead, Passes (readLead src ts) lead afterLead ∧
    Leaves (readModifiers .absent afterLead) modifiers start

/-- What stands first in the body of the class `typeName`, what it does to the body behind
it, and that body. -/
inductive Extends (src : List Char) (typeName space : String) :
    List Item → (Body → Body) → List Item → Prop
  | empty {t : Item} {rest : List Item} : t.token = .mark .semicolon →
    Extends src typeName space (t :: rest) id rest
  | member {ts start rest : List Item} {lead : Lead} {modifiers : Modifiers}
    {members : List Member} :
    Opens src ts lead modifiers start → startsNestedType start = false →
    Takes (readMember src typeName lead modifiers start) members rest →
    Extends src typeName space ts (Body.addMembers members) rest
  | nested {ts start rest : List Item} {lead : Lead} {modifiers : Modifiers} {decl : TypeDecl} :
    Opens src ts lead modifiers start → startsNestedType start = true →
    Takes (readType src space lead start) decl rest →
    Extends src typeName space ts (Body.addNested decl) rest

theorem Extends.outcome_eq {change : Body → Body}
    (h : Extends src typeName space ts change rest) :
    outcome (readClassBody src typeName space ts) =
      (outcome (readClassBody src typeName space rest)).map (Prod.map change id) := by
  cases h with
  | @empty t _ semicolon =>
    rw [readClassBody, if_neg (by simp [semicolon]), if_pos semicolon]
    cases readClassBody src typeName space rest <;> rfl
  | member opens plain member =>
    obtain ⟨_, front, modified⟩ := opens.front
    exact outcome_readClassBody opens.inside opens.nonempty front modified plain member
  | nested opens nests type =>
    obtain ⟨_, front, modified⟩ := opens.front
    exact outcome_readClassBody_nested opens.inside opens.nonempty front modified nests type

theorem Opens.shorter {lead : Lead} {modifiers : Modifiers} {start : List Item}
    (h : Opens src ts lead modifiers start) : start.length ≤ ts.length := by
  obtain ⟨_, ⟨short, _⟩, short', _⟩ := h.front
  exact Nat.le_trans short'.1 short.1

theorem Extends.shorter {change : Body → Body} (h : Extends src typeName space ts change rest) :
    rest.length < ts.length := by
  cases h with
  | empty => exact Nat.lt_succ_self _
  | member opens _ member =>
    obtain ⟨taken, _⟩ := member
    exact Nat.lt_of_lt_of_le taken.1 opens.shorter
  | nested opens _ type =>
    obtain ⟨taken, _⟩ := type
    exact Nat.lt_of_lt_of_le taken.1 opens.shorter

/-- A body is the brace that closes it, or it has a first portion. -/
theorem exists_extends {body : Body} (h : Takes (readClassBody src typeName space ts) body rest) :
    (∃ t, ts = t :: rest ∧ t.token = .mark .closeBrace ∧ body = .empty) ∨
      ∃ change more inner, Extends src typeName space ts change more ∧
        Takes (readClassBody src typeName space more) inner rest ∧ body = change inner := by
  obtain ⟨_, h⟩ := h
  cases ts with
  | nil =>
    rw [readClassBody] at h
    cases h
  | cons t r =>
    rw [readClassBody] at h
    split at h
    · rename_i closes
      cases h
      exact .inl ⟨t, rfl, closes, rfl⟩
    rename_i inside
    right
    split at h
    · rename_i semicolon
      obtain ⟨inner, more, same⟩ := map_eq_ok h
      cases same
      exact ⟨id, r, inner.value, .empty semicolon, ⟨_, more⟩, rfl⟩
    rename_i nonempty
    split at h
    · cases h
    rename_i lead afterLead _ front
    split at h
    rename_i modifiers start _ modified
    have opens : Opens src (t :: r) lead modifiers start :=
      ⟨by simpa [Item.isMark, Item.token?] using inside,
        by simpa [Item.isMark, Item.token?] using nonempty, afterLead, ⟨_, front⟩,
        ⟨_, modified⟩⟩
    split at h
    · rename_i nests
      split at h
      · cases h
      rename_i decl after _ type
      obtain ⟨inner, more, same⟩ := map_eq_ok h
      cases same
      exact ⟨_, after, inner.value, .nested opens nests ⟨_, type⟩, ⟨_, more⟩, rfl⟩
    · rename_i plain
      split at h
      · cases h
      rename_i members after _ member
      obtain ⟨inner, more, same⟩ := map_eq_ok h
      cases same
      exact ⟨_, after, inner.value,
        .member opens (Bool.not_eq_true _ ▸ plain) ⟨_, member⟩, ⟨_, more⟩,
        rfl⟩

/-- What follows the header of a type through its end: a semicolon, or a body. -/
inductive Completes (src : List Char) (space : String) (header : Header) :
    List Item → Body → List Item → Prop
  | semicolon {t : Item} {rest : List Item} : t.token = .mark .semicolon →
    Completes src space header (t :: rest) .empty rest
  | body {t : Item} {inside rest : List Item} {body : Body} : t.token = .mark .openBrace →
    ReadsBody src header.name space header.kind inside body rest →
    Completes src space header (t :: inside) body (dropMark .semicolon rest)

theorem Completes.endsHeader {header : Header} {body : Body}
    (h : Completes src space header ts body rest) : EndsHeader ts := by
  cases h with
  | semicolon semicolon => exact .inr (by simp [Item.isMark, Item.token?, semicolon])
  | body opens => exact .inl (by simp [Item.isMark, Item.token?, opens])

theorem Completes.takes_readType {lead : Lead} {header : Header} {after : List Item} {body : Body}
    (h : Completes src space header after body rest)
    (head : Takes (readHeader src ts) header after) :
    Takes (readType src space lead ts) (header.declare space lead body) rest := by
  cases h with
  | semicolon semicolon =>
    obtain ⟨_, head⟩ := head
    rw [takes_iff, readType, head]
    simp only [Item.isMark, Item.token?, List.head?_cons, Option.map_some, semicolon]
    rfl
  | body opens body => exact takes_readType_body head opens body

theorem exists_completes {lead : Lead} {decl : TypeDecl}
    (h : Takes (readType src space lead ts) decl rest) : ∃ header after body,
      Takes (readHeader src ts) header after ∧ Completes src space header after body rest ∧
        decl = header.declare space lead body := by
  obtain ⟨_, h⟩ := h
  rw [readType] at h
  split at h
  · cases h
  rename_i header after _ head
  split at h
  · rename_i ends
    cases h
    cases after with
    | nil => cases ends
    | cons t r =>
      have semicolon : t.token = .mark .semicolon := by simpa [Item.isMark, Item.token?] using ends
      exact ⟨header, t :: r, .empty, ⟨_, head⟩, .semicolon semicolon, rfl⟩
  · split at h
    · cases h
    rename_i inside _ opened
    obtain ⟨t, whole, opens⟩ := exists_of_readMark opened
    have body : ∀ {body behind},
        ReadsBody src header.name space header.kind inside body behind →
        Completes src space header after body (dropMark .semicolon behind) :=
      fun read => whole ▸ .body opens read
    split at h
    · rename_i kind
      cases h
      exact ⟨header, after, _, ⟨_, head⟩, body (kind ▸ .interfaceBody rfl), rfl⟩
    · rename_i kind
      obtain ⟨values, read, same⟩ := map_eq_ok h
      cases same
      exact ⟨header, after, _, ⟨_, head⟩, body (kind ▸ .enumBody ⟨_, read⟩), rfl⟩
    · rename_i kind
      obtain ⟨members, read, same⟩ := map_eq_ok h
      cases same
      exact ⟨header, after, _, ⟨_, head⟩, body (kind ▸ .classBody ⟨_, read⟩), rfl⟩

theorem startsNestedType_near (near : Near ts us) : startsNestedType us = startsNestedType ts := by
  cases near with
  | two => rfl
  | @one t r r' quiet =>
    unfold startsNestedType
    simp only [Item.token?, List.head?_cons, Option.map_some]
    split
    · rename_i record
      exact absurd (Option.some.inj record) quiet.2.2
    · rfl
    · rfl

theorem keeps_opens {lead : Lead} {modifiers : Modifiers} {start : List Item}
    (h : Opens O.source ts lead modifiers start) :
    Keeps O (fun ts us => Opens O.source' ts lead modifiers us) ts start := by
  obtain ⟨inside, nonempty, afterLead, ⟨_, front⟩, modified⟩ := h
  obtain ⟨value, left⟩ := leaves_iff.mp modified
  have second := keeps_readModifiers (O := O) .absent afterLead
  rw [value, left] at second
  refine ((keeps_readLead front).trans second).near.imp ?_
  rintro us rest ⟨near, afterLead, front, modified⟩
  exact ⟨(near.isMark _).trans inside, (near.isMark _).trans nonempty, afterLead,
    front, modified⟩

theorem keeps_readsHeader {header : Header} (h : Takes (readHeader O.source ts) header rest)
    (ends : EndsHeader rest) :
    Keeps O (fun ts us => Takes (readHeader O.source' ts) header us) ts rest := by
  obtain ⟨_, h⟩ := h
  exact keeps_readHeader h ends

mutual
theorem seals_readClassBody {ts : List Item} {typeName space : String} {body : Body}
    {rest : List Item} (h : Takes (readClassBody O.source typeName space ts) body rest) :
    Seals O (fun ts us => Takes (readClassBody O.source' typeName space ts) body us) ts rest := by
  rcases exists_extends h with
    ⟨t, rfl, closes, rfl⟩ | ⟨change, more, inner, first, others, rfl⟩
  · refine (Seals.first (closes ▸ Token.isQuiet_mark _) rest).imp ?_
    rintro _ us rfl
    exact takes_readClassBody_close closes
  · have shorter := first.shorter
    have behind := seals_readClassBody others
    refine ((stops_extends first behind.ne_nil).keeps.seals behind).imp ?_
    rintro ts us ⟨mid, first, others⟩
    rw [takes_iff] at others ⊢
    rw [first.outcome_eq, others]
    rfl
termination_by 3 * ts.length + 2
decreasing_by all_goals omega

theorem stops_extends {ts : List Item} {typeName space : String} {change : Body → Body}
    {rest : List Item} (h : Extends O.source typeName space ts change rest) (some : rest ≠ []) :
    Stops O (fun ts us => Extends O.source' typeName space ts change us) ts rest := by
  cases h with
  | @empty t _ semicolon =>
    refine (Seals.first (semicolon ▸ Token.isQuiet_mark _) rest).stops.imp ?_
    rintro _ us rfl
    exact .empty semicolon
  | member opens plain member =>
    obtain ⟨_, read⟩ := member
    refine ((keeps_opens opens).stops (stops_readMember read some).near).imp ?_
    rintro ts us ⟨_, opens, near, member⟩
    exact .member opens ((startsNestedType_near near).trans plain) member
  | nested opens nests type =>
    have shorter := opens.shorter
    refine ((keeps_opens opens).stops (stops_readType type some).near).imp ?_
    rintro ts us ⟨_, opens, near, type⟩
    exact .nested opens ((startsNestedType_near near).trans nests) type
termination_by 3 * ts.length + 1
decreasing_by all_goals omega

theorem stops_readType {ts : List Item} {space : String} {lead : Lead} {decl : TypeDecl}
    {rest : List Item} (h : Takes (readType O.source space lead ts) decl rest)
    (some : rest ≠ []) :
    Stops O (fun ts us => Takes (readType O.source' space lead ts) decl us) ts rest := by
  obtain ⟨header, after, body, head, ends, rfl⟩ := exists_completes h
  have shorter : after.length < ts.length := head.elim fun taken _ => taken.1
  have keeps := keeps_readsHeader head ends.endsHeader
  have behind : Stops O (fun ts us => Completes O.source' space header ts body us) after rest := by
    cases ends with
    | @semicolon t _ semicolon =>
      refine (Seals.first (semicolon ▸ Token.isQuiet_mark _) rest).stops.imp ?_
      rintro _ us rfl
      exact .semicolon semicolon
    | @body t inside behind _ opens read =>
      have fewer : inside.length < ts.length := Nat.lt_of_succ_lt shorter
      have nonempty : behind ≠ [] := by
        rintro rfl
        exact some rfl
      have read :
          Seals O (fun ts us => ReadsBody O.source' header.name space header.kind ts body us)
          inside behind := by
        generalize header.kind = kind at read ⊢
        cases read with
        | classBody read => exact (seals_readClassBody read).imp fun _ _ => .classBody
        | enumBody read =>
          obtain ⟨_, read⟩ := read
          exact (seals_readEnumValues read).imp fun _ _ => .enumBody
        | interfaceBody passed =>
          subst passed
          exact (seals_group nonempty).imp fun _ _ => .interfaceBody
      refine ((Keeps.first t inside).stops (stops_dropMark read)).imp ?_
      rintro _ us ⟨_, rfl, behind, read, rfl⟩
      exact .body opens read
  refine (keeps.stops behind).imp ?_
  rintro ts us ⟨mid, head, ends⟩
  exact ends.takes_readType head
termination_by 3 * ts.length
decreasing_by all_goals omega
end

end Ambient.Host
