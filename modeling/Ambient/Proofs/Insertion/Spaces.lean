import Ambient.Proofs.Insertion.Portions

/-!
# Namespaces read alike

In a namespace up to three items tell what stands there. So where a class comes later in the
text, what is in front of it is read alike if the text goes on in another way behind the first
items of the class.
-/
namespace Ambient.Host
variable {O : Overlap} {src : List Char} {space : String} {braced : Bool}
  {ts us rest mid : List Item} {parts : List Part} {P Q : List Item → List Item → Prop}

/-- The first three items are the same. -/
inductive Beside : List Item → List Item → Prop
  | mk (a b c : Item) (r r' : List Item) : Beside (a :: b :: c :: r) (a :: b :: c :: r')

theorem Beside.append (behind : List Item) (h : Beside ts us) :
    Beside (behind ++ ts) (behind ++ us) := by
  cases h with
  | mk a b c r r' =>
    match behind with
    | [] => exact .mk a b c r r'
    | [t] => exact .mk t a b _ _
    | [t, u] => exact .mk t u a _ _
    | t :: u :: v :: more => exact .mk t u v _ _

theorem Beside.near (h : Beside ts us) : Near ts us := by
  cases h with
  | mk a b c r r' => exact .two a b _ _

/-- What `P` says of `ts` and the items `rest` left of it holds as well in the other source where
`rest` goes on in another way behind its first three items. -/
def Follows (O : Overlap) (P : List Item → List Item → Prop) (ts rest : List Item) : Prop :=
  ∃ taken, ts = taken ++ rest ∧
    ((∀ i ∈ taken, O.shared i) → ∀ us, Beside rest us → P (taken ++ us) us)

theorem Keeps.follows (h : Keeps O P ts rest) : Follows O P ts rest := by
  obtain ⟨taken, whole, again⟩ := h
  exact ⟨taken, whole, fun shared us beside => again shared us beside.near⟩

namespace Follows

theorem of_nil (ts : List Item) : Follows O P ts [] :=
  ⟨ts, (List.append_nil ts).symm, fun _ _ beside => nomatch beside⟩

theorem imp (h : Follows O P ts rest) (through : ∀ ts us, P ts us → Q ts us) :
    Follows O Q ts rest := by
  obtain ⟨taken, whole, again⟩ := h
  exact ⟨taken, whole, fun shared us beside => through _ _ (again shared us beside)⟩

theorem beside (h : Follows O P ts rest) :
    Follows O (fun us rest => Beside ts us ∧ P us rest) ts rest := by
  obtain ⟨taken, rfl, again⟩ := h
  exact ⟨taken, rfl, fun shared us beside => ⟨beside.append taken, again shared us beside⟩⟩

theorem trans (h : Follows O P ts mid) (h' : Follows O Q mid rest) :
    Follows O (fun ts us => ∃ mid, P ts mid ∧ Q mid us) ts rest := by
  obtain ⟨front, rfl, first⟩ := h
  obtain ⟨behind, rfl, second⟩ := h'
  refine ⟨front ++ behind, (List.append_assoc front behind rest).symm,
    fun shared us beside => ?_⟩
  rw [List.forall_mem_append] at shared
  rw [List.append_assoc]
  exact ⟨behind ++ us, first shared.1 _ (beside.append behind), second shared.2 us beside⟩

end Follows

theorem follows_wholeMember (ts : List Item) :
    Follows O (fun ts us => Skip.wholeMember ts = us) ts (Skip.wholeMember ts) := by
  by_cases none : Skip.wholeMember ts = []
  · rw [none]
    exact .of_nil ts
  · obtain ⟨taken, whole, again⟩ := exists_member O (rfl : Skip.member 0 ts = _) none
    refine ⟨taken, whole, fun shared us beside => ?_⟩
    rcases again shared with closed | ⟨brace, opened⟩
    · exact closed us beside.near.apart
    · exact (opened us).trans (wholeMember_closeBrace ((beside.near.isMark _).trans brace))

theorem follows_wholeGroup (opening closing : Mark) (ts : List Item) :
    Follows O (fun ts us => Skip.wholeGroup opening closing ts = us) ts
      (Skip.wholeGroup opening closing ts) := by
  by_cases none : Skip.wholeGroup opening closing ts = []
  · rw [none]
    exact .of_nil ts
  · exact Keeps.follows (Seals.keeps (seals_group none))

/-- What a using directive is shows in two items behind its keyword. -/
theorem follows_readUsing {l : Left (List Part) ts} (h : readUsing ts = .ok l) :
    Follows O (fun ts us => Passes (readUsing ts) l.value us) ts l.rest := by
  have ahead : ∀ {us n}, n < 3 → Beside ts us → Item.ahead n us = Item.ahead n ts := by
    intro us n small beside
    cases beside with
    | mk => match n, small with | 0, _ | 1, _ | 2, _ => rfl
  unfold readUsing at h
  split at h
  · rename_i static
    cases h
    refine (follows_wholeMember ts).beside.imp ?_
    rintro us rest ⟨beside, passed⟩
    have same : (Item.isKeyword .staticKw us || Item.ahead 1 us == some (.mark .equals)) =
        true := by
      rw [ahead (by decide) beside, Item.isKeyword, beside.near.token?]
      exact static
    rw [readUsing, if_pos same]
    exact passes_passMember [] passed
  · rename_i plain
    split at h
    · cases h
    · rename_i directive
      split at h
      · cases h
      · rename_i name after _ named
        obtain ⟨s, semicolon, rfl⟩ := map_eq_ok h
        have semicolon := Seals.keeps (seals_readMark (O := O) semicolon)
        refine (Keeps.follows ((keeps_readQualifiedName named).trans semicolon)).beside.imp ?_
        rintro us rest ⟨beside, _, ⟨_, named⟩, _, _, semicolon⟩
        have same : (Item.isKeyword .staticKw us || Item.ahead 1 us == some (.mark .equals)) =
            (Item.isKeyword .staticKw ts || Item.ahead 1 ts == some (.mark .equals)) := by
          rw [ahead (by decide) beside, Item.isKeyword, Item.isKeyword, beside.near.token?]
        rw [readUsing, same, if_neg plain, beside.near.isMark, if_neg directive, named]
        simp only [semicolon]
        exact ⟨_, rfl⟩

/-- What is declared behind the modifiers: a type, or a delegate, which adds nothing. -/
inductive Declares (src : List Char) (space : String) (lead : Lead) :
    List Item → List Part → List Item → Prop
  | delegate {t : Item} {r : List Item} : t.token = .keyword .delegateKw →
    Declares src space lead (t :: r) [] (Skip.wholeMember r)
  | type {ts rest : List Item} {decl : TypeDecl} : Item.isKeyword .delegateKw ts = false →
    Takes (readType src space lead ts) decl rest →
      Declares src space lead ts [.declared decl] rest

theorem takes_readTopLevel_declares {lead : Lead} {modifiers : Modifiers}
    {afterLead start : List Item} (front : Passes (readLead src ts) lead afterLead)
    (modified : Leaves (readModifiers .absent afterLead) modifiers start)
    (h : Declares src space lead start parts rest) :
    Takes (readTopLevel src space ts) parts rest := by
  cases h with
  | delegate delegates =>
    obtain ⟨_, front⟩ := front
    obtain ⟨_, modified⟩ := modified
    rw [takes_iff, readTopLevel, front]
    simp only
    rw [modified]
    simp only [if_pos delegates]
    rfl
  | type other type =>
    cases start with
    | nil =>
      obtain ⟨taken, _⟩ := type
      exact absurd taken.1 (Nat.not_lt_zero _)
    | cons t r =>
      refine takes_readTopLevel front modified (fun delegates => ?_) type
      simp [Item.isKeyword, Item.token?, delegates] at other

/-- Of the marks only a bracket starts a declaration. -/
theorem not_takes_readTopLevel {m : Mark} (other : m ≠ .openBracket)
    (starts : Item.isMark m ts = true) :
    ¬ Takes (readTopLevel src space ts) parts rest := by
  rintro ⟨_, h⟩
  cases ts with
  | nil => cases starts
  | cons t r =>
    have marked : t.token = .mark m := by simpa [Item.isMark, Item.token?] using starts
    have bare : readAttributeLists src (t :: r) = .ok (.keep [] (t :: r)) := by
      rw [readAttributeLists, if_neg (by simpa [marked] using other)]
    have unmodified : readModifiers .absent (t :: r) = .keep .absent (t :: r) := by
      rw [readModifiers, marked]
    have fails : ∀ lead, ∃ e, readType src space lead (t :: r) = .error e := by
      intro lead
      rw [readType, readHeader, readKind, marked]
      exact ⟨_, rfl⟩
    simp only [readTopLevel, readLead, bare, Left.keep] at h
    rw [unmodified] at h
    simp only [Left.keep, marked] at h
    obtain ⟨_, failed⟩ := fails ⟨_, []⟩
    rw [if_neg (by simp), failed] at h
    cases h

theorem exists_declares (h : Takes (readTopLevel src space ts) parts rest) :
    ∃ lead modifiers start, Opens src ts lead modifiers start ∧
      Declares src space lead start parts rest := by
  have apart : ∀ {m}, m ≠ Mark.openBracket → Item.isMark m ts = false :=
    fun other => Bool.eq_false_iff.mpr fun starts => not_takes_readTopLevel other starts h
  obtain ⟨_, h⟩ := h
  rw [readTopLevel] at h
  split at h
  · cases h
  rename_i lead afterLead _ front
  split at h
  · cases h
  rename_i modifiers t r _ modified
  have declares : Declares src space lead (t :: r) parts rest := by
    split at h
    · rename_i delegates
      cases h
      exact .delegate delegates
    · rename_i other
      obtain ⟨decl, type, same⟩ := map_eq_ok h
      cases same
      exact .type (by simpa [Item.isKeyword, Item.token?] using other) ⟨_, type⟩
  exact ⟨lead, modifiers, t :: r,
    ⟨apart (by decide), apart (by decide), afterLead, ⟨_, front⟩, ⟨_, modified⟩⟩,
    declares⟩

theorem follows_declares {lead : Lead} (h : Declares O.source space lead ts parts rest) :
    Follows O (fun ts us => Declares O.source' space lead ts parts us) ts rest := by
  cases h with
  | @delegate t r delegates =>
    refine ((Keeps.follows (Keeps.first t r)).trans (follows_wholeMember r)).imp ?_
    rintro _ us ⟨mid, rfl, rfl⟩
    exact .delegate delegates
  | type other type =>
    by_cases none : rest = []
    · subst none
      exact .of_nil _
    · refine (Keeps.follows (Stops.keeps (stops_readType type none).near)).imp ?_
      rintro us rest ⟨near, type⟩
      refine .type ?_ type
      rwa [Item.isKeyword, near.token?]

theorem follows_readTopLevel (h : Takes (readTopLevel O.source space ts) parts rest) :
    Follows O (fun ts us => Takes (readTopLevel O.source' space ts) parts us) ts rest := by
  obtain ⟨lead, modifiers, start, opens, declares⟩ := exists_declares h
  refine ((Keeps.follows (keeps_opens opens)).trans (follows_declares declares)).imp ?_
  rintro ts us ⟨mid, opens, declares⟩
  obtain ⟨_, front, modified⟩ := opens.front
  exact takes_readTopLevel_declares front modified declares

/-- The body goes on, and neither with a directive nor with a namespace. -/
structure StartsDeclaration (ts : List Item) : Prop where
  other : ∀ u ∈ [Token.mark .closeBrace, .mark .semicolon, .keyword .usingKw,
    .keyword .externKw, .keyword .namespaceKw], Item.token? ts ≠ some u
  globally : isGlobalUsing ts = false
  target : isGlobalAttribute ts = false

/-- What stands first in the body of the namespace `space`, the parts it adds, and
the body behind it. -/
inductive Adds (src : List Char) (space : String) : List Item → List Part → List Item → Prop
  | empty {t : Item} {rest : List Item} : t.token = .mark .semicolon →
    Adds src space (t :: rest) [] rest
  | imported {t : Item} {r rest : List Item} {parts : List Part} :
    t.token = .keyword .usingKw ∨ isGlobalUsing (t :: r) = true →
    Passes (readUsing (afterUsing t r)) parts rest → Adds src space (t :: r) parts rest
  | externs {t : Item} {r : List Item} : t.token = .keyword .externKw →
    Adds src space (t :: r) [] (Skip.wholeMember r)
  | inner {t brace : Item} {r inside rest : List Item} {name : String} {parts : List Part} :
    t.token = .keyword .namespaceKw → Takes (readQualifiedName r) name (brace :: inside) →
    brace.token = .mark .openBrace →
    Passes (readNamespaceBody src (qualify space name) true inside) parts rest →
    Adds src space (t :: r) parts rest
  | target {t : Item} {r : List Item} : isGlobalAttribute (t :: r) = true →
    Adds src space (t :: r) [] (Skip.wholeGroup .openBracket .closeBracket r)
  | declared {ts rest : List Item} {parts : List Part} : StartsDeclaration ts →
    Takes (readTopLevel src space ts) parts rest → Adds src space ts parts rest

/-- A namespace with braces is read, and then the body behind it. -/
theorem exists_inner {t brace : Item} {r inside : List Item} {name : String} {value : List Part}
    {after : List Item} (keyword : t.token = .keyword .namespaceKw)
    (named : Takes (readQualifiedName r) name (brace :: inside))
    (opens : brace.token = .mark .openBrace)
    (h : Passes (readNamespaceBody src space braced (t :: r)) value after) : ∃ inner rest more,
      Passes (readNamespaceBody src (qualify space name) true inside) inner rest ∧
        Passes (readNamespaceBody src space braced rest) more after ∧ value = inner ++ more := by
  obtain ⟨_, named⟩ := named
  obtain ⟨_, opened⟩ : Takes (readMark .openBrace (brace :: inside)) () inside :=
    takes_readMark rfl opens
  have wrapped : Item.isMark .semicolon (brace :: inside) = false :=
    TypeSyntax.isMark_of_mark opens (by decide)
  obtain ⟨_, h⟩ := h
  rw [readNamespaceBody, if_neg (by simp [keyword]), if_neg (by simp [keyword]),
    if_neg (by simp [isGlobalUsing, Item.token?, keyword]), if_neg (by simp [keyword]),
    if_pos keyword, named] at h
  simp only [wrapped, Bool.false_eq_true, if_false, opened] at h
  split at h
  · cases h
  rename_i inner rest _ body
  obtain ⟨more, others, same⟩ := map_eq_ok h
  cases same
  exact ⟨inner, rest, more.value, ⟨_, body⟩, ⟨_, others⟩, rfl⟩

theorem readNamespaceBody_declared {t : Item} {r : List Item}
    (starts : StartsDeclaration (t :: r)) :
    readNamespaceBody src space braced (t :: r) =
      match readTopLevel src space (t :: r) with
      | .error e => .error e
      | .ok ⟨declared, after, hd⟩ =>
        (readNamespaceBody src space braced after).map fun l =>
          ((l.map (declared ++ ·)).past hd).left := by
  have other :
      ∀ u ∈ [Token.mark .closeBrace, .mark .semicolon, .keyword .usingKw, .keyword .externKw,
      .keyword .namespaceKw], t.token ≠ u :=
    fun u listed same => starts.other u listed (congrArg some same)
  rw [readNamespaceBody, if_neg fun h => other _ (by decide) h.2, if_neg (other _ (by decide)),
    if_neg fun h => h.elim (other _ (by decide)) (by simp [starts.globally]),
    if_neg (other _ (by decide)), if_neg (other _ (by decide))]
  exact if_neg (by simp [starts.target])

/-- A declaration is read, and then the body behind it. -/
theorem exists_declared {value : List Part} {after : List Item} (starts : StartsDeclaration ts)
    (nonempty : ts ≠ []) (h : Passes (readNamespaceBody src space braced ts) value after) :
    ∃ parts rest more, Takes (readTopLevel src space ts) parts rest ∧
      Passes (readNamespaceBody src space braced rest) more after ∧ value = parts ++ more := by
  obtain ⟨t, r, rfl⟩ := List.exists_cons_of_ne_nil nonempty
  obtain ⟨_, h⟩ := h
  rw [readNamespaceBody_declared starts] at h
  split at h
  · cases h
  rename_i parts rest _ top
  obtain ⟨more, others, same⟩ := map_eq_ok h
  cases same
  exact ⟨parts, rest, more.value, ⟨_, top⟩, ⟨_, others⟩, rfl⟩

/-- A body is read as its first part and then as the body behind it. -/
theorem Adds.passes_iff {value : List Part} {after : List Item} (h : Adds src space ts parts rest) :
    Passes (readNamespaceBody src space braced ts) value after ↔
      ∃ more, Passes (readNamespaceBody src space braced rest) more after ∧
        value = parts ++ more := by
  have onward : (readNamespaceBody src space braced ts).map (fun l => (l.value, l.rest)) =
      (readNamespaceBody src space braced rest).map (fun l => (parts ++ l.value, l.rest)) := by
    cases h with
    | @empty t _ semicolon =>
      rw [readNamespaceBody, if_neg (by simp [semicolon]), if_pos semicolon]
      cases readNamespaceBody src space braced rest <;> rfl
    | @imported t r _ _ keyword imports =>
      obtain ⟨_, imports⟩ := imports
      have other : ∀ m, t.token ≠ .mark m := by
        intro m marked
        simp [isGlobalUsing, Item.token?, marked] at keyword
      rw [readNamespaceBody, if_neg fun h => other _ h.2, if_neg (other _), if_pos keyword, imports]
      simp only
      cases readNamespaceBody src space braced rest <;> rfl
    | @externs t r keyword =>
      rw [readNamespaceBody, if_neg (by simp [keyword]), if_neg (by simp [keyword]),
        if_neg (by simp [isGlobalUsing, Item.token?, keyword]), if_pos keyword]
      cases readNamespaceBody src space braced (Skip.wholeMember r) <;> rfl
    | @inner t brace r inside _ name _ keyword named opens body =>
      obtain ⟨_, named⟩ := named
      obtain ⟨_, opened⟩ : Takes (readMark .openBrace (brace :: inside)) () inside :=
        takes_readMark rfl opens
      obtain ⟨_, body⟩ := body
      have wrapped : Item.isMark .semicolon (brace :: inside) = false :=
        TypeSyntax.isMark_of_mark opens (by decide)
      rw [readNamespaceBody, if_neg (by simp [keyword]), if_neg (by simp [keyword]),
        if_neg (by simp [isGlobalUsing, Item.token?, keyword]), if_neg (by simp [keyword]),
        if_pos keyword, named]
      simp only [wrapped, Bool.false_eq_true, if_false, opened, body]
      cases readNamespaceBody src space braced rest <;> rfl
    | @target t r target =>
      have list : t.token = .mark .openBracket := by
        simp only [isGlobalAttribute, Item.isMark, Bool.and_eq_true, beq_iff_eq] at target
        exact Option.some.inj target.1.1
      rw [readNamespaceBody, if_neg (by simp [list]), if_neg (by simp [list]),
        if_neg (by simp [isGlobalUsing, Item.token?, list]), if_neg (by simp [list]),
        if_neg (by simp [list]), if_pos target]
      cases readNamespaceBody src space braced (Skip.wholeGroup .openBracket .closeBracket r) <;>
        rfl
    | declared starts top =>
      obtain ⟨taken, top⟩ := top
      cases ts with
      | nil => exact absurd taken.1 (Nat.not_lt_zero _)
      | cons t r =>
        rw [readNamespaceBody_declared starts, top]
        simp only
        cases readNamespaceBody src space braced rest <;> rfl
  rw [Host.passes_iff, onward]
  constructor
  · intro same
    cases body : readNamespaceBody src space braced rest with
    | error e =>
      rw [body] at same
      cases same
    | ok l =>
      rw [body] at same
      cases same
      exact ⟨l.value, ⟨l.short, rfl⟩, rfl⟩
  · rintro ⟨more, ⟨_, body⟩, rfl⟩
    rw [body]
    rfl

/-- A namespace declared without braces holds for the rest of the body. -/
theorem passes_scoped_iff {t : Item} {r : List Item} {name : String} {value : List Part}
    (keyword : t.token = .keyword .namespaceKw) (named : Takes (readQualifiedName r) name rest)
    (ends : Item.isMark .semicolon rest = true) :
    Passes (readNamespaceBody src space braced (t :: r)) value us ↔
      Passes (readNamespaceBody src (qualify space name) braced rest.tail) value us := by
  obtain ⟨_, named⟩ := named
  rw [Host.passes_iff, Host.passes_iff, readNamespaceBody, if_neg (by simp [keyword]),
    if_neg (by simp [keyword]), if_neg (by simp [isGlobalUsing, Item.token?, keyword]),
    if_neg (by simp [keyword]), if_pos keyword, named]
  simp only [ends, if_true]
  cases readNamespaceBody src (qualify space name) braced rest.tail <;> exact Iff.rfl

/-- What the body of a namespace is: nothing, the brace that closes it, the rest of it in a
namespace declared without braces, or a part and the body behind it. -/
inductive Divides (src : List Char) (space : String) :
    Bool → List Item → List Part → List Item → Prop
  | ends : Divides src space false [] [] []
  | closes {t : Item} {r : List Item} : t.token = .mark .closeBrace →
    Divides src space true (t :: r) [] (dropMark .semicolon r)
  | onward {t : Item} {r after rest : List Item} {name : String} {braced : Bool}
    {value : List Part} :
    t.token = .keyword .namespaceKw → Takes (readQualifiedName r) name after →
    Item.isMark .semicolon after = true →
    Passes (readNamespaceBody src (qualify space name) braced after.tail) value rest →
    Divides src space braced (t :: r) value rest
  | part {ts mid rest : List Item} {parts more : List Part} {braced : Bool} :
    Adds src space ts parts mid → Passes (readNamespaceBody src space braced mid) more rest →
    Divides src space braced ts (parts ++ more) rest

theorem Divides.passes {value : List Part} (h : Divides src space braced ts value rest) :
    Passes (readNamespaceBody src space braced ts) value rest := by
  cases h with
  | ends => exact passes_readNamespaceBody_nil
  | closes closes =>
    rw [Host.passes_iff, readNamespaceBody, if_pos ⟨rfl, closes⟩]
    rfl
  | onward keyword named ends body => exact (passes_scoped_iff keyword named ends).mpr body
  | part adds body => exact adds.passes_iff.mpr ⟨_, body, rfl⟩

theorem divides {value : List Part}
    (h : Passes (readNamespaceBody src space braced ts) value rest) :
    Divides src space braced ts value rest := by
  have divided : ∀ {parts mid}, Adds src space ts parts mid →
      Divides src space braced ts value rest := by
    intro parts mid adds
    obtain ⟨more, body, rfl⟩ := adds.passes_iff.mp h
    exact .part adds body
  obtain ⟨_, read⟩ := h
  cases ts with
  | nil =>
    rw [readNamespaceBody] at read
    cases braced with
    | true => cases read
    | false =>
      cases read
      exact .ends
  | cons t r =>
    rw [readNamespaceBody] at read
    split at read
    · rename_i closes
      obtain ⟨rfl, closes⟩ := closes
      cases read
      exact .closes closes
    split at read
    · rename_i semicolon
      exact divided (.empty semicolon)
    split at read
    · rename_i keyword
      split at read
      · cases read
      rename_i imports
      exact divided (.imported keyword ⟨_, imports⟩)
    rename_i imported
    split at read
    · rename_i keyword
      exact divided (.externs keyword)
    rename_i externs
    split at read
    · rename_i keyword
      split at read
      · cases read
      rename_i name afterName _ named
      split at read
      · rename_i ends
        obtain ⟨l, body, same⟩ := map_eq_ok read
        cases same
        exact .onward keyword ⟨_, named⟩ ends ⟨_, body⟩
      · split at read
        · cases read
        rename_i inside _ opened
        obtain ⟨brace, whole, opens⟩ := exists_of_readMark opened
        have named : Takes (readQualifiedName r) name (brace :: inside) := whole ▸ ⟨_, named⟩
        split at read
        · cases read
        rename_i body
        exact divided (.inner keyword named opens ⟨_, body⟩)
    rename_i space
    split at read
    · rename_i target
      exact divided (.target target)
    rename_i target
    split at read
    · cases read
    rename_i top
    have bracket : ∀ m, m ≠ Mark.openBracket → t.token ≠ .mark m := by
      intro m other marked
      exact not_takes_readTopLevel other (by simp [Item.isMark, Item.token?, marked]) ⟨_, top⟩
    refine divided (.declared ⟨?_, ?_, Bool.not_eq_true _ ▸ target⟩ ⟨_, top⟩)
    · simp only [List.mem_cons, List.not_mem_nil, or_false]
      rintro u (rfl | rfl | rfl | rfl | rfl) same
      · exact bracket _ (by decide) (Option.some.inj same)
      · exact bracket _ (by decide) (Option.some.inj same)
      · exact imported (.inl (Option.some.inj same))
      · exact externs (Option.some.inj same)
      · exact space (Option.some.inj same)
    · exact Bool.not_eq_true _ ▸ fun globally => imported (.inr globally)

theorem Adds.shorter (h : Adds src space ts parts rest) : rest.length < ts.length := by
  cases h with
  | empty => exact Nat.lt_succ_self _
  | @imported t r _ _ keyword imports =>
    obtain ⟨short, _⟩ := imports
    exact Nat.lt_succ_of_le (Nat.le_trans short.1 (afterUsing_short t r).1)
  | @externs t r => exact Nat.lt_succ_of_le (Skip.wholeMember_short r).1
  | @inner t brace r inside _ name _ _ named opens body =>
    obtain ⟨taken, _⟩ := named
    obtain ⟨short, _⟩ := body
    have := taken.1
    have := short.1
    simp only [List.length_cons] at *
    omega
  | @target t r => exact Nat.lt_succ_of_le (Skip.wholeGroup_short _ _ r).1
  | declared _ top =>
    obtain ⟨taken, _⟩ := top
    exact taken.1

theorem Beside.ahead {n : Nat} (h : Beside ts us) (small : n < 3) :
    Item.ahead n us = Item.ahead n ts := by
  cases h with
  | mk => match n, small with | 0, _ | 1, _ | 2, _ => rfl

theorem Beside.isGlobalUsing (h : Beside ts us) : isGlobalUsing us = isGlobalUsing ts := by
  rw [Host.isGlobalUsing, Host.isGlobalUsing, h.near.token?, h.ahead (by decide)]

theorem Beside.isGlobalAttribute (h : Beside ts us) :
    isGlobalAttribute us = isGlobalAttribute ts := by
  rw [Host.isGlobalAttribute, Host.isGlobalAttribute, h.near.isMark, h.ahead (by decide),
    h.ahead (by decide)]

theorem Beside.startsDeclaration (h : Beside ts us) (starts : StartsDeclaration ts) :
    StartsDeclaration us := by
  refine ⟨fun u listed => ?_, h.isGlobalUsing.trans starts.globally,
    h.isGlobalAttribute.trans starts.target⟩
  rw [h.near.token?]
  exact starts.other u listed

/-- The items behind the keyword of a using directive that may have `global` before it. -/
theorem follows_afterUsing (t : Item) (r : List Item) :
    Follows O (fun ts us => ∃ q, ts = t :: q ∧ afterUsing t q = us) (t :: r)
      (afterUsing t r) := by
  unfold afterUsing
  split
  · rename_i keyword
    refine (Keeps.follows (Keeps.first t r)).imp ?_
    rintro _ us rfl
    exact ⟨us, rfl, rfl⟩
  · cases r with
    | nil => exact .of_nil _
    | cons u r =>
      refine (Keeps.follows ((Keeps.first t (u :: r)).trans (Keeps.first u r))).imp ?_
      rintro _ us ⟨_, rfl, rfl⟩
      exact ⟨u :: us, rfl, rfl⟩

mutual
theorem follows_adds {ts : List Item} {space : String} {parts : List Part} {rest : List Item}
    (h : Adds O.source space ts parts rest) :
    Follows O (fun ts us => Adds O.source' space ts parts us) ts rest := by
  cases h with
  | @empty t _ semicolon =>
    refine (Keeps.follows (Keeps.first t rest)).imp ?_
    rintro _ us rfl
    exact .empty semicolon
  | @imported t r _ _ keyword imports =>
    obtain ⟨_, imports⟩ := imports
    refine ((follows_afterUsing t r).trans (follows_readUsing imports)).beside.imp ?_
    rintro _ us ⟨beside, _, ⟨q, rfl, rfl⟩, imports⟩
    exact .imported (keyword.imp id beside.isGlobalUsing.trans) imports
  | @externs t r keyword =>
    refine ((Keeps.follows (Keeps.first t r)).trans (follows_wholeMember r)).imp ?_
    rintro _ us ⟨q, rfl, rfl⟩
    exact .externs keyword
  | @inner t brace r inside _ name _ keyword named opens body =>
    have fewer : inside.length < (t :: r).length := by
      obtain ⟨taken, _⟩ := named
      have := taken.1
      simp only [List.length_cons] at *
      omega
    obtain ⟨_, named⟩ := named
    have head := ((Keeps.first (O := O) t r).trans (keeps_readQualifiedName named)).trans
      (Keeps.first brace inside)
    refine ((Keeps.follows head).trans (follows_divides (divides body))).imp ?_
    rintro _ us ⟨_, ⟨_, ⟨_, rfl, named⟩, rfl⟩, body⟩
    exact .inner keyword named opens body
  | @target t r target =>
    refine ((Keeps.follows (Keeps.first t r)).trans (follows_wholeGroup _ _ r)).beside.imp ?_
    rintro _ us ⟨beside, q, rfl, rfl⟩
    exact .target (beside.isGlobalAttribute.trans target)
  | declared starts top =>
    refine (follows_readTopLevel top).beside.imp ?_
    rintro ts us ⟨beside, top⟩
    exact .declared (beside.startsDeclaration starts) top
termination_by 2 * ts.length
decreasing_by omega

theorem follows_divides {ts : List Item} {space : String} {braced : Bool} {value : List Part}
    {rest : List Item} (h : Divides O.source space braced ts value rest) :
    Follows O (fun ts us => Passes (readNamespaceBody O.source' space braced ts) value us)
      ts rest := by
  match ts, h with
  | _, .ends => exact .of_nil _
  | _, @Divides.closes _ _ t r closes =>
    have brace : Seals O (fun ts us => ts = t :: us) (t :: r) r :=
      .first (closes ▸ Token.isQuiet_mark _) r
    refine (Keeps.follows (Stops.keeps (stops_dropMark brace))).imp ?_
    rintro _ us ⟨q, rfl, rfl⟩
    exact (Divides.closes closes).passes
  | _, @Divides.onward _ _ t r after _ name _ _ keyword named ends body =>
    have fewer : after.tail.length < (t :: r).length := by
      obtain ⟨taken, _⟩ := named
      have := taken.1
      rw [List.length_tail, List.length_cons]
      omega
    obtain ⟨_, named⟩ := named
    have head := ((Keeps.first (O := O) t r).trans (keeps_readQualifiedName named)).trans
      (Seals.keeps (seals_tail ends))
    refine ((Keeps.follows head).trans (follows_divides (divides body))).imp ?_
    rintro _ us ⟨_, ⟨_, ⟨_, rfl, named⟩, ends, rfl⟩, body⟩
    exact (Divides.onward keyword named ends body).passes
  | ts, .part adds body =>
    have shorter := adds.shorter
    refine ((follows_adds adds).trans (follows_divides (divides body))).imp ?_
    rintro ts us ⟨mid, adds, body⟩
    exact adds.passes_iff.mpr ⟨_, body, rfl⟩
termination_by 2 * ts.length + 1
decreasing_by all_goals omega
end

end Ambient.Host
