import Ambient.Proofs.Insertion.Members

/-!
# Headers read alike

What a type is declared with is read up to its body, or to the semicolon it has in place of one.
-/
namespace Ambient.Host
variable {O : Overlap} {src : List Char} {ts us rest after : List Item}

theorem readKind_cons {kind : Kind} {t : Item} (declares : declaredKind? t.token = some kind)
    (r : List Item) : readKind (t :: r) =
      if t.token = .keyword .recordKw ∧ isClassOrStruct (Item.token? r) then
        .ok ((Left.tail kind r).behind t)
      else .ok (.one kind t r) := by
  rw [readKind]
  split
  · rename_i none
    cases declares.symm.trans none
  · rename_i other found
    cases declares.symm.trans found
    rfl

/-- The kind of a declaration shows in one item, or in two behind `record`. -/
theorem keeps_readKind {s : Step Kind ts} (h : readKind ts = .ok s) :
    Keeps O (fun ts us => Takes (readKind ts) s.value us) ts s.rest := by
  cases ts with
  | nil => cases h
  | cons t r =>
    cases declares : declaredKind? t.token with
    | none =>
      rw [readKind] at h
      split at h
      · cases h
      · rename_i kind found
        cases declares.symm.trans found
    | some kind =>
      rw [readKind_cons declares] at h
      split at h
      · rename_i record
        cases h
        cases r with
        | nil => cases record.2
        | cons u q =>
          refine ⟨[t, u], rfl, fun _ us _ => ?_⟩
          show Takes (readKind (t :: u :: us)) kind us
          have record' : t.token = .keyword .recordKw ∧
              isClassOrStruct (Item.token? (u :: us)) := record
          rw [readKind_cons declares, if_pos record']
          exact ⟨_, rfl⟩
      · rename_i single
        cases h
        refine ⟨[t], rfl, fun _ us near => ?_⟩
        show Takes (readKind (t :: us)) kind us
        have single' : ¬ (t.token = .keyword .recordKw ∧ isClassOrStruct (Item.token? us)) :=
          near.token? ▸ single
        rw [readKind_cons declares, if_neg single']
        exact ⟨_, rfl⟩

theorem keeps_skipGroupAt (opening closing : Mark) (ts : List Item) :
    Keeps O (fun ts us => skipGroupAt opening closing ts = us) ts
      (skipGroupAt opening closing ts) := by
  by_cases opens : Item.isMark opening ts = true
  · have inside : skipGroupAt opening closing ts = Skip.wholeGroup opening closing ts.tail :=
      if_pos opens
    by_cases ends : Skip.wholeGroup opening closing ts.tail = []
    · rw [inside, ends]
      exact .of_nil ts
    · rw [inside]
      refine ((seals_tail opens).keeps.seals (seals_group ends)).keeps.imp ?_
      rintro ts us ⟨_, ⟨opens, rfl⟩, passed⟩
      rw [skipGroupAt, if_pos opens]
      exact passed
  · rw [skipGroupAt, if_neg opens]
    exact .keep fun us near => if_neg (by rwa [near.isMark])

theorem keeps_readParameterList {l : Left (List Member) ts}
    (h : readParameterList O.source ts = .ok l) :
    Keeps O (fun ts us => Passes (readParameterList O.source' ts) l.value us) ts l.rest := by
  unfold readParameterList at h
  split at h
  · cases h
    exact .nil
  · rename_i t r
    split at h
    · rename_i opens
      split at h
      · rename_i closes
        cases h
        refine ((seals_tail closes).keeps.behind t).imp ?_
        rintro _ us ⟨_, rfl, closes, rfl⟩
        rw [readParameterList, if_pos opens, if_pos closes]
        exact ⟨_, rfl⟩
      · rename_i other
        obtain ⟨s, parameters, rfl⟩ := map_eq_ok h
        refine ((keeps_readParameters parameters).near.behind t).imp ?_
        rintro _ us ⟨r', rfl, near, _, parameters⟩
        rw [readParameterList, if_pos opens, near.isMark, if_neg other, parameters]
        exact ⟨_, rfl⟩
    · rename_i other
      cases h
      refine .keep_cons fun q _ => ?_
      rw [readParameterList, if_neg other]
      exact ⟨_, rfl⟩

theorem takes_readBases_on {base : String} {bases : List String} {type : List Item} {t : Item}
    (read : Takes (readWrittenType src ts) base type)
    (passed : skipGroupAt .openParen .closeParen type = t :: rest)
    (others : t.token = .mark .comma ∧ Takes (readBases src rest) bases after ∨
      t.token ≠ .mark .comma ∧ bases = [] ∧ t :: rest = after) :
    Takes (readBases src ts) (base :: bases) after := by
  obtain ⟨_, read⟩ := read
  obtain ⟨_, group⟩ := leaves_passGroup passed
  rw [takes_iff, readBases, read]
  simp only
  rw [group]
  rcases others with ⟨comma, _, again⟩ | ⟨other, rfl, rfl⟩
  · simp only [comma, if_true, again]
    rfl
  · simp only [if_neg other]
    rfl

/-- Whatever follows a type in front of the arguments of a base. -/
theorem plain_of_skipGroupAt {m : Mark} (other : m ≠ .openParen)
    (plain : Item.isMark m (skipGroupAt .openParen .closeParen ts) = false) :
    Item.isMark m ts = false := by
  by_cases opens : Item.isMark .openParen ts = true
  · exact isMark_ne opens other.symm
  · rwa [skipGroupAt, if_neg opens] at plain

theorem keeps_readBases {s : Step (List String) ts} (h : readBases O.source ts = .ok s)
    (plain : ∀ m ∈ [Mark.dot, .openBracket], Item.isMark m s.rest = false) :
    Keeps O (fun ts us => Takes (readBases O.source' ts) s.value us) ts s.rest := by
  fun_induction readBases O.source ts with
  | case1 => cases h
  | case2 =>
    cases h
    exact .of_nil _
  | case3 ts base type _ read _ t r _ group comma ih =>
    obtain ⟨inner, more, rfl⟩ := map_eq_ok h
    have passed : skipGroupAt .openParen .closeParen type = t :: r := congrArg Left.rest group
    have second := keeps_skipGroupAt (O := O) .openParen .closeParen type
    have apart : ∀ m, m ≠ .comma → m ≠ .openParen → Item.isMark m type = false :=
      fun m other opens => plain_of_skipGroupAt opens
        (passed ▸ TypeSyntax.isMark_of_mark comma other.symm)
    rw [passed] at second
    refine ((keeps_readWrittenType read (apart _ (by decide) (by decide))
      (apart _ (by decide) (by decide))).trans (second.trans ((ih more plain).behind t))).imp ?_
    rintro ts us ⟨_, read, _, passed, _, rfl, more⟩
    exact takes_readBases_on read passed (.inl ⟨comma, more⟩)
  | case4 ts base type _ read _ t r _ group other =>
    cases h
    have passed : skipGroupAt .openParen .closeParen type = t :: r := congrArg Left.rest group
    have second := keeps_skipGroupAt (O := O) .openParen .closeParen type
    have apart : ∀ m ∈ [Mark.dot, .openBracket], Item.isMark m type = false := by
      intro m hm
      refine plain_of_skipGroupAt ?_ (passed ▸ plain m hm)
      rintro rfl
      simp at hm
    rw [passed] at second
    obtain ⟨taken, whole, again⟩ := (keeps_readWrittenType (O := O) read (apart _ (by decide))
      (apart _ (by decide))).trans second
    refine ⟨taken, whole, fun shared us near => ?_⟩
    obtain ⟨_, read, passed⟩ := again shared us near
    obtain ⟨_, _, q, begin, rfl⟩ := near.exists_cons
    cases begin
    exact takes_readBases_on read passed (.inr ⟨other, rfl, rfl⟩)

theorem keeps_readBaseList {l : Left (List String) ts} (h : readBaseList O.source ts = .ok l)
    (plain : ∀ m ∈ [Mark.dot, .openBracket], Item.isMark m l.rest = false) :
    Keeps O (fun ts us => Passes (readBaseList O.source' ts) l.value us) ts l.rest := by
  unfold readBaseList at h
  split at h
  · cases h
    exact .nil
  · rename_i t r
    split at h
    · rename_i colon
      obtain ⟨s, bases, rfl⟩ := map_eq_ok h
      refine ((keeps_readBases bases plain).behind t).imp ?_
      rintro _ us ⟨q, rfl, _, bases⟩
      rw [readBaseList, if_pos colon, bases]
      exact ⟨_, rfl⟩
    · rename_i other
      cases h
      refine .keep_cons fun q _ => ?_
      rw [readBaseList, if_neg other]
      exact ⟨_, rfl⟩

theorem keeps_skipConstraints (ts : List Item) :
    Keeps O (fun ts us => skipConstraints ts = us) ts (skipConstraints ts) := by
  have same : ∀ {us}, Near ts us → Item.isKeyword .whereKw us = Item.isKeyword .whereKw ts := by
    intro us near
    rw [Item.isKeyword, Item.isKeyword, near.token?]
  by_cases constrained : Item.isKeyword .whereKw ts = true
  · rw [skipConstraints, if_pos constrained]
    refine (keeps_dropWhile _ ts).near.imp ?_
    rintro us rest ⟨near, passed⟩
    rw [skipConstraints, if_pos (by rwa [same near])]
    exact passed
  · rw [skipConstraints, if_neg constrained]
    exact .keep fun us near => if_neg (by rwa [same near])

theorem takes_readHeader_on {kind : Kind} {name : String} {parameters : List Member}
    {bases : List String} {a b c d e : List Item} (declares : Takes (readKind ts) kind a)
    (named : Takes (readName a) name b) (group : skipGroupAt .openAngle .closeAngle b = c)
    (list : Passes (readParameterList src c) parameters d)
    (based : Passes (readBaseList src d) bases e) (constraints : skipConstraints e = rest) :
    Takes (readHeader src ts) ⟨kind, name, parameters, if kind = .enumKind then [] else bases⟩
      rest := by
  obtain ⟨_, declares⟩ := declares
  obtain ⟨_, named⟩ := named
  obtain ⟨_, group⟩ := leaves_passGroup group
  obtain ⟨_, list⟩ := list
  obtain ⟨_, based⟩ := based
  subst constraints
  rw [takes_iff, readHeader, declares]
  simp only [named]
  rw [group]
  simp only [list, based]
  rfl

/-- Where a declaration goes on with its body or ends without one. -/
def EndsHeader (ts : List Item) : Prop :=
  Item.isMark .openBrace ts = true ∨ Item.isMark .semicolon ts = true

theorem EndsHeader.isMark {m : Mark} (h : EndsHeader ts) (brace : m ≠ .openBrace)
    (semicolon : m ≠ .semicolon) : Item.isMark m ts = false :=
  h.elim (isMark_ne · brace.symm) (isMark_ne · semicolon.symm)

theorem keeps_readHeader {s : Step Header ts} (h : readHeader O.source ts = .ok s)
    (ends : EndsHeader s.rest) :
    Keeps O (fun ts us => Takes (readHeader O.source' ts) s.value us) ts s.rest := by
  unfold readHeader at h
  split at h
  · cases h
  · rename_i kind afterKind _ declares
    split at h
    · cases h
    · rename_i name afterName _ named
      split at h
      rename_i afterGroup _ group
      split at h
      · cases h
      · rename_i parameters afterParameters _ list
        obtain ⟨l, based, rfl⟩ := map_eq_ok h
        have passed : skipGroupAt .openAngle .closeAngle afterName = afterGroup :=
          congrArg Left.rest group
        have third := keeps_skipGroupAt (O := O) .openAngle .closeAngle afterName
        rw [passed] at third
        have plain : ∀ m ∈ [Mark.dot, .openBracket], Item.isMark m l.rest = false := by
          intro m hm
          by_cases constrained : Item.isKeyword .whereKw l.rest = true
          · obtain ⟨t, r, whole, token⟩ := exists_of_isKeyword constrained
            rw [whole]
            simp [Item.isMark, Item.token?, token]
          · have rest : skipConstraints l.rest = l.rest := if_neg constrained
            have ends : EndsHeader l.rest := rest ▸ ends
            refine ends.isMark ?_ ?_ <;>
              · rintro rfl
                simp at hm
        have front := (keeps_readKind (O := O) declares).trans ((keeps_readName named).trans third)
        have back := (keeps_readParameterList list).trans ((keeps_readBaseList based plain).trans
          (keeps_skipConstraints l.rest))
        refine (front.trans back).imp ?_
        rintro ts us ⟨_, ⟨_, declares, _, named, group⟩, _, list, _, based, constraints⟩
        exact takes_readHeader_on declares named group list based constraints

end Ambient.Host
