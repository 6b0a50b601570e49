import Ambient.Proofs.Source.Names

/-!
# What holds of declarations read from source

A declaration in a source has a word for a name, and so have its members. Only a class holds
other declarations, which are in the namespace of the class. An enum has no bases, and there are
no external types.
-/
namespace Ambient.Host

/-- A namespace: the global one or words between dots. -/
def IsSpace (space : String) : Prop := space = "" ∨ IsDotted space

/-- What a declaration read in the namespace `space` is like. -/
inductive TypeDecl.FromSource (space : String) : TypeDecl → Prop
  | intro {t : TypeDecl} (name : IsWord t.name) (inSpace : t.space = space)
    (members : ∀ m ∈ t.members, IsWord m.name) (enum : t.kind = .enumKind → t.bases = [])
    (holds : t.kind ≠ .classKind → t.nested = [])
    (nested : ∀ u ∈ t.nested, FromSource space u) :
    FromSource space t

structure File.FromSource (f : File) : Prop where
  types : ∀ t ∈ f.types, ∃ space, IsSpace space ∧ t.FromSource space
  external : f.externalTypes = []

namespace TypeDecl.FromSource
variable {space : String} {t u : TypeDecl}

theorem word (h : t.FromSource space) : IsWord t.name := by
  cases h
  assumption

theorem space_eq (h : t.FromSource space) : t.space = space := by
  cases h
  assumption

theorem member (h : t.FromSource space) {m : Member} (hm : m ∈ t.members) : IsWord m.name := by
  cases h with
  | intro _ _ members => exact members m hm

theorem nested_nil (h : t.FromSource space) (kind : t.kind ≠ .classKind) : t.nested = [] := by
  cases h with
  | intro _ _ _ _ holds => exact holds kind

theorem of_nested (h : t.FromSource space) (hu : u ∈ t.nested) : u.FromSource space := by
  cases h with
  | intro _ _ _ _ _ nested => exact nested u hu

end TypeDecl.FromSource

theorem isSpace_qualify {space name : String} (h : IsSpace space) (dotted : IsDotted name) :
    IsSpace (qualify space name) := by
  unfold qualify
  split
  · exact .inr dotted
  · rename_i inner
    rcases h with rfl | outer
    · exact absurd rfl inner
    · exact .inr (outer.append dotted)

theorem isWord_of_readEnumValues {src : List Char} {ts : List Item} {s : Step (List Member) ts}
    (wordy : Wordy ts) (h : readEnumValues src ts = .ok s) : ∀ m ∈ s.value, IsWord m.name := by
  fun_induction readEnumValues src ts with
  | case1 => cases h
  | case2 => cases h
  | case3 => cases h; simp
  | case4 => cases h
  | case5 => cases h
  | case6 ts lead t r hl _ _ name afterName hn read _ u q hi _ value _ =>
    rename_i ih
    obtain ⟨more, rest, rfl⟩ := map_eq_ok h
    have start := wordy.suffix hl.2
    have word := isWord_of_readName start read
    have others := ih (start.suffix ((List.suffix_cons u q).trans (hi.2.trans hn.2))) rest
    simpa [value] using ⟨word, others⟩
  | case7 ts lead t r hl _ _ name afterName hn read =>
    cases h
    simpa using isWord_of_readName (wordy.suffix hl.2) read
  | case8 => cases h

theorem isWord_of_readParameters {src : List Char} {ts : List Item} {s : Step (List Member) ts}
    (wordy : Wordy ts) (h : readParameters src ts = .ok s) : ∀ m ∈ s.value, IsWord m.name := by
  fun_induction readParameters src ts with
  | case1 => cases h
  | case2 => cases h
  | case3 => cases h
  | case4 => cases h
  | case5 ts _ _ hl _ hm _ _ ht _ name _ hn read _ _ _ _ _ parameter =>
    cases h
    have start := wordy.suffix (ht.2.trans (hm.2.trans hl.2))
    simpa [parameter, plainMember] using isWord_of_readName start read
  | case6 ts _ _ hl _ hm _ _ ht _ name _ hn read _ t r hd _ parameter _ _ =>
    rename_i ih
    obtain ⟨more, rest, rfl⟩ := map_eq_ok h
    have start := wordy.suffix (ht.2.trans (hm.2.trans hl.2))
    have word := isWord_of_readName start read
    have others := ih (start.suffix ((List.suffix_cons t r).trans (hd.2.trans hn.2))) rest
    simpa [parameter, plainMember] using ⟨word, others⟩
  | case7 => cases h

theorem isWord_of_readParameterList {src : List Char} {ts : List Item}
    {l : Left (List Member) ts} (wordy : Wordy ts) (h : readParameterList src ts = .ok l) :
    ∀ m ∈ l.value, IsWord m.name := by
  unfold readParameterList at h
  split at h
  · cases h
    simp
  · rename_i t r
    repeat' split at h
    · cases h
      simp
    · obtain ⟨s, read, rfl⟩ := map_eq_ok h
      have inside := isWord_of_readParameters (wordy.suffix (List.suffix_cons t r)) read
      exact inside
    · cases h
      simp

theorem isWord_of_readFieldNames {name : String} {ts : List Item} {s : Step (List String) ts}
    (wordy : Wordy ts) (word : IsWord name) (h : readFieldNames name ts = .ok s) :
    ∀ n ∈ s.value, IsWord n := by
  fun_induction readFieldNames name ts with
  | case1 => cases h
  | case2 => cases h
  | case3 ts name _ t r hd _ _ next after hn read ih =>
    obtain ⟨more, rest, rfl⟩ := map_eq_ok h
    have start := wordy.suffix ((List.suffix_cons t r).trans hd.2)
    have others := ih (start.suffix hn.2) (isWord_of_readName start read) rest
    simpa using ⟨word, others⟩
  | case4 =>
    cases h
    simpa using word
  | case5 => cases h

theorem isWord_of_readMemberTail {src : List Char} {name : String} {ts : List Item}
    {l : Left (List String) ts} (wordy : Wordy ts) (word : IsWord name)
    (h : readMemberTail src name ts = .ok l) : ∀ n ∈ l.value, IsWord n := by
  unfold readMemberTail at h
  split at h
  any_goals cases h
  any_goals simp [Skip.passMember]
  · obtain ⟨s, read, rfl⟩ := map_eq_ok h
    intro n hn
    simp only [Left.value_within, Step.value_left, Step.value_map] at hn
    split at hn
    · rw [List.mem_singleton.mp hn]
      exact word
    · cases hn
  · exact word
  all_goals
    obtain ⟨s, read, rfl⟩ := map_eq_ok h
    have inside := isWord_of_readFieldNames wordy word read
    exact inside

theorem isWord_of_readMember {src : List Char} {typeName : String} {lead : Lead}
    {modifiers : Modifiers} {ts : List Item} {s : Step (List Member) ts} (wordy : Wordy ts)
    (h : readMember src typeName lead modifiers ts = .ok s) : ∀ m ∈ s.value, IsWord m.name := by
  unfold readMember at h
  split at h
  · cases h
    simp
  · split at h
    · cases h
    · rename_i writtenType afterType ht _
      split at h
      · cases h
        simp [Skip.passMember]
      · split at h
        · cases h
        · rename_i name afterName hn read
          obtain ⟨l, tail, rfl⟩ := map_eq_ok h
          have start := wordy.suffix ht.2
          have words := isWord_of_readMemberTail (start.suffix hn.2) (isWord_of_readName start read)
            tail
          intro m hm
          simp only [Step.value_past, Left.value_past, Left.value_map] at hm
          split at hm
          · obtain ⟨n, hn, rfl⟩ := List.mem_map.mp hm
            exact words n hn
          · cases hm

theorem readHeader_spec {src : List Char} {ts : List Item} {s : Step Header ts} (wordy : Wordy ts)
    (h : readHeader src ts = .ok s) :
    IsWord s.value.name ∧ (∀ m ∈ s.value.parameters, IsWord m.name) ∧
      (s.value.kind = .enumKind → s.value.bases = []) := by
  unfold readHeader at h
  split at h
  · cases h
  · rename_i kind afterKind hk _
    split at h
    · cases h
    · rename_i name afterName hn read
      split at h
      rename_i afterGroup hg _
      split at h
      · cases h
      · rename_i parameters afterParameters hp list
        obtain ⟨l, _, rfl⟩ := map_eq_ok h
        have start := wordy.suffix hk.2
        refine ⟨isWord_of_readName start read, ?_, ?_⟩
        · exact isWord_of_readParameterList ((start.suffix hn.2).suffix hg.2) list
        · intro enum
          exact if_pos enum

theorem fromSource_declare {space : String} {header : Header} {lead : Lead} {body : Body}
    (name : IsWord header.name) (parameters : ∀ m ∈ header.parameters, IsWord m.name)
    (enum : header.kind = .enumKind → header.bases = [])
    (members : ∀ m ∈ body.members, IsWord m.name)
    (holds : header.kind ≠ .classKind → body.nested = [])
    (nested : ∀ u ∈ body.nested, u.FromSource space) :
    (header.declare space lead body).FromSource space := by
  refine .intro name rfl ?_ enum holds nested
  intro m hm
  rcases List.mem_append.mp hm with hm | hm
  · exact parameters m hm
  · exact members m hm

mutual
theorem fromSource_of_readType {src : List Char} {space : String} {lead : Lead} {ts : List Item}
    {s : Step TypeDecl ts} (wordy : Wordy ts) (h : readType src space lead ts = .ok s) :
    s.value.FromSource space := by
  rw [readType] at h
  split at h
  · cases h
  · rename_i header afterHeader hh read
    obtain ⟨name, parameters, enum⟩ := readHeader_spec wordy read
    have empty : (header.declare space lead .empty).FromSource space :=
      fromSource_declare name parameters enum (by simp [Body.empty]) (fun _ => rfl)
        (by simp [Body.empty])
    split at h
    · cases h
      exact empty
    · split at h
      · cases h
      · rename_i inside hi _
        have start := (wordy.suffix hh.2).suffix hi.2
        split at h
        · cases h
          exact empty
        · obtain ⟨values, read, rfl⟩ := map_eq_ok h
          exact fromSource_declare name parameters enum (isWord_of_readEnumValues start read)
            (fun _ => rfl) (by simp)
        · rename_i kind
          obtain ⟨body, read, rfl⟩ := map_eq_ok h
          obtain ⟨members, nested⟩ := fromSource_of_readClassBody start read
          exact fromSource_declare name parameters enum members (fun other => absurd kind other)
            nested
termination_by 2 * ts.length
decreasing_by omega

theorem fromSource_of_readClassBody {src : List Char} {typeName space : String} {ts : List Item}
    {s : Step Body ts} (wordy : Wordy ts) (h : readClassBody src typeName space ts = .ok s) :
    (∀ m ∈ s.value.members, IsWord m.name) ∧
    ∀ u ∈ s.value.nested, u.FromSource space := by
  match ts with
  | [] =>
    rw [readClassBody] at h
    cases h
  | t :: r =>
    have tail := wordy.suffix (List.suffix_cons t r)
    have size : (t :: r).length = r.length + 1 := List.length_cons
    rw [readClassBody] at h
    split at h
    · cases h
      simp [Body.empty]
    · split at h
      · obtain ⟨s, read, rfl⟩ := map_eq_ok h
        have rest := fromSource_of_readClassBody tail read
        exact rest
      · split at h
        · cases h
        · rename_i lead afterLead hl _
          split at h
          rename_i modifiers start hm _
          have front := (wordy.suffix hl.2).suffix hm.2
          split at h
          · split at h
            · cases h
            · rename_i decl after hd read
              obtain ⟨s, more, rfl⟩ := map_eq_ok h
              have declared := fromSource_of_readType front read
              have rest := fromSource_of_readClassBody (front.suffix hd.2) more
              refine ⟨rest.1, ?_⟩
              intro u hu
              rcases List.mem_cons.mp hu with rfl | hu
              · exact declared
              · exact rest.2 u hu
          · split at h
            · cases h
            · rename_i members after hd read
              obtain ⟨s, more, rfl⟩ := map_eq_ok h
              have rest := fromSource_of_readClassBody (front.suffix hd.2) more
              refine ⟨?_, rest.2⟩
              intro m hm
              rcases List.mem_append.mp hm with hm | hm
              · exact isWord_of_readMember front read m hm
              · exact rest.1 m hm
termination_by 2 * ts.length + 1
decreasing_by all_goals omega
end

/-- What a part of a namespace body is like. -/
def Part.FromSource : Part → Prop
  | .imported _ => True
  | .declared decl => ∃ space, IsSpace space ∧ decl.FromSource space

theorem fromSource_of_readTopLevel {src : List Char} {space : String} {ts : List Item}
    {s : Step (List Part) ts} (wordy : Wordy ts) (inSpace : IsSpace space)
    (h : readTopLevel src space ts = .ok s) : ∀ p ∈ s.value, p.FromSource := by
  unfold readTopLevel at h
  split at h
  · cases h
  · rename_i lead afterLead hl _
    split at h
    · cases h
    · rename_i t r hm _
      split at h
      · cases h
        simp [Skip.passMember]
      · obtain ⟨s, read, rfl⟩ := map_eq_ok h
        intro p hp
        rw [List.mem_singleton.mp hp]
        exact ⟨space, inSpace, fromSource_of_readType ((wordy.suffix hl.2).suffix hm.2) read⟩

theorem fromSource_of_readUsing {ts : List Item} {l : Left (List Part) ts}
    (h : readUsing ts = .ok l) : ∀ p ∈ l.value, p.FromSource := by
  unfold readUsing at h
  repeat' split at h
  · cases h
    simp [Skip.passMember]
  · cases h
  · cases h
  · obtain ⟨s, read, rfl⟩ := map_eq_ok h
    intro p hp
    rw [List.mem_singleton.mp hp]
    trivial

theorem fromSource_of_readNamespaceBody {src : List Char} {space : String} {braced : Bool}
    {ts : List Item} {l : Left (List Part) ts} (wordy : Wordy ts) (inSpace : IsSpace space)
    (h : readNamespaceBody src space braced ts = .ok l) : ∀ p ∈ l.value, p.FromSource := by
  fun_induction readNamespaceBody src space braced ts with
  | case1 => cases h
  | case2 => cases h; simp
  | case3 => cases h; simp
  | case4 space braced t r _ _ ih =>
    obtain ⟨more, read, rfl⟩ := map_eq_ok h
    exact ih (wordy.suffix (List.suffix_cons t r)) inSpace read
  | case5 => cases h
  | case6 space braced t r _ _ _ ha imported after hu read ih =>
    obtain ⟨more, rest, rfl⟩ := map_eq_ok h
    have start := wordy.suffix (List.suffix_cons t r)
    intro p hp
    rcases List.mem_append.mp hp with hp | hp
    · exact fromSource_of_readUsing read p hp
    · exact ih ((start.suffix ha.2).suffix hu.2) inSpace rest p hp
  | case7 space braced t r _ _ _ _ hs ih =>
    obtain ⟨more, rest, rfl⟩ := map_eq_ok h
    exact ih ((wordy.suffix (List.suffix_cons t r)).suffix hs.2) inSpace rest
  | case8 => cases h
  | case9 space braced t r _ _ _ _ _ name afterName hn read _ ht ih =>
    obtain ⟨more, rest, rfl⟩ := map_eq_ok h
    have start := wordy.suffix (List.suffix_cons t r)
    exact ih ((start.suffix hn.2).suffix ht.2)
      (isSpace_qualify inSpace (isDotted_of_readQualifiedName start read)) rest
  | case10 => cases h
  | case11 => cases h
  | case12 space braced t r _ _ _ _ _ name afterName hn read _ _ inside hi _ inner after ha more
      ihInner ih =>
    obtain ⟨l, rest, rfl⟩ := map_eq_ok h
    have start := wordy.suffix (List.suffix_cons t r)
    have within := (start.suffix hn.2).suffix hi.2
    have nested := ihInner within
      (isSpace_qualify inSpace (isDotted_of_readQualifiedName start read)) more
    intro p hp
    rcases List.mem_append.mp hp with hp | hp
    · exact nested p hp
    · exact ih (within.suffix ha.2) inSpace rest p hp
  | case13 space braced t r _ _ _ _ _ _ hg ih =>
    obtain ⟨more, rest, rfl⟩ := map_eq_ok h
    exact ih ((wordy.suffix (List.suffix_cons t r)).suffix hg.2) inSpace rest
  | case14 => cases h
  | case15 space braced t r _ _ _ _ _ _ declared after hd read ih =>
    obtain ⟨more, rest, rfl⟩ := map_eq_ok h
    intro p hp
    rcases List.mem_append.mp hp with hp | hp
    · exact fromSource_of_readTopLevel wordy inSpace read p hp
    · exact ih (wordy.suffix hd.2) inSpace rest p hp

/-- What a source declares is as declarations read from source are. -/
theorem fromSource_of_parse {path : Path} {text : String} {f : File}
    (h : File.parse path text = .ok f) : f.FromSource ∧ f.path = path := by
  unfold File.parse at h
  split at h
  · cases h
  · rename_i parts read
    cases h
    refine ⟨⟨?_, rfl⟩, rfl⟩
    intro t ht
    obtain ⟨part, hp, declares⟩ := List.mem_filterMap.mp ht
    have known := fromSource_of_readNamespaceBody (Item.ofText_wordy text) (.inl rfl) read part hp
    cases part with
    | imported space => cases declares
    | declared decl =>
      cases declares
      exact known

end Ambient.Host
