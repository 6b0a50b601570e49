import Ambient.Proofs.Formatting.Types
import Ambient.Proofs.Source.Cuts
import Ambient.Proofs.Source.Cutting

/-!
# Types that are kept as text

The type of a member and the bases of a type are kept as they are written, white space around them
aside. Read on its own, such a text gives the type that was read at its place in the source.
-/
namespace Ambient

open Host

namespace TypeSyntax

/-- A type that is read from all of a list is read from every text with these tokens. -/
theorem parse_of_takes {taken : List Item} {ty : TypeSyntax} {written : String}
    (read : Takes (TypeSyntax.read taken) ty [])
    (tokens : (Item.ofText written).map (·.token) = taken.map (·.token)) :
    TypeSyntax.parse written = .ok ty := by
  let p : Pairing := ⟨taken, Item.ofText written, id⟩
  have start : p.At taken (Item.ofText written) := by
    refine ⟨List.suffix_rfl, List.suffix_rfl, ?_⟩
    rw [tokens]
    exact List.map_congr_left fun i _ => i.token.retext_id.symm
  have agree := Pairing.agree_read start
  obtain ⟨_, read⟩ := read
  rw [read] at agree
  rw [parse]
  generalize TypeSyntax.read (Item.ofText written) = x at agree ⊢
  cases agree with
  | @ok _ s' type =>
    obtain ⟨ty', rest', short'⟩ := s'
    obtain rfl : ty = ty' := type.1
    have after : p.At [] rest' := type.2
    obtain rfl := after.nil_right
    rfl

end TypeSyntax

namespace Host
variable {text : String} {src : List Char} {ts rest : List Item}

/-- What is kept of a type reads again as the type that was read. -/
theorem parse_writtenText {s : Step TypeSyntax ts} (there : ts <:+ Item.ofText text)
    (h : TypeSyntax.read ts = .ok s) :
    TypeSyntax.parse (writtenText text.toList ts s.rest) = .ok s.value := by
  obtain ⟨taken, whole, plain⟩ := TypeSyntax.plain_of_read h
  obtain ⟨taken', whole', again⟩ := TypeSyntax.survives_read h
  obtain rfl : taken' = taken := List.append_cancel_right (whole'.symm.trans whole)
  have alone := again [] (.nil _)
  rw [List.append_nil] at alone
  refine TypeSyntax.parse_of_takes alone ?_
  cases taken' with
  | nil =>
    have shorter := s.shorter.1
    rw [List.nil_append] at whole
    rw [← whole] at shorter
    exact absurd shorter (Nat.lt_irrefl _)
  | cons t more =>
    have kept := tokens_writtenText (whole ▸ there) plain
    rwa [← whole] at kept

/-- The text `written` is that of a type at some place of the source, with `rest` behind it, and
reads again as the type that was read there. -/
def ReadsBack (text written : String) (rest : List Item) : Prop :=
  ∃ ts ty, ts <:+ Item.ofText text ∧ Takes (TypeSyntax.read ts) ty rest ∧
    written = writtenText text.toList ts rest ∧ TypeSyntax.parse written = .ok ty

/-- The items `ts` begin with a name, and `name` is this one or one of the names that a field
declares with it. -/
def NamedFrom (ts : List Item) (name : String) : Prop :=
  ∃ first after, Takes (readName ts) first after ∧
    (name = first ∨ ∃ names rest, Takes (readFieldNames first after) names rest ∧
      name ∈ names)

/-- The type of the member stands in front of its name in the source. -/
def Member.Readable (text : String) (m : Member) : Prop :=
  ∃ rest, ReadsBack text m.typeName rest ∧ NamedFrom rest m.name

/-- The types of the members of a type, its bases and what is nested in it can be read again. -/
inductive TypeDecl.Readable (text : String) : TypeDecl → Prop
  | intro {t : TypeDecl} (members : t.kind ≠ .enumKind → ∀ m ∈ t.members, m.Readable text)
    (bases : ∀ b ∈ t.bases, ∃ rest, ReadsBack text b rest)
    (nested : ∀ u ∈ t.nested, u.Readable text) : Readable text t

theorem readsBack_of_readWrittenType {s : Step String ts} (there : ts <:+ Item.ofText text)
    (h : readWrittenType text.toList ts = .ok s) : ReadsBack text s.value s.rest := by
  unfold readWrittenType at h
  split at h
  · cases h
  · rename_i ty rest shorter read
    cases h
    exact ⟨ts, ty, there, ⟨shorter, read⟩, rfl, parse_writtenText there read⟩

theorem readable_of_readParameters {s : Step (List Member) ts} (there : ts <:+ Item.ofText text)
    (h : readParameters text.toList ts = .ok s) : ∀ m ∈ s.value, m.Readable text := by
  fun_induction readParameters text.toList ts with
  | case1 => cases h
  | case2 => cases h
  | case3 => cases h
  | case4 => cases h
  | case5 ts _ _ hl _ hm typeName afterType ht type name afterName hn read _ _ _ _ _ parameter =>
    cases h
    have start := hm.2.trans (hl.2.trans there)
    have kept := readsBack_of_readWrittenType start type
    intro m hm
    rw [List.mem_singleton.mp hm]
    exact ⟨afterType, kept, name, afterName, ⟨hn, read⟩, .inl rfl⟩
  | case6 ts _ _ hl _ hm typeName afterType ht type name afterName hn read _ t r hd _
      parameter _ _ =>
    rename_i ih
    obtain ⟨more, rest, rfl⟩ := map_eq_ok h
    have start := hm.2.trans (hl.2.trans there)
    have kept := readsBack_of_readWrittenType start type
    have others :=
      ih ((List.suffix_cons t r).trans (hd.2.trans (hn.2.trans (ht.2.trans start)))) rest
    intro m hm
    rcases List.mem_cons.mp hm with rfl | hm
    · exact ⟨afterType, kept, name, afterName, ⟨hn, read⟩, .inl rfl⟩
    · exact others m hm
  | case7 => cases h

theorem readable_of_readParameterList {l : Left (List Member) ts} (there : ts <:+ Item.ofText text)
    (h : readParameterList text.toList ts = .ok l) : ∀ m ∈ l.value, m.Readable text := by
  unfold readParameterList at h
  split at h
  · cases h
    simp
  · rename_i t r
    repeat' split at h
    · cases h
      simp
    · obtain ⟨s, read, rfl⟩ := map_eq_ok h
      have inside := readable_of_readParameters ((List.suffix_cons t r).trans there) read
      exact inside
    · cases h
      simp

/-- The names that a member declares are its first one or those of a field. -/
theorem namedFrom_of_readMemberTail {first : String} {l : Left (List String) rest}
    (front : Takes (readName ts) first rest) (h : readMemberTail src first rest = .ok l) :
    ∀ name ∈ l.value, NamedFrom ts name := by
  unfold readMemberTail at h
  split at h
  any_goals cases h
  any_goals simp [Skip.passMember]
  · obtain ⟨s, read, rfl⟩ := map_eq_ok h
    intro name hn
    simp only [Left.value_within, Step.value_left, Step.value_map] at hn
    split at hn
    · rw [List.mem_singleton.mp hn]
      exact ⟨first, rest, front, .inl rfl⟩
    · cases hn
  · exact ⟨first, rest, front, .inl rfl⟩
  all_goals
    obtain ⟨s, read, rfl⟩ := map_eq_ok h
    intro name hn
    exact ⟨first, rest, front, .inr ⟨s.value, s.rest, ⟨s.shorter, read⟩, hn⟩⟩

theorem readable_of_readMember {typeName : String} {lead : Lead} {modifiers : Modifiers}
    {s : Step (List Member) ts} (there : ts <:+ Item.ofText text)
    (h : readMember text.toList typeName lead modifiers ts = .ok s) :
    ∀ m ∈ s.value, m.Readable text := by
  unfold readMember at h
  split at h
  · cases h
    simp
  · split at h
    · cases h
    · rename_i writtenType afterType ht type
      have kept := readsBack_of_readWrittenType there type
      split at h
      · cases h
        simp [Skip.passMember]
      · split at h
        · cases h
        · rename_i name afterName hn read
          obtain ⟨l, tail, rfl⟩ := map_eq_ok h
          have names := namedFrom_of_readMemberTail ⟨hn, read⟩ tail
          intro m hm
          simp only [Step.value_past, Left.value_past, Left.value_map] at hm
          split at hm
          · obtain ⟨n, hn, rfl⟩ := List.mem_map.mp hm
            exact ⟨afterType, kept, names n hn⟩
          · cases hm

theorem readsBack_of_readBases {s : Step (List String) ts} (there : ts <:+ Item.ofText text)
    (h : readBases text.toList ts = .ok s) :
    ∀ b ∈ s.value, ∃ rest, ReadsBack text b rest := by
  fun_induction readBases text.toList ts with
  | case1 => cases h
  | case2 ts base afterType ht type =>
    cases h
    intro b hb
    rw [List.mem_singleton.mp hb]
    exact ⟨_, readsBack_of_readWrittenType there type⟩
  | case3 ts base afterType ht type _ t r hg _ comma ih =>
    obtain ⟨more, rest, rfl⟩ := map_eq_ok h
    have others := ih ((List.suffix_cons t r).trans (hg.2.trans (ht.2.trans there))) rest
    intro b hb
    rcases List.mem_cons.mp hb with rfl | hb
    · exact ⟨_, readsBack_of_readWrittenType there type⟩
    · exact others b hb
  | case4 ts base afterType ht type =>
    cases h
    intro b hb
    rw [List.mem_singleton.mp hb]
    exact ⟨_, readsBack_of_readWrittenType there type⟩

theorem readsBack_of_readBaseList {l : Left (List String) ts} (there : ts <:+ Item.ofText text)
    (h : readBaseList text.toList ts = .ok l) :
    ∀ b ∈ l.value, ∃ rest, ReadsBack text b rest := by
  unfold readBaseList at h
  split at h
  · cases h
    simp
  · rename_i t r
    split at h
    · obtain ⟨s, read, rfl⟩ := map_eq_ok h
      have inside := readsBack_of_readBases ((List.suffix_cons t r).trans there) read
      exact inside
    · cases h
      simp

theorem readable_of_readHeader {s : Step Header ts} (there : ts <:+ Item.ofText text)
    (h : readHeader text.toList ts = .ok s) :
    (∀ m ∈ s.value.parameters, m.Readable text) ∧
      ∀ b ∈ s.value.bases, ∃ rest, ReadsBack text b rest := by
  unfold readHeader at h
  split at h
  · cases h
  · rename_i kind afterKind hk _
    split at h
    · cases h
    · rename_i name afterName hn _
      split at h
      rename_i afterGroup hg _
      split at h
      · cases h
      · rename_i parameters afterParameters hp list
        obtain ⟨l, bases, rfl⟩ := map_eq_ok h
        have start := hg.2.trans (hn.2.trans (hk.2.trans there))
        refine ⟨readable_of_readParameterList start list, ?_⟩
        intro b hb
        have kept : b ∈ if kind = .enumKind then [] else l.value := hb
        split at kept
        · cases kept
        · exact readsBack_of_readBaseList (hp.2.trans start) bases b kept

mutual
theorem readable_of_readType {space : String} {lead : Lead} {ts : List Item} {s : Step TypeDecl ts}
    (there : ts <:+ Item.ofText text) (h : readType text.toList space lead ts = .ok s) :
    s.value.Readable text := by
  rw [readType] at h
  split at h
  · cases h
  · rename_i header afterHeader hh read
    obtain ⟨parameters, bases⟩ := readable_of_readHeader there read
    have empty : (header.declare space lead .empty).Readable text := by
      refine .intro (fun _ m hm => parameters m ?_) bases fun u hu => nomatch hu
      simpa [Header.declare, Body.empty] using hm
    split at h
    · cases h
      exact empty
    · split at h
      · cases h
      · rename_i inside hi _
        have start := hi.2.trans (hh.2.trans there)
        split at h
        · cases h
          exact empty
        · rename_i kind
          obtain ⟨values, read, rfl⟩ := map_eq_ok h
          exact .intro (fun other => absurd kind other) bases fun u hu => nomatch hu
        · obtain ⟨body, read, rfl⟩ := map_eq_ok h
          obtain ⟨members, nested⟩ := readable_of_readClassBody start read
          refine .intro (fun _ m hm => ?_) bases nested
          rcases List.mem_append.mp hm with hm | hm
          · exact parameters m hm
          · exact members m hm
termination_by 2 * ts.length
decreasing_by omega

theorem readable_of_readClassBody {typeName space : String} {ts : List Item} {s : Step Body ts}
    (there : ts <:+ Item.ofText text) (h : readClassBody text.toList typeName space ts = .ok s) :
    (∀ m ∈ s.value.members, m.Readable text) ∧ ∀ u ∈ s.value.nested, u.Readable text := by
  match ts with
  | [] =>
    rw [readClassBody] at h
    cases h
  | t :: r =>
    have tail := (List.suffix_cons t r).trans there
    have size : (t :: r).length = r.length + 1 := List.length_cons
    rw [readClassBody] at h
    split at h
    · cases h
      simp [Body.empty]
    · split at h
      · obtain ⟨s, read, rfl⟩ := map_eq_ok h
        have rest := readable_of_readClassBody tail read
        exact rest
      · split at h
        · cases h
        · rename_i lead afterLead hl _
          split at h
          rename_i modifiers start hm _
          have front := hm.2.trans (hl.2.trans there)
          split at h
          · split at h
            · cases h
            · rename_i decl after hd read
              obtain ⟨s, more, rfl⟩ := map_eq_ok h
              have declared := readable_of_readType front read
              have rest := readable_of_readClassBody (hd.2.trans front) more
              refine ⟨rest.1, ?_⟩
              intro u hu
              rcases List.mem_cons.mp hu with rfl | hu
              · exact declared
              · exact rest.2 u hu
          · split at h
            · cases h
            · rename_i members after hd read
              obtain ⟨s, more, rfl⟩ := map_eq_ok h
              have rest := readable_of_readClassBody (hd.2.trans front) more
              refine ⟨?_, rest.2⟩
              intro m hm
              rcases List.mem_append.mp hm with hm | hm
              · exact readable_of_readMember front read m hm
              · exact rest.1 m hm
termination_by 2 * ts.length + 1
decreasing_by all_goals omega
end

/-- What is declared in a part of a namespace body can be read again. -/
def Part.Readable (text : String) : Part → Prop
  | .imported _ => True
  | .declared decl => decl.Readable text

theorem readable_of_readTopLevel {space : String} {s : Step (List Part) ts}
    (there : ts <:+ Item.ofText text) (h : readTopLevel text.toList space ts = .ok s) :
    ∀ p ∈ s.value, p.Readable text := by
  unfold readTopLevel at h
  split at h
  · cases h
  · rename_i lead afterLead hl _
    split at h
    · cases h
    · rename_i t r hm _
      split at h
      · cases h
        simp [Skip.passMember]
      · obtain ⟨s, read, rfl⟩ := map_eq_ok h
        intro p hp
        rw [List.mem_singleton.mp hp]
        exact readable_of_readType (hm.2.trans (hl.2.trans there)) read

theorem readable_of_readUsing {l : Left (List Part) ts} (h : readUsing ts = .ok l) :
    ∀ p ∈ l.value, p.Readable text := by
  unfold readUsing at h
  repeat' split at h
  · cases h
    simp [Skip.passMember]
  · cases h
  · cases h
  · obtain ⟨s, read, rfl⟩ := map_eq_ok h
    intro p hp
    rw [List.mem_singleton.mp hp]
    trivial

theorem readable_of_readNamespaceBody {space : String} {braced : Bool} {l : Left (List Part) ts}
    (there : ts <:+ Item.ofText text) (h : readNamespaceBody text.toList space braced ts = .ok l) :
    ∀ p ∈ l.value, p.Readable text := by
  fun_induction readNamespaceBody text.toList space braced ts with
  | case1 => cases h
  | case2 => cases h; simp
  | case3 => cases h; simp
  | case4 space braced t r _ _ ih =>
    obtain ⟨more, read, rfl⟩ := map_eq_ok h
    exact ih ((List.suffix_cons t r).trans there) read
  | case5 => cases h
  | case6 space braced t r _ _ _ ha imported after hu read ih =>
    obtain ⟨more, rest, rfl⟩ := map_eq_ok h
    intro p hp
    rcases List.mem_append.mp hp with hp | hp
    · exact readable_of_readUsing read p hp
    · exact ih (hu.2.trans (ha.2.trans ((List.suffix_cons t r).trans there))) rest p hp
  | case7 space braced t r _ _ _ _ hs ih =>
    obtain ⟨more, rest, rfl⟩ := map_eq_ok h
    exact ih (hs.2.trans ((List.suffix_cons t r).trans there)) rest
  | case8 => cases h
  | case9 space braced t r _ _ _ _ _ name afterName hn read _ ht ih =>
    obtain ⟨more, rest, rfl⟩ := map_eq_ok h
    exact ih (ht.2.trans (hn.2.trans ((List.suffix_cons t r).trans there))) rest
  | case10 => cases h
  | case11 => cases h
  | case12 space braced t r _ _ _ _ _ name afterName hn read _ _ inside hi _ inner after ha more
      ihInner ih =>
    obtain ⟨l, rest, rfl⟩ := map_eq_ok h
    have within := hi.2.trans (hn.2.trans ((List.suffix_cons t r).trans there))
    intro p hp
    rcases List.mem_append.mp hp with hp | hp
    · exact ihInner within more p hp
    · exact ih (ha.2.trans within) rest p hp
  | case13 space braced t r _ _ _ _ _ _ hg ih =>
    obtain ⟨more, rest, rfl⟩ := map_eq_ok h
    exact ih (hg.2.trans ((List.suffix_cons t r).trans there)) rest
  | case14 => cases h
  | case15 space braced t r _ _ _ _ _ _ declared after hd read ih =>
    obtain ⟨more, rest, rfl⟩ := map_eq_ok h
    intro p hp
    rcases List.mem_append.mp hp with hp | hp
    · exact readable_of_readTopLevel there read p hp
    · exact ih (hd.2.trans there) rest p hp

/-- Every type that is kept of a source, of a member or a base, at any depth, reads again as the
type that was read at its place. -/
theorem readable_of_parse {path : Path} {f : File} (h : File.parse path text = .ok f) :
    ∀ t ∈ f.types, t.Readable text := by
  unfold File.parse at h
  split at h
  · cases h
  · rename_i parts read
    cases h
    intro t ht
    obtain ⟨part, hp, declares⟩ := List.mem_filterMap.mp ht
    have known := readable_of_readNamespaceBody List.suffix_rfl read part hp
    cases part with
    | imported space => cases declares
    | declared decl =>
      cases declares
      exact known

/-- A tuple with a qualified name, a question mark and a comment in it. -/
def pairText : String :=
  "class Pair \x7b public (int a, global::App . Box<string?> /* kept */ b)[] Both \x7b get; \x7d \x7d"

def pairFile : File :=
  ⟨⟨"/p/Pair.cs"⟩, [], [⟨"Pair", "", .classKind, [], none, [⟨"Both",
    "(int a, global::App . Box<string?> /* kept */ b)[]", none, none, []⟩], [], []⟩], []⟩

theorem readable_of_parse_of_pair : ∃ rest,
    ReadsBack pairText "(int a, global::App . Box<string?> /* kept */ b)[]" rest ∧
      NamedFrom rest "Both" := by
  have parsed : File.parse ⟨"/p/Pair.cs"⟩ pairText = .ok pairFile := by with_unfolding_all rfl
  have readable := readable_of_parse parsed _ List.mem_cons_self
  cases readable with
  | intro members =>
    exact members (fun enum => nomatch enum)
      ⟨"Both", "(int a, global::App . Box<string?> /* kept */ b)[]", none, none, []⟩
      List.mem_cons_self

end Host

end Ambient
