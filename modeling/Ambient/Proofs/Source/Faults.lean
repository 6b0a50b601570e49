import Ambient.Proofs.Source.Turns
import Ambient.Proofs.Source.Types

/-!
# Where faults lie

A reader that fails does so in front of items that are left of those it was given, or where none are
left. So the fault lies at the start of an item, or at the end of the text.
-/
namespace Ambient
variable {α β : Type} {ts us : List Item} {fault : SyntaxFault}

/-- The fault lies at the first of some items that are left of `ts`, or at the end if none are. -/
def SyntaxFault.Within (fault : SyntaxFault) (ts : List Item) : Prop :=
  ∃ us, us <:+ ts ∧ fault.start = Item.start? us

namespace SyntaxFault.Within

theorem of_faultAt {cause : Option Token → SyntaxCause}
    (h : faultAt (α := α) cause ts = .error fault) : fault.Within ts := by
  cases h
  exact ⟨ts, List.suffix_rfl, rfl⟩

theorem of_short (h : fault.Within us) (short : Short us ts) : fault.Within ts := by
  obtain ⟨vs, left, start⟩ := h
  exact ⟨vs, left.trans short.2, start⟩

theorem of_shorter (h : fault.Within us) (shorter : Shorter us ts) : fault.Within ts :=
  h.of_short shorter.short

theorem behind (h : fault.Within us) (t : Item) : fault.Within (t :: us) :=
  h.of_shorter (shorter_cons t us)

theorem of_readName (h : readName ts = .error fault) : fault.Within ts := by
  unfold readName at h
  split at h
  · exact of_faultAt h
  · split at h
    · cases h
    · exact of_faultAt h

theorem of_readMark {m : Mark} (h : readMark m ts = .error fault) : fault.Within ts := by
  unfold readMark at h
  split at h
  · exact of_faultAt h
  · split at h
    · cases h
    · exact of_faultAt h

end SyntaxFault.Within

/-- A loop fails in one of its turns. -/
theorem Loop.Advances.within {σ : Type} {l : Loop σ α} {s : σ} (advances : l.Advances)
    (fails : ∀ {s e}, l.turn s = .error e → e.Within (l.items s))
    (failed : l.read s = .error fault) :
    fault.Within (l.items s) := by
  induction size : (l.items s).length using Nat.strongRecOn generalizing s with
  | ind n ih =>
    subst size
    have first := advances s
    generalize turned : l.turn s = turn at first
    cases first with
    | fails read =>
      cases read.symm.trans failed
      exact fails turned
    | ends read => cases read.symm.trans failed
    | goesOn read shorter =>
      exact (ih _ shorter.1 (map_eq_error (read.symm.trans failed)) rfl).of_shorter shorter

namespace TypeSyntax

theorem within_of_readSuffixes {core : TypeSyntax} {ts : List Item}
    (h : readSuffixes core ts = .error fault) : fault.Within ts := by
  match ts, h with
  | [], h =>
    rw [readSuffixes] at h
    cases h
  | t :: r, h =>
    have short := dropCommas_short r
    rw [readSuffixes] at h
    split at h
    · split at h
      · cases h
      · exact (within_of_readSuffixes (map_eq_error h)).behind t
    · exact (within_of_readSuffixes (map_eq_error h)).behind t
    · split at h
      · split at h
        · rename_i failed
          cases h
          exact ((SyntaxFault.Within.of_readMark failed).of_short short).behind t
        · rename_i shorter _
          have inside := within_of_readSuffixes (map_eq_error h)
          exact ((inside.of_shorter shorter).of_short short).behind t
      · cases h
    · cases h
termination_by ts.length
decreasing_by all_goals simp only [Short, Shorter, List.length_cons] at *; omega

theorem ListForm.ReadBy.within {f : ListForm}
    {more : (us : List Item) → Read (Step (List TypeSyntax) us)} {ts : List Item}
    (reads : f.ReadBy more) (item : read ts = .error fault → fault.Within ts)
    (list : ∀ us, Shorter us ts → more us = .error fault → fault.Within us)
    (h : more ts = .error fault) : fault.Within ts := by
  obtain failed | ⟨first, -, failed | ⟨comma, -, failed, shorter⟩⟩ := reads.cases_of_error h
  · exact item failed
  · exact ((SyntaxFault.Within.of_readMark failed).of_short (f.short first.rest)).of_shorter
      first.shorter
  · exact (list _ shorter failed).of_shorter shorter

mutual
theorem within_of_read {ts : List Item} (h : read ts = .error fault) : fault.Within ts := by
  match ts, h with
  | [], h =>
    rw [read] at h
    exact .of_faultAt h
  | t :: r, h =>
    rw [read] at h
    split at h
    · split at h
      · rename_i failed
        cases h
        exact (within_of_readTuple failed).behind t
      · rename_i shorter _
        exact ((within_of_readSuffixes (map_eq_error h)).of_shorter shorter).behind t
    · split at h
      · rename_i failed
        cases h
        exact within_of_readNamed failed
      · rename_i shorter _
        exact (within_of_readSuffixes (map_eq_error h)).of_shorter shorter
termination_by 5 * ts.length + 1
decreasing_by all_goals simp only [List.length_cons]; omega

theorem within_of_readTuple {ts : List Item} (h : readTuple ts = .error fault) :
    fault.Within ts :=
  ListForm.elements_readBy.within within_of_read (fun _ _ failed => within_of_readTuple failed) h
termination_by 5 * ts.length + 2
decreasing_by all_goals omega

theorem within_of_readNamed {ts : List Item} (h : readNamed ts = .error fault) :
    fault.Within ts := by
  have short := dropGlobal_short ts
  rw [readNamed] at h
  split at h
  · rename_i failed
    cases h
    exact (SyntaxFault.Within.of_readName failed).of_short short
  · rename_i shorter _
    exact ((within_of_readSegments (map_eq_error h)).of_shorter shorter).of_short short
termination_by 5 * ts.length + 0
decreasing_by all_goals simp only [Short] at *; omega

theorem within_of_readSegments {name : String} {args : List TypeSyntax} {ts : List Item}
    (h : readSegments name args ts = .error fault) : fault.Within ts := by
  rw [readSegments] at h
  split at h
  · rename_i failed
    cases h
    exact within_of_readArguments? failed
  rename_i args after short _
  split at h
  · rename_i shorter _
    exact ((within_of_readSegments (map_eq_error h)).of_shorter shorter).of_short short
  split at h
  · have tail := short_tail after
    split at h
    · rename_i failed
      cases h
      exact ((SyntaxFault.Within.of_readName failed).of_short tail).of_short short
    · rename_i shorter _
      exact (((within_of_readSegments (map_eq_error h)).of_shorter shorter).of_short tail).of_short
        short
  · cases h
termination_by 5 * ts.length + 4
decreasing_by all_goals simp only [Short, Shorter] at *; omega

theorem within_of_readArguments? {args : List TypeSyntax} {ts : List Item}
    (h : readArguments? args ts = .error fault) : fault.Within ts := by
  match ts, h with
  | [], h =>
    rw [readArguments?] at h
    cases h
  | t :: r, h =>
    rw [readArguments?] at h
    split at h
    · exact (within_of_readArguments (map_eq_error h)).behind t
    · cases h
termination_by 5 * ts.length + 3
decreasing_by all_goals simp only [List.length_cons]; omega

theorem within_of_readArguments {ts : List Item} (h : readArguments ts = .error fault) :
    fault.Within ts :=
  ListForm.arguments_readBy.within within_of_read
    (fun _ _ failed => within_of_readArguments failed) h
termination_by 5 * ts.length + 2
decreasing_by all_goals omega
end

end TypeSyntax

namespace Host
variable {src : List Char}

theorem within_of_readDotted {name : String} (h : readDotted name ts = .error fault) :
    fault.Within ts := by
  fun_induction readDotted name ts with
  | case1 | case4 => cases h
  | case2 name t r _ e failed =>
    cases h
    exact (SyntaxFault.Within.of_readName failed).behind t
  | case3 name t r _ segment after shorter _ ih =>
    exact ((ih (map_eq_error h)).of_shorter shorter).behind t

theorem within_of_readQualifiedName (h : readQualifiedName ts = .error fault) :
    fault.Within ts := by
  have short := dropGlobal_short ts
  rw [readQualifiedName] at h
  split at h
  · rename_i failed
    cases h
    exact (SyntaxFault.Within.of_readName failed).of_short short
  · rename_i shorter _
    exact ((within_of_readDotted (map_eq_error h)).of_shorter shorter).of_short short

theorem within_of_readArguments (h : readArguments src ts = .error fault) : fault.Within ts := by
  fun_induction readArguments src ts with
  | case1 ts _ afterName named _ _ short =>
    exact ((SyntaxFault.Within.of_faultAt h).of_short short).of_short named
  | case2 => cases h
  | case3 ts _ afterName named _ _ t r short _ _ _ ih =>
    exact (((ih (map_eq_error h)).behind t).of_short short).of_short named
  | case4 ts _ afterName named _ _ t r short =>
    exact ((SyntaxFault.Within.of_faultAt h).of_short short).of_short named

theorem within_of_readArgumentList (h : readArgumentList src ts = .error fault) :
    fault.Within ts := by
  unfold readArgumentList at h
  split at h
  · cases h
  · split at h
    · split at h
      · cases h
      · exact (within_of_readArguments (map_eq_error h)).behind _
    · cases h

theorem within_of_readAttributes (h : readAttributes src ts = .error fault) : fault.Within ts := by
  fun_induction readAttributes src ts with
  | case1 ts e failed =>
    cases h
    exact within_of_readQualifiedName failed
  | case2 ts _ afterName named _ e failed =>
    cases h
    exact (within_of_readArgumentList failed).of_shorter named
  | case3 ts _ afterName named _ _ after listed _ _ tail ih =>
    exact (((ih (map_eq_error h)).of_short tail).of_short listed).of_shorter named
  | case4 ts _ afterName named _ _ after listed =>
    exact ((SyntaxFault.Within.of_readMark (map_eq_error h)).of_short listed).of_shorter named

theorem within_of_readAttributeLists (h : readAttributeLists src ts = .error fault) :
    fault.Within ts := by
  fun_induction readAttributeLists src ts with
  | case1 | case4 => cases h
  | case2 t r _ target e failed =>
    cases h
    exact ((within_of_readAttributes failed).of_short target).behind t
  | case3 t r _ target _ after shorter _ ih =>
    exact (((ih (map_eq_error h)).of_shorter shorter).of_short target).behind t

theorem within_of_readLead (h : readLead src ts = .error fault) : fault.Within ts := by
  unfold readLead at h
  split at h
  · rename_i failed
    cases h
    exact within_of_readAttributeLists failed
  · cases h

theorem within_of_readWrittenType (h : readWrittenType src ts = .error fault) :
    fault.Within ts := by
  unfold readWrittenType at h
  split at h
  · rename_i failed
    cases h
    exact TypeSyntax.within_of_read failed
  · cases h

theorem within_of_readEnumValues (h : readEnumValues src ts = .error fault) : fault.Within ts := by
  fun_induction readEnumValues src ts with
  | case1 ts e failed =>
    cases h
    exact within_of_readLead failed
  | case2 ts _ lead => exact (SyntaxFault.Within.of_faultAt h).of_short lead
  | case3 | case7 => cases h
  | case4 ts _ t r lead _ _ e failed =>
    cases h
    exact (SyntaxFault.Within.of_readName failed).of_short lead
  | case5 ts _ t r lead _ _ _ afterName named _ _ init =>
    exact (((SyntaxFault.Within.of_faultAt h).of_short init).of_shorter named).of_short lead
  | case6 ts _ t r lead _ _ _ afterName named _ _ u q init _ _ _ ih =>
    exact ((((ih (map_eq_error h)).behind u).of_short init).of_shorter named).of_short lead
  | case8 ts _ t r lead _ _ _ afterName named _ _ u q init =>
    exact (((SyntaxFault.Within.of_faultAt h).of_short init).of_shorter named).of_short lead

theorem within_of_readParameters (h : readParameters src ts = .error fault) : fault.Within ts := by
  fun_induction readParameters src ts with
  | case1 ts e failed =>
    cases h
    exact within_of_readAttributeLists failed
  | case2 ts _ _ lists _ modifiers e failed =>
    cases h
    exact ((within_of_readWrittenType failed).of_short modifiers).of_short lists
  | case3 ts _ _ lists _ modifiers _ _ type _ e failed =>
    cases h
    exact (((SyntaxFault.Within.of_readName failed).of_shorter type).of_short modifiers).of_short
      lists
  | case4 ts _ _ lists _ modifiers _ _ type _ _ _ named _ _ value =>
    have here := ((SyntaxFault.Within.of_faultAt h).of_short value).of_shorter named
    exact ((here.of_shorter type).of_short modifiers).of_short lists
  | case5 => cases h
  | case6 ts _ _ lists _ modifiers _ _ type _ _ _ named _ _ t r value _ _ _ _ ih =>
    have here := (((ih (map_eq_error h)).behind t).of_short value).of_shorter named
    exact ((here.of_shorter type).of_short modifiers).of_short lists
  | case7 ts _ _ lists _ modifiers _ _ type _ _ _ named _ _ t r value =>
    have here := ((SyntaxFault.Within.of_faultAt h).of_short value).of_shorter named
    exact ((here.of_shorter type).of_short modifiers).of_short lists

theorem within_of_readAccessors (h : readAccessors src ts = .error fault) : fault.Within ts := by
  refine (advances_accessors src).within (fun {ts e} failed => ?_) (congrArg outcome h)
  replace failed : accessorTurn src ts = .error e := failed
  unfold accessorTurn at failed
  split at failed
  · exact .of_faultAt failed
  split at failed
  · cases failed
  simp only [bind, Except.bind, pure, Except.pure] at failed
  split at failed
  · rename_i front
    cases failed
    exact within_of_readAttributeLists front
  rename_i lists _
  have modifiers := (readModifiers .absent lists.rest).short
  split at failed
  · rename_i name
    cases failed
    exact ((SyntaxFault.Within.of_readName name).of_short modifiers).of_short lists.short
  rename_i named _
  split at failed
  · cases failed
  · cases failed
  · cases failed
  have here := (SyntaxFault.Within.of_faultAt failed).of_shorter named.shorter
  exact (here.of_short modifiers).of_short lists.short

theorem within_of_readFieldNames {name : String} (h : readFieldNames name ts = .error fault) :
    fault.Within ts := by
  fun_induction readFieldNames name ts with
  | case1 name ts _ value => exact (SyntaxFault.Within.of_faultAt h).of_short value
  | case2 name ts _ t r value _ _ e failed =>
    cases h
    exact ((SyntaxFault.Within.of_readName failed).behind t).of_short value
  | case3 name ts _ t r value _ _ _ after named _ ih =>
    exact (((ih (map_eq_error h)).of_shorter named).behind t).of_short value
  | case4 => cases h
  | case5 name ts _ t r value => exact (SyntaxFault.Within.of_faultAt h).of_short value

theorem within_of_readProperty (h : readProperty src ts = .error fault) : fault.Within ts := by
  unfold readProperty at h
  split at h
  · rename_i failed
    cases h
    exact within_of_readAccessors failed
  rename_i after accessors _
  split at h
  · have value := (passDefault after).short
    exact ((SyntaxFault.Within.of_readMark (map_eq_error h)).of_short value).of_shorter accessors
  · cases h

theorem within_of_readMemberTail {name : String} (h : readMemberTail src name ts = .error fault) :
    fault.Within ts := by
  unfold readMemberTail at h
  split at h
  case h_1 | h_2 | h_3 | h_5 => cases h
  case h_4 => exact (within_of_readProperty (map_eq_error h)).of_short (short_tail ts)
  case h_6 | h_7 | h_8 => exact within_of_readFieldNames (map_eq_error h)
  case h_9 => exact .of_faultAt h

theorem within_of_readMember {typeName : String} {lead : Lead} {modifiers : Modifiers}
    (h : readMember src typeName lead modifiers ts = .error fault) : fault.Within ts := by
  unfold readMember at h
  split at h
  · cases h
  split at h
  · rename_i failed
    cases h
    exact within_of_readWrittenType failed
  rename_i afterType type _
  split at h
  · cases h
  split at h
  · rename_i failed
    cases h
    exact (SyntaxFault.Within.of_readName failed).of_shorter type
  · rename_i afterName named _
    exact ((within_of_readMemberTail (map_eq_error h)).of_shorter named).of_shorter type

theorem within_of_readKind (h : readKind ts = .error fault) : fault.Within ts := by
  unfold readKind at h
  split at h
  · exact .of_faultAt h
  split at h
  · exact .of_faultAt h
  split at h <;> cases h

theorem within_of_readParameterList (h : readParameterList src ts = .error fault) :
    fault.Within ts := by
  unfold readParameterList at h
  split at h
  · cases h
  split at h
  · split at h
    · cases h
    · exact (within_of_readParameters (map_eq_error h)).behind _
  · cases h

theorem within_of_readBases (h : readBases src ts = .error fault) : fault.Within ts := by
  fun_induction readBases src ts with
  | case1 ts e failed =>
    cases h
    exact within_of_readWrittenType failed
  | case2 | case4 => cases h
  | case3 ts _ afterType type _ _ t r group _ _ ih =>
    exact (((ih (map_eq_error h)).behind t).of_short group).of_shorter type

theorem within_of_readBaseList (h : readBaseList src ts = .error fault) : fault.Within ts := by
  unfold readBaseList at h
  split at h
  · cases h
  split at h
  · exact (within_of_readBases (map_eq_error h)).behind _
  · cases h

theorem within_of_readHeader (h : readHeader src ts = .error fault) : fault.Within ts := by
  unfold readHeader at h
  split at h
  · rename_i failed
    cases h
    exact within_of_readKind failed
  rename_i afterKind kind _
  split at h
  · rename_i failed
    cases h
    exact (SyntaxFault.Within.of_readName failed).of_shorter kind
  rename_i afterName named _
  have group := (passGroup .openAngle .closeAngle afterName).short
  dsimp only at h
  split at h
  · rename_i failed
    cases h
    exact (((within_of_readParameterList failed).of_short group).of_shorter named).of_shorter kind
  · rename_i parameters _
    have here := (within_of_readBaseList (map_eq_error h)).of_short parameters
    exact ((here.of_short group).of_shorter named).of_shorter kind

mutual
theorem within_of_readType {space : String} {lead : Lead} {ts : List Item}
    (h : readType src space lead ts = .error fault) : fault.Within ts := by
  rw [readType] at h
  split at h
  · rename_i failed
    cases h
    exact within_of_readHeader failed
  rename_i afterHeader header _
  split at h
  · cases h
  split at h
  · rename_i failed
    cases h
    exact (SyntaxFault.Within.of_readMark failed).of_shorter header
  rename_i inside opened _
  split at h
  · cases h
  · exact ((within_of_readEnumValues (map_eq_error h)).of_shorter opened).of_shorter header
  · exact ((within_of_readClassBody (map_eq_error h)).of_shorter opened).of_shorter header
termination_by 2 * ts.length
decreasing_by simp only [Shorter] at *; omega

theorem within_of_readClassBody {typeName space : String} {ts : List Item}
    (h : readClassBody src typeName space ts = .error fault) : fault.Within ts := by
  match ts, h with
  | [], h =>
    rw [readClassBody] at h
    exact .of_faultAt h
  | t :: r, h =>
    have size : (t :: r).length = r.length + 1 := List.length_cons
    rw [readClassBody] at h
    split at h
    · cases h
    split at h
    · exact (within_of_readClassBody (map_eq_error h)).behind t
    split at h
    · rename_i failed
      cases h
      exact within_of_readLead failed
    rename_i afterLead lead _
    split at h
    rename_i start modifiers _
    split at h
    · split at h
      · rename_i failed
        cases h
        exact ((within_of_readType failed).of_short modifiers).of_short lead
      · rename_i after type _
        have here := (within_of_readClassBody (map_eq_error h)).of_shorter type
        exact (here.of_short modifiers).of_short lead
    · split at h
      · rename_i failed
        cases h
        exact ((within_of_readMember failed).of_short modifiers).of_short lead
      · rename_i after member _
        have here := (within_of_readClassBody (map_eq_error h)).of_shorter member
        exact (here.of_short modifiers).of_short lead
termination_by 2 * ts.length + 1
decreasing_by all_goals simp only [Shorter] at *; omega
end

theorem within_of_readUsing (h : readUsing ts = .error fault) : fault.Within ts := by
  unfold readUsing at h
  split at h
  · cases h
  split at h
  · exact .of_faultAt h
  split at h
  · rename_i failed
    cases h
    exact within_of_readQualifiedName failed
  · rename_i after named _
    exact (SyntaxFault.Within.of_readMark (map_eq_error h)).of_shorter named

theorem within_of_readTopLevel {space : String} (h : readTopLevel src space ts = .error fault) :
    fault.Within ts := by
  unfold readTopLevel at h
  split at h
  · rename_i failed
    cases h
    exact within_of_readLead failed
  rename_i afterLead lead _
  split at h
  · rename_i modifiers _
    exact ((SyntaxFault.Within.of_faultAt h).of_short modifiers).of_short lead
  · rename_i modifiers _
    split at h
    · cases h
    · exact ((within_of_readType (map_eq_error h)).of_short modifiers).of_short lead

theorem within_of_readNamespaceBody {space : String} {braced : Bool}
    (h : readNamespaceBody src space braced ts = .error fault) : fault.Within ts := by
  fun_induction readNamespaceBody src space braced ts with
  | case1 => exact .of_faultAt h
  | case2 | case3 => cases h
  | case4 _ _ t r _ _ ih => exact (ih (map_eq_error h)).behind t
  | case5 _ _ t r _ _ _ passed e failed =>
    cases h
    exact ((within_of_readUsing failed).of_short passed).behind t
  | case6 _ _ t r _ _ _ passed _ _ imported _ ih =>
    exact (((ih (map_eq_error h)).of_short imported).of_short passed).behind t
  | case7 _ _ t r _ _ _ _ whole ih => exact ((ih (map_eq_error h)).of_short whole).behind t
  | case8 _ _ t r _ _ _ _ _ e failed =>
    cases h
    exact (within_of_readQualifiedName failed).behind t
  | case9 _ _ t r _ _ _ _ _ _ _ named _ _ tail ih =>
    exact (((ih (map_eq_error h)).of_short tail).of_shorter named).behind t
  | case10 _ _ t r _ _ _ _ _ _ _ named _ _ e failed =>
    cases h
    exact ((SyntaxFault.Within.of_readMark failed).of_shorter named).behind t
  | case11 _ _ t r _ _ _ _ _ _ _ named _ _ _ inside opened _ e failed ih =>
    cases h
    exact (((ih failed).of_shorter opened).of_shorter named).behind t
  | case12 _ _ t r _ _ _ _ _ _ _ named _ _ _ inside opened _ _ _ inner _ _ ih =>
    have here := ((ih (map_eq_error h)).of_short inner).of_shorter opened
    exact (here.of_shorter named).behind t
  | case13 _ _ t r _ _ _ _ _ _ group ih => exact ((ih (map_eq_error h)).of_short group).behind t
  | case14 _ _ t r _ _ _ _ _ _ e failed =>
    cases h
    exact within_of_readTopLevel failed
  | case15 _ _ t r _ _ _ _ _ _ _ after shorter _ ih =>
    exact (ih (map_eq_error h)).of_shorter shorter

/-- A source that is refused is refused at the start of an item, or at the end of the text. -/
theorem within_of_parse {path : Path} {text : String} (h : File.parse path text = .error fault) :
    fault.Within (Item.ofText text) := by
  unfold File.parse at h
  split at h
  · rename_i failed
    cases h
    exact within_of_readNamespaceBody failed
  · cases h

end Host

end Ambient
