import Ambient.Host.FileReader
import Ambient.Proofs.Source.Types
import Ambient.Proofs.Source.Words

/-!
# The names that readers take

Over items whose identifiers are words, each reader takes words for the names of types and members,
and words between dots for qualified names and for the names in a type.
-/
namespace Ambient

theorem isWord_of_nameOf? {t : Token} {name : String} (wordy : t.Wordy)
    (h : nameOf? t = some name) : IsWord name := by
  cases t with
  | ident n =>
    cases h
    exact wordy
  | keyword k =>
    cases k <;> cases h <;> decide
  | _ => cases h

theorem isWord_of_readName {ts : List Item} {s : Step String ts} (wordy : Wordy ts)
    (h : readName ts = .ok s) : IsWord s.value := by
  obtain ⟨t, whole, named⟩ := exists_of_readName h
  have first : t ∈ ts := whole.symm ▸ List.mem_cons_self
  exact isWord_of_nameOf? (wordy t first) named

namespace TypeSyntax

/-- Every name in a type is made of words. -/
inductive Spelled : TypeSyntax → Prop
  | named {name : String} {args : List TypeSyntax} :
    IsDotted name → (∀ ty ∈ args, Spelled ty) → Spelled (named name args)
  | array {element : TypeSyntax} : Spelled element → Spelled (array element)
  | nullable {inner : TypeSyntax} : Spelled inner → Spelled (nullable inner)
  | tuple {items : List TypeSyntax} : (∀ ty ∈ items, Spelled ty) → Spelled (tuple items)

theorem spelled_of_readSuffixes {core : TypeSyntax} {ts : List Item} {l : Left TypeSyntax ts}
    (spelled : Spelled core) (h : readSuffixes core ts = .ok l) : Spelled l.value := by
  fun_induction readSuffixes core ts with
  | case1 => cases h; exact spelled
  | case2 => cases h; exact spelled
  | case3 core t r _ _ ih =>
    obtain ⟨inner, read, rfl⟩ := map_eq_ok h
    exact ih (.nullable spelled) read
  | case4 core t r _ ih =>
    obtain ⟨inner, read, rfl⟩ := map_eq_ok h
    exact ih spelled read
  | case5 => cases h
  | case6 core t r _ _ _ after short _ _ ih =>
    obtain ⟨inner, read, rfl⟩ := map_eq_ok h
    exact ih (.array spelled) read
  | case7 => cases h; exact spelled
  | case8 => cases h; exact spelled

theorem isWord_of_dotted? {ts : List Item} {s : Step String ts} (wordy : Wordy ts)
    (h : dotted? ts = some s) : IsWord s.value := by
  obtain ⟨t, u, whole, -, named⟩ := exists_of_dotted? h
  have second : u ∈ ts := whole.symm ▸ List.mem_cons_of_mem t List.mem_cons_self
  have word := wordy u second
  rwa [named] at word

mutual
theorem spelled_of_read {ts : List Item} {s : Step TypeSyntax ts} (wordy : Wordy ts)
    (h : read ts = .ok s) : Spelled s.value := by
  match ts with
  | [] =>
    rw [read] at h
    cases h
  | t :: r =>
    rw [read] at h
    split at h
    · split at h
      · cases h
      · rename_i items after shorter tuple
        obtain ⟨l, suffixes, rfl⟩ := map_eq_ok h
        have inside := spelled_of_readTuple (wordy.suffix (List.suffix_cons t r)) tuple
        have spelled := spelled_of_readSuffixes (.tuple inside) suffixes
        exact spelled
    · split at h
      · cases h
      · rename_i core after shorter named
        obtain ⟨l, suffixes, rfl⟩ := map_eq_ok h
        exact spelled_of_readSuffixes (spelled_of_readNamed wordy named) suffixes
termination_by 5 * ts.length + 1
decreasing_by all_goals simp only [List.length_cons] at *; omega

theorem spelled_of_readTuple {ts : List Item} {s : Step (List TypeSyntax) ts} (wordy : Wordy ts)
    (h : readTuple ts = .ok s) : ∀ ty ∈ s.value, Spelled ty :=
  ListForm.elements_readBy.forall_mem (fun _ => spelled_of_read wordy)
    (fun _ shorter _ => spelled_of_readTuple (wordy.suffix shorter.2)) h
termination_by 5 * ts.length + 2
decreasing_by all_goals omega

theorem spelled_of_readNamed {ts : List Item} {s : Step TypeSyntax ts} (wordy : Wordy ts)
    (h : readNamed ts = .ok s) : Spelled s.value := by
  rw [readNamed] at h
  split at h
  · cases h
  · rename_i name after shorter read
    obtain ⟨l, segments, rfl⟩ := map_eq_ok h
    have short := dropGlobal_short ts
    have word := isWord_of_readName (wordy.suffix short.2) read
    have spelled := spelled_of_readSegments (wordy.suffix (shorter.2.trans short.2))
      (.word word) (by simp) segments
    exact spelled
termination_by 5 * ts.length + 0
decreasing_by omega

theorem spelled_of_readSegments {name : String} {args : List TypeSyntax} {ts : List Item}
    {l : Left TypeSyntax ts} (wordy : Wordy ts) (dotted : IsDotted name)
    (spelled : ∀ ty ∈ args, Spelled ty) (h : readSegments name args ts = .ok l) :
    Spelled l.value := by
  rw [readSegments] at h
  split at h
  · cases h
  · rename_i args' after short read
    have spelled' := spelled_of_readArguments? wordy spelled read
    split at h
    · rename_i segment next shorter found
      obtain ⟨m, more, rfl⟩ := map_eq_ok h
      have word := isWord_of_dotted? (wordy.suffix short.2) found
      have rest := spelled_of_readSegments (wordy.suffix (shorter.2.trans short.2))
        (.snoc dotted word) (by simp) more
      exact rest
    · split at h
      · split at h
        · cases h
        · rename_i segment next shorter read'
          obtain ⟨m, more, rfl⟩ := map_eq_ok h
          have short' := short_tail after
          have passed := wordy.suffix (short'.2.trans short.2)
          have word := isWord_of_readName passed read'
          have rest := spelled_of_readSegments (passed.suffix shorter.2) (.snoc dotted word)
            spelled' more
          exact rest
      · cases h
        exact .named dotted spelled'
termination_by 5 * ts.length + 4
decreasing_by all_goals omega

theorem spelled_of_readArguments? {args : List TypeSyntax} {ts : List Item}
    {l : Left (List TypeSyntax) ts} (wordy : Wordy ts) (spelled : ∀ ty ∈ args, Spelled ty)
    (h : readArguments? args ts = .ok l) : ∀ ty ∈ l.value, Spelled ty := by
  match ts with
  | [] =>
    rw [readArguments?] at h
    cases h
    exact spelled
  | t :: r =>
    rw [readArguments?] at h
    split at h
    · obtain ⟨s, read, rfl⟩ := map_eq_ok h
      have inside := spelled_of_readArguments (wordy.suffix (List.suffix_cons t r)) read
      exact inside
    · cases h
      exact spelled
termination_by 5 * ts.length + 3
decreasing_by
  simp only [List.length_cons]
  omega

theorem spelled_of_readArguments {ts : List Item} {s : Step (List TypeSyntax) ts}
    (wordy : Wordy ts) (h : readArguments ts = .ok s) : ∀ ty ∈ s.value, Spelled ty :=
  ListForm.arguments_readBy.forall_mem (fun _ => spelled_of_read wordy)
    (fun _ shorter _ => spelled_of_readArguments (wordy.suffix shorter.2)) h
termination_by 5 * ts.length + 2
decreasing_by all_goals omega
end

/-- The names in a type that was read are made of words. -/
theorem spelled_of_parse {text : String} {ty : TypeSyntax} (h : parse text = .ok ty) :
    Spelled ty := by
  unfold parse at h
  split at h
  · cases h
  · rename_i ty' shorter read
    cases h
    exact spelled_of_read (Item.ofText_wordy text) read
  · cases h

end TypeSyntax

namespace Host

theorem isDotted_of_readDotted {name : String} {ts : List Item} {l : Left String ts}
    (wordy : Wordy ts) (dotted : IsDotted name) (h : readDotted name ts = .ok l) :
    IsDotted l.value := by
  fun_induction readDotted name ts with
  | case1 => cases h; exact dotted
  | case2 => cases h
  | case3 name t r _ segment after shorter read ih =>
    obtain ⟨m, more, rfl⟩ := map_eq_ok h
    have passed := wordy.suffix (List.suffix_cons t r)
    exact ih (passed.suffix shorter.2) (.snoc dotted (isWord_of_readName passed read)) more
  | case4 => cases h; exact dotted

theorem isDotted_of_readQualifiedName {ts : List Item} {s : Step String ts} (wordy : Wordy ts)
    (h : readQualifiedName ts = .ok s) : IsDotted s.value := by
  unfold readQualifiedName at h
  split at h
  · cases h
  · rename_i name after shorter read
    obtain ⟨l, dotted, rfl⟩ := map_eq_ok h
    have short := dropGlobal_short ts
    exact isDotted_of_readDotted (wordy.suffix (shorter.2.trans short.2))
      (.word (isWord_of_readName (wordy.suffix short.2) read)) dotted

end Host

end Ambient
