import Ambient.Proofs.Source.Names
import Ambient.Proofs.Formatting.Pairs

/-!
# Types read side by side

A type is read from its tokens alone. The induction follows the recursion of the readers.
-/
namespace Ambient.Pairing
open TypeSyntax
variable {p : Pairing} {ts us : List Item}

theorem at_dropCommas (h : p.At ts us) : p.At (dropCommas ts) (dropCommas us) := by
  refine h.dropWhile (· == .mark .comma) fun t => ?_
  rw [Bool.eq_iff_iff, beq_iff_eq, beq_iff_eq, Token.retext_eq_mark]

theorem at_dropElementName (h : p.At ts us) : p.At (dropElementName ts) (dropElementName us) := by
  unfold dropElementName
  rw [h.token?]
  cases Item.token? ts with
  | none => exact h
  | some t =>
    cases t with
    | ident name => exact h.tail
    | _ => exact h

/-- Both readings or neither find a further segment of a name. -/
inductive Found {ts us : List Item} (p : Pairing) :
    Option (Step String ts) → Option (Step String us) → Prop
  | none : Found p none none
  | some {s : Step String ts} {s' : Step String us} : p.Steps Eq s s' → Found p (some s) (some s')

theorem found_dotted? (h : p.At ts us) : Found p (dotted? ts) (dotted? us) := by
  cases ts with
  | nil =>
    obtain rfl := h.nil_right
    exact .none
  | cons t r =>
    obtain ⟨u, q, rfl, token, rest⟩ := h.cons_right
    cases r with
    | nil =>
      obtain rfl := rest.nil_right
      exact .none
    | cons t' r =>
      obtain ⟨u', q, rfl, token', rest⟩ := rest.cons_right
      rw [dotted?, dotted?, token, token']
      cases t.token with
      | mark m =>
        cases m with
        | dot =>
          cases t'.token with
          | ident name => exact .some ⟨rfl, rest⟩
          | _ => exact .none
        | _ => exact .none
      | _ => exact .none

theorem agree_readSuffixes {ts us : List Item} (core : TypeSyntax) (h : p.At ts us) :
    p.Agree (p.Lefts Eq) (readSuffixes core ts) (readSuffixes core us) := by
  match ts with
  | [] =>
    obtain rfl := h.nil_right
    rw [readSuffixes]
    exact .ok ⟨rfl, h⟩
  | t :: r =>
    obtain ⟨u, q, rfl, token, rest⟩ := h.cons_right
    have keep : p.Agree (p.Lefts Eq) (.ok (.keep core (t :: r))) (.ok (.keep core (u :: q))) :=
      .ok ⟨rfl, h⟩
    rw [readSuffixes, readSuffixes, token]
    generalize t.token = found
    cases found with
    | mark m =>
      cases m with
      | question =>
        simp only [Token.retext]
        split
        · exact keep
        · exact (agree_readSuffixes (nullable core) rest).map fun _ _ same => same
      | star => exact (agree_readSuffixes core rest).map fun _ _ same => same
      | openBracket =>
        simp only [Token.retext, rest.isMark]
        split
        · have agree := agree_readMark (at_dropCommas rest) .closeBracket
          generalize readMark .closeBracket (dropCommas r) = x at agree ⊢
          generalize readMark .closeBracket (dropCommas q) = y at agree ⊢
          cases agree with
          | error cause => exact .error cause
          | @ok s s' same =>
            have passed := dropCommas_short r
            have taken := s.shorter
            exact (agree_readSuffixes (array core) same.2).map fun _ _ same => same
        · exact keep
      | _ => exact keep
    | _ => exact keep
termination_by ts.length
decreasing_by all_goals simp only [List.length_cons] at *; omega

theorem agree_of_readBy {f : ListForm}
    {more : (us : List Item) → Read (Step (List TypeSyntax) us)} {ts us : List Item}
    (reads : f.ReadBy more) (drops : ∀ {ts us}, p.At ts us → p.At (f.drop ts) (f.drop us))
    (item : p.Agree (p.Steps Eq) (TypeSyntax.read ts) (TypeSyntax.read us))
    (list : ∀ vs ws, Shorter vs ts → p.At vs ws → p.Agree (p.Steps Eq) (more vs) (more ws)) :
    p.Agree (p.Steps Eq) (more ts) (more us) := by
  rw [reads, reads, ListForm.turn, ListForm.turn]
  generalize TypeSyntax.read ts = x at item ⊢
  generalize TypeSyntax.read us = y at item ⊢
  cases item with
  | error cause => exact .error cause
  | @ok s s' first =>
    have behind := drops first.2
    dsimp only
    rw [behind.isMark, ← first.1]
    split
    · exact .ok ⟨rfl, behind.tail⟩
    · have agree := agree_readMark behind .comma
      generalize readMark .comma (f.drop s.rest) = x at agree ⊢
      generalize readMark .comma (f.drop s'.rest) = y at agree ⊢
      cases agree with
      | error cause => exact .error cause
      | @ok c c' comma =>
        have further := (c.shorter.trans_short (f.short s.rest)).trans_short s.shorter.short
        refine (list _ _ further comma.2).map ?_
        intro _ _ others
        exact ⟨congrArg (s.value :: ·) others.1, others.2⟩

mutual
theorem agree_read {ts us : List Item} (h : p.At ts us) :
    p.Agree (p.Steps Eq) (TypeSyntax.read ts) (TypeSyntax.read us) := by
  match ts with
  | [] =>
    obtain rfl := h.nil_right
    rw [TypeSyntax.read]
    exact h.faultAt fun _ => rfl
  | t :: r =>
    obtain ⟨u, q, rfl, token, rest⟩ := h.cons_right
    rw [TypeSyntax.read, TypeSyntax.read]
    simp only [token, Token.retext_eq_mark]
    split
    · have agree := agree_readTuple rest
      generalize readTuple r = x at agree ⊢
      generalize readTuple q = y at agree ⊢
      cases agree with
      | error cause => exact .error cause
      | @ok s s' same =>
        dsimp only
        rw [← same.1]
        exact (agree_readSuffixes (tuple s.value) same.2).map fun _ _ same => same
    · have agree := agree_readNamed h
      generalize readNamed (t :: r) = x at agree ⊢
      generalize readNamed (u :: q) = y at agree ⊢
      cases agree with
      | error cause => exact .error cause
      | @ok s s' same =>
        dsimp only
        rw [← same.1]
        exact (agree_readSuffixes s.value same.2).map fun _ _ same => same
termination_by 5 * ts.length + 1
decreasing_by all_goals simp only [List.length_cons]; omega

theorem agree_readTuple {ts us : List Item} (h : p.At ts us) :
    p.Agree (p.Steps Eq) (readTuple ts) (readTuple us) :=
  agree_of_readBy ListForm.elements_readBy at_dropElementName (agree_read h)
    fun _ _ _ => agree_readTuple
termination_by 5 * ts.length + 2
decreasing_by all_goals omega

theorem agree_readNamed {ts us : List Item} (h : p.At ts us) :
    p.Agree (p.Steps Eq) (readNamed ts) (readNamed us) := by
  rw [readNamed, readNamed]
  have agree := agree_readName (at_dropGlobal h)
  generalize readName (dropGlobal ts) = x at agree ⊢
  generalize readName (dropGlobal us) = y at agree ⊢
  cases agree with
  | error cause => exact .error cause
  | @ok s s' same =>
    have taken := s.shorter
    have passed := dropGlobal_short ts
    dsimp only
    rw [← same.1]
    exact (agree_readSegments s.value [] same.2).map fun _ _ same => same
termination_by 5 * ts.length + 0
decreasing_by omega

theorem agree_readSegments {ts us : List Item} (name : String) (args : List TypeSyntax)
    (h : p.At ts us) :
    p.Agree (p.Lefts Eq) (readSegments name args ts) (readSegments name args us) := by
  rw [readSegments, readSegments]
  have agree := agree_readArguments? args h
  generalize readArguments? args ts = x at agree ⊢
  generalize readArguments? args us = y at agree ⊢
  cases agree with
  | error cause => exact .error cause
  | @ok l l' arguments =>
    have passed := l.short
    dsimp only
    have found := found_dotted? arguments.2
    generalize dotted? l.rest = d at found ⊢
    generalize dotted? l'.rest = d' at found ⊢
    cases found with
    | @some s s' segment =>
      have taken := s.shorter
      dsimp only
      rw [← segment.1]
      exact (agree_readSegments (name ++ "." ++ s.value) [] segment.2).map fun _ _ same => same
    | none =>
      dsimp only
      rw [arguments.2.isMark, ← arguments.1]
      split
      · have agree := agree_readName arguments.2.tail
        generalize readName l.rest.tail = x at agree ⊢
        generalize readName l'.rest.tail = y at agree ⊢
        cases agree with
        | error cause => exact .error cause
        | @ok s s' segment =>
          have taken := s.shorter
          have tail := short_tail l.rest
          dsimp only
          rw [← segment.1]
          exact (agree_readSegments (name ++ "." ++ s.value) l.value segment.2).map
            fun _ _ same => same
      · exact .ok ⟨rfl, arguments.2⟩
termination_by 5 * ts.length + 4
decreasing_by all_goals omega

theorem agree_readArguments? {ts us : List Item} (args : List TypeSyntax) (h : p.At ts us) :
    p.Agree (p.Lefts Eq) (readArguments? args ts) (readArguments? args us) := by
  match ts with
  | [] =>
    obtain rfl := h.nil_right
    rw [readArguments?]
    exact .ok ⟨rfl, h⟩
  | t :: r =>
    obtain ⟨u, q, rfl, token, rest⟩ := h.cons_right
    rw [readArguments?, readArguments?]
    simp only [token, Token.retext_eq_mark]
    split
    · exact (agree_readArguments rest).map fun _ _ same => same
    · exact .ok ⟨rfl, h⟩
termination_by 5 * ts.length + 3
decreasing_by
  simp only [List.length_cons]
  omega

theorem agree_readArguments {ts us : List Item} (h : p.At ts us) :
    p.Agree (p.Steps Eq) (readArguments ts) (readArguments us) :=
  agree_of_readBy ListForm.arguments_readBy id (agree_read h)
    fun _ _ _ => agree_readArguments
termination_by 5 * ts.length + 2
decreasing_by all_goals omega
end

end Ambient.Pairing
