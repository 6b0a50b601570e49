import Ambient.Proofs.Formatting.Flags
import Ambient.Proofs.Insertion.Spaces
import Ambient.Proofs.Source.Standing

/-!
# Read alike further on

Behind a place where two sources differ the same text follows, at another place. The readers make
the same of it, in whatever body they stand.
-/
namespace Ambient

open Host

/-- The texts that are kept as written are the same. -/
def Overlap.spelling (O : Overlap) : Spelling := ⟨O.source, O.source', Eq, Eq, Eq⟩

namespace Host
variable {O : Overlap}

theorem eq_of_forall₂ {α : Type} {R : α → α → Prop} {as bs : List α}
    (h : List.Forall₂ R as bs) (same : ∀ a b, R a b → a = b) : as = bs :=
  List.forall₂_eq_eq_eq ▸ h.imp same

theorem Argument.Alike.eq {a b : Argument} (h : Argument.Alike O.spelling a b) : a = b := by
  obtain ⟨name, value⟩ := a
  obtain ⟨name', value'⟩ := b
  obtain ⟨named, valued⟩ := h
  cases named
  cases valued
  rfl

theorem Attribute.Alike.eq {a b : Attribute} (h : Attribute.Alike O.spelling a b) : a = b := by
  obtain ⟨name, args⟩ := a
  obtain ⟨name', args'⟩ := b
  obtain ⟨named, alike⟩ := h
  cases named
  cases eq_of_forall₂ alike fun _ _ => Argument.Alike.eq
  rfl

theorem Member.Alike.eq {m n : Member} (h : Member.Alike O.spelling m n) : m = n := by
  obtain ⟨name, type, init, summary, attributes⟩ := m
  obtain ⟨name', type', init', summary', attributes'⟩ := n
  obtain ⟨named, typed, initialized, summarized, attributed⟩ := h
  cases named
  cases typed
  cases summarized
  cases eq_of_forall₂ attributed fun _ _ => Attribute.Alike.eq
  cases initialized with
  | none => rfl
  | some same =>
    cases same
    rfl

mutual
theorem TypeDecl.Alike.eq {t u : TypeDecl} (h : TypeDecl.Alike O.spelling t u) : t = u := by
  match h with
  | .mk bases members nested attributes =>
    cases eq_of_forall₂ bases fun _ _ => id
    cases eq_of_forall₂ members fun _ _ => Member.Alike.eq
    cases TypeDecl.AlikeAll.eq nested
    cases eq_of_forall₂ attributes fun _ _ => Attribute.Alike.eq
    rfl

theorem TypeDecl.AlikeAll.eq {ts us : List TypeDecl} (h : TypeDecl.AlikeAll O.spelling ts us) :
    ts = us := by
  match h with
  | .nil => rfl
  | .cons first others =>
    cases TypeDecl.Alike.eq first
    cases TypeDecl.AlikeAll.eq others
    rfl
end

theorem Body.Alike.eq {a b : Body} (h : Body.Alike O.spelling a b) : a = b := by
  obtain ⟨members, nested⟩ := a
  obtain ⟨members', nested'⟩ := b
  obtain ⟨alike, inside⟩ := h
  cases eq_of_forall₂ alike fun _ _ => Member.Alike.eq
  cases inside.eq
  rfl

theorem Part.Alike.eq {a b : Part} (h : Part.Alike O.spelling a b) : a = b := by
  cases h with
  | imported => rfl
  | declared alike =>
    cases alike.eq
    rfl

end Host

theorem Item.map_token_shift (n : Nat) (ts : List Item) :
    (ts.map (Item.shift n)).map (·.token) = ts.map (·.token) := by
  rw [List.map_map]
  rfl

/-- The items `ts` of a text behind `n` bytes, and the same ones behind `m` bytes. -/
def Pairing.shifted (n m : Nat) (ts : List Item) : Pairing :=
  ⟨ts.map (Item.shift n), ts.map (Item.shift m), id⟩

namespace Pairing
variable {n m : Nat} {whole ts us : List Item} {O : Overlap}

theorem at_shifted (n m : Nat) (whole : List Item) :
    (shifted n m whole).At (whole.map (Item.shift n)) (whole.map (Item.shift m)) := by
  refine ⟨List.suffix_rfl, List.suffix_rfl, ?_⟩
  rw [Item.map_token_shift, ← Item.map_token_shift n]
  exact List.map_congr_left fun i _ => i.token.retext_id.symm

theorem exists_of_at_shifted (h : (shifted n m whole).At ts us) :
    ∃ k, ts = (whole.drop k).map (Item.shift n) ∧ us = (whole.drop k).map (Item.shift m) := by
  obtain ⟨k, first, second⟩ := h.aligned (by simp [shifted])
  exact ⟨k, first.trans List.map_drop.symm, second.trans List.map_drop.symm⟩

/-- The text between two items is the same in both places. -/
theorem writtenText_shifted {read rest : List Item} (there : ∀ i ∈ read, i ∈ whole)
    (same : ∀ i ∈ whole, ∀ j ∈ whole, Text.slice O.source' (m + i.start) (m + j.stop) =
      Text.slice O.source (n + i.start) (n + j.stop)) :
    writtenText O.source' (read.map (Item.shift m)) (rest.map (Item.shift m)) =
      writtenText O.source (read.map (Item.shift n)) (rest.map (Item.shift n)) := by
  simp only [writtenText, List.length_map, ← List.map_take, List.head?_map, List.getLast?_map]
  have inside : ∀ i ∈ read.take (read.length - rest.length), i ∈ whole :=
    fun i hi => there i (List.mem_of_mem_take hi)
  cases first : (read.take (read.length - rest.length)).head? with
  | none => rfl
  | some first' =>
    cases last : (read.take (read.length - rest.length)).getLast? with
    | none => rfl
    | some last' =>
      have here :=
        same _ (inside _ (List.mem_of_head? first)) _ (inside _ (List.mem_of_getLast? last))
      exact congrArg (fun cs => String.ofList (Text.trim cs)) here

theorem carries_shifted
    (same : ∀ i ∈ whole, ∀ j ∈ whole, Text.slice O.source' (m + i.start) (m + j.stop) =
    Text.slice O.source (n + i.start) (n + j.stop)) : (shifted n m whole).Carries O.spelling := by
  have written : ∀ {ts us rest rest' : List Item}, (shifted n m whole).At ts us →
      (shifted n m whole).At rest rest' →
        writtenText O.source ts rest = writtenText O.source' us rest' := by
    intro ts us rest rest' h after
    obtain ⟨k, rfl, rfl⟩ := exists_of_at_shifted h
    obtain ⟨l, rfl, rfl⟩ := exists_of_at_shifted after
    exact (writtenText_shifted (fun i hi => List.mem_of_mem_drop hi) same).symm
  refine ⟨fun h => ?_, rfl, fun h _ after => written h after, fun _ => rfl,
    fun h => written h (at_expression true .outside h),
    fun h => written h (at_expression false .outside h)⟩
  obtain ⟨k, rfl, rfl⟩ := exists_of_at_shifted h
  cases whole.drop k <;> rfl

end Pairing

namespace Host

/-- In the body of a class, in that of a namespace, or among braces that are passed over, of which
`inner` pairs are open. -/
inductive Stage where
  | members (typeName space : String)
  | parts (space : String) (braced : Bool)
  | hidden (inner : Nat)

/-- What the reader makes of `ts` in the one source it makes of `us` in the other, and it comes to
the same place behind. -/
def Mirrors (O : Overlap) (p : Pairing) : Stage → List Item → List Item → Prop
  | .members typeName space, ts, us => ∀ body rest,
    Takes (readClassBody O.source typeName space ts) body rest →
      ∃ rest', p.At rest rest' ∧ Takes (readClassBody O.source' typeName space us) body rest'
  | .parts space braced, ts, us => ∀ value rest,
    Passes (readNamespaceBody O.source space braced ts) value rest →
      ∃ rest', p.At rest rest' ∧
        Passes (readNamespaceBody O.source' space braced us) value rest'
  | .hidden inner, ts, us =>
    p.At (Skip.group .openBrace .closeBrace inner ts) (Skip.group .openBrace .closeBrace inner us)

theorem mirrors_of_at {O : Overlap} {p : Pairing} {ts us : List Item}
    (carries : p.Carries O.spelling)
    (h : p.At ts us) (stage : Stage) : Mirrors O p stage ts us := by
  cases stage with
  | members typeName space =>
    rintro body rest ⟨_, read⟩
    have agree := Pairing.agree_readClassBody carries typeName space h
    rw [show readClassBody O.spelling.source typeName space ts = _ from read] at agree
    generalize read' : readClassBody O.spelling.source' typeName space us = x at agree
    cases agree with
    | @ok _ s same =>
      obtain ⟨alike, after⟩ := same
      cases alike.eq
      exact ⟨s.rest, after, _, read'⟩
  | parts space braced =>
    rintro value rest ⟨_, read⟩
    have agree := Pairing.agree_readNamespaceBody carries space braced h
    rw [show readNamespaceBody O.spelling.source space braced ts = _ from read] at agree
    generalize read' : readNamespaceBody O.spelling.source' space braced us = x at agree
    cases agree with
    | @ok _ l same =>
      obtain ⟨alike, after⟩ := same
      cases eq_of_forall₂ alike fun _ _ => Part.Alike.eq
      exact ⟨l.rest, after, _, read'⟩
  | hidden inner => exact Pairing.at_group .openBrace .closeBrace inner h

end Host
end Ambient
