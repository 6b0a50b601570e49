import Ambient.Naming
import Ambient.Proofs.Text.Pieces
import Ambient.Index
import Ambient.Sidecar
import Mathlib.Data.String.Basic

/-!
# Finding homes again

The homes of a sidecar stand in the order of their type names, each name once. A name that is
written somewhere finds the home of the type it means if no other type that is recorded ends in
the same segment.
-/
namespace Ambient

/-- The last segment of a name stays when more is put in front of it. -/
theorem lastPiece_append_dot (a b : String) :
    Text.lastPiece (· == '.') (a ++ "." ++ b).toList = Text.lastPiece (· == '.') b.toList := by
  have dot : ".".toList = ['.'] := rfl
  rw [String.toList_append, String.toList_append, dot, List.append_assoc, List.singleton_append]
  exact Text.lastPiece_append_cons rfl _ _

namespace Sidecar
variable {typeName written : String} {home : TypeHome}

theorem lastPiece_of_endsIn (h : endsIn typeName written = true) :
    Text.lastPiece (· == '.') typeName.toList = Text.lastPiece (· == '.') written.toList := by
  rw [endsIn, Bool.or_eq_true] at h
  rcases h with same | after
  · have spelled := beq_iff_eq.mp same
    have plain : ∀ d ∈ written.toList, (d == '.') = false := by
      intro d hd
      rw [← spelled, Text.lastPiece, List.mem_reverse] at hd
      simpa using List.all_eq_true.mp List.all_takeWhile d hd
    rw [spelled, Text.lastPiece_of_forall plain]
  · obtain ⟨front, spelled⟩ := List.isSuffixOf_iff_suffix.mp after
    have dot : ".".toList = ['.'] := rfl
    rw [← spelled, String.toList_append, dot, List.singleton_append]
    exact Text.lastPiece_append_cons rfl _ _

theorem endsIn_qualify (outer written : String) :
    Host.qualify outer written = written ∨
    endsIn (Host.qualify outer written) written = true := by
  unfold Host.qualify
  split
  · exact .inl rfl
  · refine .inr ?_
    rw [endsIn, Bool.or_eq_true]
    refine .inr (List.isSuffixOf_iff_suffix.mpr ⟨outer.toList, ?_⟩)
    simp only [String.toList_append, List.append_assoc]

/-- Homes in the order of their type names, each name once. -/
def Settled (homes : List TypeHome) : Prop := homes.Pairwise fun a b => a.typeName < b.typeName

theorem mem_insertHome {homes : List TypeHome} (settled : Settled homes) {h : TypeHome} :
    h ∈ insertHome home homes ↔ h = home ∨ h ∈ homes ∧ h.typeName ≠ home.typeName := by
  induction homes with
  | nil => simp [insertHome]
  | cons g r ih =>
    obtain ⟨first, rest⟩ := List.pairwise_cons.mp settled
    unfold insertHome
    split
    · rename_i before
      have other : g.typeName ≠ home.typeName := fun same => lt_irrefl _ (same ▸ before)
      rw [List.mem_cons, ih rest, List.mem_cons, or_and_right]
      constructor
      · rintro (rfl | new | old)
        · exact .inr (.inl ⟨rfl, other⟩)
        · exact .inl new
        · exact .inr (.inr old)
      · rintro (new | ⟨rfl, _⟩ | old)
        · exact .inr (.inl new)
        · exact .inl rfl
        · exact .inr (.inr old)
    · rename_i notBefore
      -- the homes after `g` have greater names than the new one
      have later : ∀ k ∈ r, k.typeName ≠ home.typeName := fun k hk same =>
        notBefore (same ▸ first k hk)
      split
      · rename_i same
        rw [List.mem_cons, List.mem_cons]
        constructor
        · rintro (new | old)
          · exact .inl new
          · exact .inr ⟨.inr old, later h old⟩
        · rintro (new | ⟨rfl | old, other⟩)
          · exact .inl new
          · exact absurd same other
          · exact .inr old
      · rename_i other
        rw [List.mem_cons, List.mem_cons]
        constructor
        · rintro (new | rfl | old)
          · exact .inl new
          · exact .inr ⟨.inl rfl, other⟩
          · exact .inr ⟨.inr old, later h old⟩
        · rintro (new | ⟨old, _⟩)
          · exact .inl new
          · exact .inr old

theorem settled_insertHome {homes : List TypeHome} (settled : Settled homes) :
    Settled (insertHome home homes) := by
  induction homes with
  | nil => exact List.pairwise_singleton _ home
  | cons g r ih =>
    obtain ⟨first, rest⟩ := List.pairwise_cons.mp settled
    unfold insertHome
    split
    · rename_i before
      refine List.pairwise_cons.mpr ⟨?_, ih rest⟩
      intro k hk
      rcases (mem_insertHome rest).mp hk with rfl | ⟨old, _⟩
      · exact before
      · exact first k old
    · rename_i notBefore
      split
      · rename_i same
        exact List.pairwise_cons.mpr ⟨fun k hk => same ▸ first k hk, rest⟩
      · rename_i other
        have after : home.typeName < g.typeName :=
          lt_of_le_of_ne (not_lt.mp notBefore) (Ne.symm other)
        refine List.pairwise_cons.mpr ⟨?_, settled⟩
        intro k hk
        rcases List.mem_cons.mp hk with rfl | old
        · exact after
        · exact after.trans (first k old)

theorem foldl_record (homes : List TypeHome) (start : Sidecar) :
    homes.foldl record start =
      { start with homes := homes.foldl (fun hs h => insertHome h hs) start.homes } := by
  induction homes generalizing start with
  | nil => rfl
  | cons h more ih => exact ih (start.record h)

theorem homes_foldl_record (s : Sidecar) (homes : List TypeHome) :
    (homes.foldl record s).homes = homes.foldl (fun hs h => insertHome h hs) s.homes := by
  rw [foldl_record]

theorem settled_foldl {old new : List TypeHome} (settled : Settled old) :
    Settled (new.foldl (fun hs h => insertHome h hs) old) := by
  induction new generalizing old with
  | nil => exact settled
  | cons h more ih => exact ih (settled_insertHome settled)

/-- Where a name is recorded with one home only, the homes are those recorded. -/
theorem mem_foldl_insertHome {old new : List TypeHome} (settled : Settled old)
    (one : ∀ a ∈ old ++ new, ∀ b ∈ new, a.typeName = b.typeName → a = b) {h : TypeHome} :
    h ∈ new.foldl (fun hs h => insertHome h hs) old ↔ h ∈ old ++ new := by
  induction new generalizing old with
  | nil => simp
  | cons g more ih =>
    have insert : ∀ k, k ∈ insertHome g old ↔ k = g ∨ k ∈ old := by
      intro k
      rw [mem_insertHome settled]
      constructor
      · rintro (rfl | ⟨kept, _⟩)
        · exact .inl rfl
        · exact .inr kept
      · rintro (rfl | kept)
        · exact .inl rfl
        · by_cases same : k.typeName = g.typeName
          · exact .inl (one k (List.mem_append_left _ kept) g List.mem_cons_self same)
          · exact .inr ⟨kept, same⟩
    rw [List.foldl_cons, ih (settled_insertHome settled)]
    · simp only [List.mem_append, insert, List.mem_cons, or_assoc, or_left_comm]
    · intro a ha b hb same
      refine one a ?_ b (List.mem_cons_of_mem g hb) same
      simp only [List.mem_append, insert, List.mem_cons] at ha ⊢
      rcases ha with (rfl | ha) | ha
      · exact .inr (.inl rfl)
      · exact .inl ha
      · exact .inr (.inr ha)

/-- A name finds the home of the type it means if every recorded type that ends in the same segment
is that type. -/
theorem findHome?_eq {s : Sidecar} (recorded : home ∈ s.homes)
    (means : home.typeName = written ∨ endsIn home.typeName written = true)
    (alone : ∀ h ∈ s.homes, Text.lastPiece (· == '.') h.typeName.toList =
      Text.lastPiece (· == '.') written.toList → h = home) :
    s.findHome? written = some home := by
  unfold findHome?
  cases exactly : s.homes.find? (·.typeName == written) with
  | some h =>
    have found := List.find?_some exactly
    have same := beq_iff_eq.mp found
    have one := alone h (List.mem_of_find?_eq_some exactly) (by rw [same])
    rw [one]
    rfl
  | none =>
    rw [Option.none_or]
    cases ending : s.homes.find? (fun h => endsIn h.typeName written) with
    | some h =>
      have ends := List.find?_some ending
      rw [alone h (List.mem_of_find?_eq_some ending) (lastPiece_of_endsIn ends)]
    | none =>
      exfalso
      rcases means with same | ends
      · exact List.find?_eq_none.mp exactly home recorded (beq_iff_eq.mpr same)
      · exact List.find?_eq_none.mp ending home recorded ends

end Sidecar

end Ambient
