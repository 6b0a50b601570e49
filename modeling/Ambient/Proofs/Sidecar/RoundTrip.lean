import Ambient.Proofs.Json.Layouts
import Ambient.Proofs.Sidecar.Homes
import Ambient.Sidecar.Json

/-!
# Sidecars survive their file

What a sidecar file says is the sidecar it was written from, as long as the homes
stand in their order.

A sidecar file may list its homes in any order and name one type twice. What is read is in the order
of the type names and has, for each name, the home that stands first in the file; beside this
nothing changes, and what was read once reads again as it is.
-/
namespace Ambient

open Json

theorem TypeHome.reads_decode (depth : Nat) (h : TypeHome) :
    Reads (TypeHome.shape.decode (depth + 1)) h.toJson h := by
  have typeName : shape.Takes [("TypeName", .text h.typeName)] ⟨none, none, none⟩
      ⟨some h.typeName, none, none⟩ := RecordShape.takes_field rfl rfl (Node.reads_asText _) rfl
  have projectName : shape.Takes [("ProjectName", .text h.projectName)]
      ⟨some h.typeName, none, none⟩ ⟨some h.typeName, some h.projectName, none⟩ :=
    RecordShape.takes_field rfl rfl (Node.reads_asText _) rfl
  have itemName : shape.Takes [("ProjectItemName", .text h.itemName)]
      ⟨some h.typeName, some h.projectName, none⟩
      ⟨some h.typeName, some h.projectName, some h.itemName⟩ :=
    RecordShape.takes_field rfl rfl (Node.reads_asText _) rfl
  exact ((typeName.append projectName).append itemName).reads rfl depth

namespace Sidecar

theorem reads_decode (depth : Nat) (s : Sidecar) :
    Reads ((shape (depth + 2)).decode (depth + 3)) s.toJson s := by
  have customName : (shape (depth + 2)).Takes [("CustomName", .ofOption s.customName)]
      ⟨none, none, none⟩ ⟨some s.customName, none, none⟩ :=
    RecordShape.takes_field rfl rfl (Node.reads_asOptionalText _) rfl
  have copyPaths : (shape (depth + 2)).Takes [("CopyPaths", .texts s.copyPaths)]
      ⟨some s.customName, none, none⟩ ⟨some s.customName, some s.copyPaths, none⟩ :=
    RecordShape.takes_field rfl rfl
      (Node.reads_asList (depth + 1) fun path _ => Node.reads_asText path) rfl
  have homes : (shape (depth + 2)).Takes
      [("ReferenceMetadata", .array (s.homes.map TypeHome.toJson))]
      ⟨some s.customName, some s.copyPaths, none⟩
      ⟨some s.customName, some s.copyPaths, some s.homes⟩ :=
    RecordShape.takes_field rfl rfl
      (Node.reads_asList (depth + 1) fun home _ => TypeHome.reads_decode depth home) rfl
  exact ((customName.append copyPaths).append homes).reads rfl (depth + 2)

theorem dropRepeated_of_settled {homes : List TypeHome} (settled : Settled homes) :
    dropRepeated homes = homes := by
  fun_induction dropRepeated homes with
  | case1 => rfl
  | case2 h => rfl
  | case3 h g r same ih =>
    have before := (List.pairwise_cons.mp settled).1 g List.mem_cons_self
    exact absurd same (ne_of_lt before)
  | case4 h g r other ih => rw [ih (List.pairwise_cons.mp settled).2]

theorem settle_of_settled {homes : List TypeHome} (settled : Settled homes) :
    settle homes = homes := by
  unfold settle
  rw [List.mergeSort_of_pairwise (settled.imp fun before => by simpa using le_of_lt before)]
  exact dropRepeated_of_settled settled

theorem parseJson_jsonText_eq (s : Sidecar) :
    parseJson s.jsonText = .ok { s with homes := settle s.homes } := by
  have read : decodeText ((shape (maxDepth - 1)).decode maxDepth) s.jsonText = .ok s :=
    (reads_decode 124 s).decodeText (isWrittenAs_pretty s.toJson)
  rw [parseJson, read]
  rfl

/-- A sidecar reads back from its text. -/
theorem parseJson_jsonText {s : Sidecar} (settled : Settled s.homes) :
    parseJson s.jsonText = .ok s := by
  rw [parseJson_jsonText_eq, settle_of_settled settled]

theorem mem_of_mem_dropRepeated {homes : List TypeHome} {k : TypeHome}
    (h : k ∈ dropRepeated homes) : k ∈ homes := by
  fun_induction dropRepeated homes with
  | case1 => exact h
  | case2 h => exact h
  | case3 h g r same ih =>
    rcases List.mem_cons.mp (ih h) with rfl | later
    · exact List.mem_cons_self
    · exact List.mem_cons_of_mem _ (List.mem_cons_of_mem _ later)
  | case4 h g r other ih =>
    rcases List.mem_cons.mp h with rfl | later
    · exact List.mem_cons_self
    · exact List.mem_cons_of_mem _ (ih later)

theorem settled_dropRepeated {homes : List TypeHome}
    (sorted : homes.Pairwise fun a b => a.typeName ≤ b.typeName) :
    Settled (dropRepeated homes) := by
  fun_induction dropRepeated homes with
  | case1 => exact List.Pairwise.nil
  | case2 h => exact List.pairwise_singleton _ h
  | case3 h g r same ih =>
    obtain ⟨first, rest⟩ := List.pairwise_cons.mp sorted
    exact ih (List.pairwise_cons.mpr
      ⟨fun k hk => first k (List.mem_cons_of_mem _ hk), (List.pairwise_cons.mp rest).2⟩)
  | case4 h g r other ih =>
    obtain ⟨first, rest⟩ := List.pairwise_cons.mp sorted
    have before : h.typeName < g.typeName := lt_of_le_of_ne (first g List.mem_cons_self) other
    refine List.pairwise_cons.mpr ⟨fun k hk => ?_, ih rest⟩
    rcases List.mem_cons.mp (mem_of_mem_dropRepeated hk) with rfl | later
    · exact before
    · exact lt_of_lt_of_le before ((List.pairwise_cons.mp rest).1 k later)

theorem pairwise_mergeSort (homes : List TypeHome) :
    (homes.mergeSort fun a b => decide (a.typeName ≤ b.typeName)).Pairwise
      fun a b => a.typeName ≤ b.typeName := by
  have sorted :=
    @List.pairwise_mergeSort _ (fun a b : TypeHome => decide (a.typeName ≤ b.typeName))
    (by simpa using fun a b c : TypeHome => le_trans) (by simpa using fun a b => le_total _ _) homes
  exact sorted.imp fun h => by simpa using h

theorem settled_settle (homes : List TypeHome) : Settled (settle homes) :=
  settled_dropRepeated (pairwise_mergeSort homes)

/-- Homes that were read stand in their order. -/
theorem settled_of_parseJson {text : String} {s : Sidecar} (h : parseJson text = .ok s) :
    Settled s.homes := by
  unfold parseJson at h
  cases read : decodeText ((shape (maxDepth - 1)).decode maxDepth) text with
  | error f => rw [read] at h; cases h
  | ok t =>
    rw [read] at h
    obtain rfl := Except.ok.inj h
    exact settled_settle t.homes

theorem not_blank_jsonText (s : Sidecar) : Text.blank s.jsonText = false := by
  have first : ∃ r, s.jsonText.toList = '\x7b' :: r := by
    unfold jsonText toJson Value.pretty
    rw [Value.prettyAt, toList_enclosed]
    exact ⟨_, rfl⟩
  obtain ⟨r, spelled⟩ := first
  have brace : Text.isBlank '\x7b' = false := by decide
  rw [Text.blank, spelled, List.all_cons, brace, Bool.false_and]

end Sidecar

end Ambient

namespace Ambient.Sidecar
variable {homes : List TypeHome} {h : TypeHome}

/-- Where equal names stand together, the first home of each name stays. -/
theorem mem_dropRepeated_iff (sorted : homes.Pairwise fun a b => a.typeName ≤ b.typeName) :
    h ∈ dropRepeated homes ↔ homes.find? (·.typeName == h.typeName) = some h := by
  fun_induction dropRepeated homes with
  | case1 => simp
  | case2 g =>
    by_cases same : g = h
    · simp [same]
    · have other : h ≠ g := Ne.symm same
      simp [other, same]
  | case3 g k r same ih =>
    obtain ⟨first, rest⟩ := List.pairwise_cons.mp sorted
    have shorter : (g :: r).Pairwise fun a b => a.typeName ≤ b.typeName := by
      apply List.pairwise_cons.mpr
      exact ⟨fun l hl => first l (List.mem_cons_of_mem k hl), (List.pairwise_cons.mp rest).2⟩
    rw [ih shorter]
    by_cases here : g.typeName = h.typeName
    · simp [here]
    · have there : ¬ k.typeName = h.typeName := fun there => here (same.trans there)
      simp [here, there]
  | case4 g k r other ih =>
    obtain ⟨first, rest⟩ := List.pairwise_cons.mp sorted
    rw [List.mem_cons, ih rest]
    by_cases here : g.typeName = h.typeName
    · -- all names after `g` are greater, so `g` is the only home of its name
      have later : ∀ l ∈ k :: r, l.typeName ≠ h.typeName := by
        intro l hl there
        have before : g.typeName < k.typeName := lt_of_le_of_ne (first k List.mem_cons_self) other
        have after : k.typeName ≤ l.typeName := by
          rcases List.mem_cons.mp hl with rfl | hl
          · exact le_refl _
          · exact (List.pairwise_cons.mp rest).1 l hl
        exact absurd (here.trans there.symm) (ne_of_lt (lt_of_lt_of_le before after))
      have none : (k :: r).find? (·.typeName == h.typeName) = none := by
        apply List.find?_eq_none.mpr
        intro l hl
        simpa using later l hl
      rw [none, List.find?_cons_of_pos (a := g) (by simpa using here)]
      simp [eq_comm]
    · rw [List.find?_cons_of_neg (a := g) (by simpa using here)]
      constructor
      · rintro (rfl | found)
        · exact absurd rfl here
        · exact found
      · exact Or.inr

/-- The sort is stable: the homes of one name keep their order. -/
theorem filter_mergeSort (homes : List TypeHome) (name : String) :
    (homes.mergeSort fun a b => decide (a.typeName ≤ b.typeName)).filter (·.typeName == name) =
      homes.filter (·.typeName == name) := by
  have equal : (homes.filter (·.typeName == name)).Pairwise
      fun a b => decide (a.typeName ≤ b.typeName) = true := by
    apply List.pairwise_of_forall_mem_list
    intro a ha b hb
    have left := beq_iff_eq.mp (List.mem_filter.mp ha).2
    have right := beq_iff_eq.mp (List.mem_filter.mp hb).2
    simp [left, right]
  have kept := @List.sublist_mergeSort _ (fun a b : TypeHome => decide (a.typeName ≤ b.typeName))
    _ (by simpa using fun a b c : TypeHome => le_trans) (by simpa using fun a b => le_total _ _)
    _ equal List.filter_sublist
  have inside := kept.filter (·.typeName == name)
  simp only [List.filter_filter, Bool.and_self] at inside
  have size := ((List.mergeSort_perm homes fun a b => decide (a.typeName ≤ b.typeName)).filter
    (·.typeName == name)).length_eq
  exact (inside.eq_of_length size.symm).symm

/-- What is left of homes that are read: of each name the first. -/
theorem mem_settle_iff : h ∈ settle homes ↔
    homes.find? (·.typeName == h.typeName) = some h := by
  calc h ∈ settle homes
      ↔ (homes.mergeSort fun a b => decide (a.typeName ≤ b.typeName)).find?
          (·.typeName == h.typeName) = some h := mem_dropRepeated_iff (pairwise_mergeSort homes)
    _ ↔ homes.find? (·.typeName == h.typeName) = some h := by
      rw [← List.head?_filter, filter_mergeSort, List.head?_filter]

/-- A sidecar that was written reads back. Its homes come back in the order of their type names, the
first of each name and no other; the rest comes back as it was, and so does all of it if the homes
stood in that order. What is read is written and read again without a change. -/
theorem parseJson_jsonText_settles (s : Sidecar) :
    ∃ homes, parseJson s.jsonText = .ok { s with homes } ∧ Settled homes ∧
      (∀ h, h ∈ homes ↔ s.homes.find? (·.typeName == h.typeName) = some h) ∧
      (Settled s.homes → homes = s.homes) ∧
      ∀ t, parseJson s.jsonText = .ok t → parseJson t.jsonText = .ok t := by
  refine ⟨settle s.homes, parseJson_jsonText_eq s, settled_settle s.homes, ?_, ?_, ?_⟩
  · intro h
    exact mem_settle_iff
  · exact settle_of_settled
  · intro t read
    exact parseJson_jsonText (settled_of_parseJson read)

end Ambient.Sidecar
