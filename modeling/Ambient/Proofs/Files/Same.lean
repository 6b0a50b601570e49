import Ambient.Proofs.Files.Places

/-!
# Trees that show the same

The entries of a directory stand in the order of their names, so what can be looked up in
it determines it. A tree is then determined by the texts of its files and the places of
its directories.
-/
namespace Ambient.FileTree

variable {t u c : FileTree} {es ds : List (String × FileTree)} {name : String}

theorem child?_head : (dir ((name, t) :: es)).child? name = some t := by
  rw [child?_cons, if_pos rfl]

/-- What is looked up behind the first entry. -/
theorem child?_tail (wf : WellFormedIn ((name, t) :: es)) (n : String) :
    (dir es).child? n = if n = name then none else (dir ((name, t) :: es)).child? n := by
  by_cases here : n = name
  · rw [if_pos here, here]
    exact child?_of_lt wf.2.1
  · rw [if_neg here, child?_cons, if_neg (Ne.symm here)]

/-- The first entry of a directory comes before all that can be looked up in it. -/
theorem le_of_child? (wf : WellFormedIn ((name, t) :: es)) {n : String}
    (found : (dir ((name, t) :: es)).child? n = some c) : name ≤ n := by
  by_contra before
  have after : ∀ e ∈ (name, t) :: es, n < e.1 := by
    rintro e (_ | ⟨_, later⟩)
    · exact lt_of_not_ge before
    · exact lt_trans (lt_of_not_ge before) (wf.2.1 e later)
  rw [child?_of_lt after] at found
  cases found

theorem entries_eq_of_child? (one : WellFormedIn es) (two : WellFormedIn ds)
    (same : ∀ n, (dir es).child? n = (dir ds).child? n) : es = ds := by
  induction es generalizing ds with
  | nil =>
    cases ds with
    | nil => rfl
    | cons d more =>
      have found := same d.1
      rw [child?_nil, child?_head] at found
      cases found
  | cons e more ih =>
    obtain ⟨m, t⟩ := e
    cases ds with
    | nil =>
      have found := same m
      rw [child?_nil, child?_head] at found
      cases found
    | cons d others =>
      obtain ⟨k, u⟩ := d
      have first : m = k := by
        apply le_antisymm
        · exact le_of_child? one ((same k).trans child?_head)
        · exact le_of_child? two ((same m).symm.trans child?_head)
      subst first
      have here : t = u := by
        have found := same m
        rw [child?_head, child?_head] at found
        exact Option.some.inj found
      have later : more = others := by
        apply ih one.2.2.2 two.2.2.2
        intro n
        rw [child?_tail one, child?_tail two, same]
      rw [here, later]

theorem isSome_child? (t : FileTree) (n : String) :
    (t.child? n).isSome = (t.dirAt [n] || (t.textAt [n]).isSome) := by
  rw [← isSome_find?, find?_cons]
  cases t.child? n <;> rfl

/-- Trees that show the same have the same entries, and these show the same. -/
theorem child?_same (texts : t.textAt = u.textAt) (dirs : t.dirAt = u.dirAt) (n : String) :
    (t.child? n = none ∧ u.child? n = none) ∨ ∃ c d, t.child? n = some c ∧
    u.child? n = some d ∧ c.textAt = d.textAt ∧ c.dirAt = d.dirAt := by
  have both : (t.child? n).isSome = (u.child? n).isSome := by
    rw [isSome_child?, isSome_child?, texts, dirs]
  cases here : t.child? n with
  | none =>
    rw [here] at both
    have there : u.child? n = none := by simpa using both.symm
    exact .inl ⟨rfl, there⟩
  | some c =>
    rw [here] at both
    obtain ⟨d, there⟩ := Option.isSome_iff_exists.mp both.symm
    refine .inr ⟨c, d, rfl, there, ?_, ?_⟩
    · funext q
      have text := congrFun texts (n :: q)
      simpa only [textAt_cons, here, there, Option.bind_some] using text
    · funext q
      have directory := congrFun dirs (n :: q)
      simpa only [dirAt_cons, here, there, Option.any_some] using directory

theorem sizeOf_lt_of_child? (found : t.child? name = some c) : sizeOf c < sizeOf t := by
  obtain ⟨e, he, rfl⟩ := Option.map_eq_some_iff.mp found
  have member := List.mem_of_find?_eq_some he
  cases t with
  | file text => cases member
  | dir es =>
    have less := List.sizeOf_lt_of_mem member
    obtain ⟨m, c⟩ := e
    simp only [entries, Prod.mk.sizeOf_spec, dir.sizeOf_spec] at less ⊢
    omega

/-- Well-formed trees with the same texts and the same directories are one tree. -/
theorem eq_of_same {t u : FileTree} (one : t.WellFormed) (two : u.WellFormed)
    (texts : t.textAt = u.textAt) (dirs : t.dirAt = u.dirAt) : t = u := by
  have kind : t.isDir = u.isDir := congrFun dirs []
  cases t with
  | file a =>
    cases u with
    | file b =>
      have same : some a = some b := congrFun texts []
      rw [Option.some.inj same]
    | dir ds => cases kind
  | dir es =>
    cases u with
    | file b => cases kind
    | dir ds =>
      refine congrArg dir (entries_eq_of_child? one two fun n => ?_)
      rcases child?_same texts dirs n with
        ⟨nothing, none⟩ | ⟨c, d, here, there, text, directory⟩
      · rw [nothing, none]
      · have less := sizeOf_lt_of_child? here
        rw [here, there, eq_of_same (wellFormed_of_child? one here) (wellFormed_of_child? two there)
          text directory]
termination_by sizeOf t

end Ambient.FileTree
