import Ambient.Host
import Mathlib.Data.List.Forall2

/-!
# Types and the types around them

The declarations of a file form a forest. Here it is laid out as a list, depth first and in the
order of the source, each type with the types around it; and of a list in which names come more than
once, the first of each name is kept.
-/
namespace Ambient

namespace Host

/-- A type with the types around it, the innermost first. -/
structure Nested where
  type : TypeDecl
  around : List TypeDecl

/-- The namespace of the first type that has one. -/
def spaceOf (types : List TypeDecl) : String :=
  ((types.map (·.space)).find? (!·.isEmpty)).getD ""

/-- The qualified name of a type that is given with the types around it, the innermost first. -/
def addressOf? : List TypeDecl → Option String
  | [] => none
  | t :: around => match addressOf? around with
    | some outer => some (qualify outer t.name)
    | none => some (qualify (spaceOf (t :: around)) t.name)

namespace Nested

/-- The namespace of a type: its own, or that of the nearest type around it that has one. -/
def space (n : Nested) : String := spaceOf (n.type :: n.around)

/-- Whether all types around a type are classes. -/
def inClasses (n : Nested) : Bool := n.around.all (·.kind == .classKind)

/-- Whether a type gets a declaration: a class or an enum at the top level, or an
enum inside classes. -/
def isEmitted (n : Nested) : Bool :=
  n.inClasses && (n.type.isEnum || n.around.isEmpty && n.type.kind == .classKind)

end Nested

mutual
/-- A type and all that is nested in it. -/
def TypeDecl.within (around : List TypeDecl) : TypeDecl → List Nested
  | t@⟨_, _, _, _, _, _, nested, _⟩ =>
    ⟨t, around⟩ :: TypeDecl.withinAll (t :: around) nested

def TypeDecl.withinAll (around : List TypeDecl) : List TypeDecl → List Nested
  | [] => []
  | t :: more => TypeDecl.within around t ++ TypeDecl.withinAll around more
end

/-- All types that a file declares, at any depth. -/
def File.allTypes (f : File) : List Nested := TypeDecl.withinAll [] f.types

/-- The types of a file that get a declaration. -/
def File.emitted (f : File) : List Nested := f.allTypes.filter (·.isEmitted)

section Within
variable {n : Nested}

theorem TypeDecl.withinAll_eq (around ts : List TypeDecl) :
    TypeDecl.withinAll around ts = ts.flatMap (TypeDecl.within around) := by
  induction ts with
  | nil => rw [withinAll, List.flatMap_nil]
  | cons t more ih => rw [withinAll, ih, List.flatMap_cons]

theorem TypeDecl.within_eq (around : List TypeDecl) (t : TypeDecl) :
    t.within around = ⟨t, around⟩ :: TypeDecl.withinAll (t :: around) t.nested := by
  cases t
  rw [within.eq_def]

theorem spaceOf_cons (t : TypeDecl) (around : List TypeDecl) :
    spaceOf (t :: around) = if t.space.isEmpty then spaceOf around else t.space := by
  unfold spaceOf
  rw [List.map_cons, List.find?_cons]
  cases t.space.isEmpty <;> rfl

theorem spaceOf_singleton (t : TypeDecl) : spaceOf [t] = t.space := by
  rw [spaceOf_cons]
  split
  · rename_i empty
    exact (String.isEmpty_iff.mp empty).symm
  · rfl

theorem spaceOf_eq_empty_iff {types : List TypeDecl} :
    spaceOf types = "" ↔ ∀ t ∈ types, t.space = "" := by
  induction types with
  | nil => simp [spaceOf]
  | cons t around ih =>
    rw [spaceOf_cons, List.forall_mem_cons, ← ih]
    split
    · rename_i empty
      simp [String.isEmpty_iff.mp empty]
    · rename_i own
      have named : t.space ≠ "" := by simpa using own
      simp [named]

theorem isSome_addressOf? (types : List TypeDecl) : (addressOf? types).isSome = !types.isEmpty := by
  cases types with
  | nil => rfl
  | cons t around =>
    rw [addressOf?]
    cases addressOf? around <;> rfl

/-- What lies in a type has that type and all around it around. -/
theorem suffix_around_of_mem_withinAll {around ts : List TypeDecl}
    (h : n ∈ TypeDecl.withinAll around ts) : around <:+ n.around := by
  rw [TypeDecl.withinAll_eq] at h
  obtain ⟨t, ht, hn⟩ := List.mem_flatMap.mp h
  rw [TypeDecl.within_eq] at hn
  rcases List.mem_cons.mp hn with rfl | inner
  · exact List.suffix_rfl
  · exact (List.suffix_cons t around).trans (suffix_around_of_mem_withinAll inner)
termination_by sizeOf ts
decreasing_by
  have := List.sizeOf_lt_of_mem ht
  cases t
  simp only [TypeDecl.mk.sizeOf_spec] at *
  omega

/-- Nothing in a type that is no class gets a declaration. -/
theorem filter_withinAll_eq_nil {around : List TypeDecl} {t : TypeDecl} (inside : t ∈ around)
    (kind : t.kind ≠ .classKind) (ts : List TypeDecl) :
    (TypeDecl.withinAll around ts).filter (·.isEmitted) = [] := by
  rw [List.filter_eq_nil_iff]
  intro n hn emitted
  have classes : n.inClasses = true := (Bool.and_eq_true _ _ ▸ emitted).1
  have here := (suffix_around_of_mem_withinAll hn).subset inside
  exact kind (beq_iff_eq.mp (List.all_eq_true.mp classes t here))

end Within

end Host

section Firsts
variable {α β γ : Type} [DecidableEq γ] {key : α → γ} {x : α} {xs : List α}

/-- The first element of each key, in order. -/
def firsts (key : α → γ) : List α → List α
  | [] => []
  | x :: more => x :: (firsts key more).filter (key · ≠ key x)

theorem nodup_firsts (key : α → γ) (xs : List α) : ((firsts key xs).map key).Nodup := by
  induction xs with
  | nil => exact List.nodup_nil
  | cons x more ih =>
    rw [firsts, List.map_cons, List.nodup_cons]
    refine ⟨fun again => ?_, (List.filter_sublist.map key).nodup ih⟩
    obtain ⟨y, hy, same⟩ := List.mem_map.mp again
    exact of_decide_eq_true (List.mem_filter.mp hy).2 same

/-- An element is kept exactly where none before it has its key. -/
theorem mem_firsts_iff : x ∈ firsts key xs ↔
    ∃ before after, xs = before ++ x :: after ∧ ∀ y ∈ before, key y ≠ key x := by
  induction xs with
  | nil => simp [firsts]
  | cons z more ih =>
    rw [firsts, List.mem_cons]
    constructor
    · rintro (rfl | later)
      · exact ⟨[], more, rfl, fun y hy => absurd hy List.not_mem_nil⟩
      · obtain ⟨kept, other⟩ := List.mem_filter.mp later
        obtain ⟨before, after, rfl, fresh⟩ := ih.mp kept
        refine ⟨z :: before, after, rfl, fun y hy => ?_⟩
        rcases List.mem_cons.mp hy with rfl | hy
        · exact fun same => of_decide_eq_true other same.symm
        · exact fresh y hy
    · rintro ⟨before, after, spelled, fresh⟩
      cases before with
      | nil => exact .inl (List.cons.inj spelled).1.symm
      | cons y before =>
        obtain ⟨rfl, rfl⟩ := List.cons.inj spelled
        refine .inr (List.mem_filter.mpr ⟨ih.mpr ⟨before, after, rfl, fun w hw => ?_⟩, ?_⟩)
        · exact fresh w (List.mem_cons_of_mem _ hw)
        · exact decide_eq_true fun same => fresh z List.mem_cons_self same.symm

/-- Every element has a first one of its key, at its place or before it. -/
theorem exists_first (key : α → γ) (before after : List α) (x : α) :
    ∃ y ∈ firsts key (before ++ x :: after), key y = key x ∧ (y = x ∨ y ∈ before) := by
  cases found : before.find? (key · = key x) with
  | none =>
    refine ⟨x, mem_firsts_iff.mpr ⟨before, after, rfl, fun y hy => ?_⟩, rfl, .inl rfl⟩
    simpa using List.find?_eq_none.mp found y hy
  | some y =>
    obtain ⟨same, front, back, rfl, fresh⟩ := List.find?_eq_some_iff_append.mp found
    have same : key y = key x := of_decide_eq_true same
    refine ⟨y, mem_firsts_iff.mpr ⟨front, back ++ x :: after, by simp, fun z hz => ?_⟩, same,
      .inr (by simp)⟩
    rw [same]
    simpa using fresh z hz

theorem firsts_filter (key : α → γ) (k : γ) (xs : List α) :
    firsts key (xs.filter (key · ≠ k)) = (firsts key xs).filter (key · ≠ k) := by
  induction xs with
  | nil => rfl
  | cons x more ih =>
    by_cases same : key x = k
    · rw [List.filter_cons_of_neg (by simpa using same), ih, firsts,
        List.filter_cons_of_neg (by simpa using same), List.filter_filter, same]
      simp
    · rw [List.filter_cons_of_pos (by simpa using same), firsts, ih, firsts,
        List.filter_cons_of_pos (by simpa using same), List.filter_comm]

/-- Leaving out what has the name of an earlier element keeps the first of each name. -/
theorem eraseDupsBy_eq_firsts {r : α → α → Bool}
    (named : ∀ a b, r a b = true ↔ key a = key b)
    (xs : List α) : xs.eraseDupsBy r = firsts key xs := by
  induction size : xs.length using Nat.strongRecOn generalizing xs with
  | ind n ih =>
    cases xs with
    | nil => rfl
    | cons x more =>
      have others : (more.filter fun b => r b x = false) = more.filter (key · ≠ key x) := by
        refine List.filter_congr fun b _ => ?_
        rw [decide_eq_decide, ← Bool.not_eq_true, named]
      have fewer : (more.filter (key · ≠ key x)).length < n := by
        have := List.length_filter_le (key · ≠ key x) more
        simp only [List.length_cons] at size
        omega
      rw [List.eraseDupsBy_cons, others, ih _ fewer _ rfl, firsts_filter, firsts]

/-- Lists that correspond, element by element with their keys, have corresponding firsts. -/
theorem forall₂_firsts {R : α → β → Prop} {name : β → γ}
    (same : ∀ x y, R x y → key x = name y) {ys : List β} (h : List.Forall₂ R xs ys) :
    List.Forall₂ R (firsts key xs) (firsts name ys) := by
  induction h with
  | nil => exact .nil
  | @cons x y xs ys hxy _ ih =>
    refine .cons hxy (List.rel_filter (fun a b hab => ?_) ih)
    simp only [decide_eq_true_eq]
    rw [same a b hab, same x y hxy]

end Firsts

section Paired
variable {α β : Type} {R : α → β → Prop} {xs : List α} {ys : List β}

theorem exists_right_of_forall₂ (h : List.Forall₂ R xs ys) {x : α} (hx : x ∈ xs) :
    ∃ y ∈ ys, R x y := by
  induction h with
  | nil => cases hx
  | cons pair _ ih =>
    rcases List.mem_cons.mp hx with rfl | later
    · exact ⟨_, List.mem_cons_self, pair⟩
    · obtain ⟨y, hy, related⟩ := ih later
      exact ⟨y, List.mem_cons_of_mem _ hy, related⟩

theorem exists_left_of_forall₂ (h : List.Forall₂ R xs ys) {y : β} (hy : y ∈ ys) :
    ∃ x ∈ xs, R x y :=
  exists_right_of_forall₂ h.flip hy

end Paired

end Ambient
