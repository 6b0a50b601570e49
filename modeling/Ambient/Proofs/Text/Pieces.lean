import Ambient.Text.Search

/-!
# Texts between separators

Pieces are what splitting a list at the separators gives, so joined pieces come apart again. The
last piece of a text is also the last piece of anything that ends in a separator and that text.
-/
namespace Ambient.Text
variable {p : Char → Bool} {c : Char}

theorem pieces_eq_splitOnP (cs : List Char) : pieces p cs = cs.splitOnP p := by
  induction cs with
  | nil => rfl
  | cons d r ih =>
    rw [pieces, ih, List.splitOnP_cons_eq_if_modifyHead]
    split
    · rfl
    · cases split : r.splitOnP p with
      | nil => exact absurd split (List.splitOnP_ne_nil p r)
      | cons first others => rfl

theorem pieces_ne_nil (cs : List Char) : pieces p cs ≠ [] := by
  rw [pieces_eq_splitOnP]
  exact List.splitOnP_ne_nil p cs

theorem eq_nil_of_pieces {cs : List Char} (h : pieces p cs = [[]]) : cs = [] := by
  cases cs with
  | nil => rfl
  | cons c r =>
    rw [pieces] at h
    split at h
    · exact absurd (List.cons.inj h).2 (pieces_ne_nil r)
    · split at h <;> simp at h

/-- A text whose first piece is empty and not its last starts with a separator. -/
theorem exists_cons_of_pieces {cs : List Char} {more : List (List Char)}
    (h : pieces p cs = [] :: more) (going : more ≠ []) : ∃ d r, cs = d :: r ∧ p d = true := by
  cases cs with
  | nil => exact absurd (List.cons.inj h).2.symm going
  | cons d r =>
    by_cases sep : p d = true
    · exact ⟨d, r, rfl, sep⟩
    · rw [pieces, if_neg sep] at h
      cases rest : pieces p r with
      | nil => exact absurd rest (pieces_ne_nil r)
      | cons first others => simp [rest] at h

theorem pieces_append_cons (h : p c = true) (a b : List Char) :
    pieces p (a ++ c :: b) = pieces p a ++ pieces p b := by
  simp only [pieces_eq_splitOnP]
  exact List.splitOnP_append_cons a b h

theorem pieces_of_forall {cs : List Char} (h : ∀ d ∈ cs, p d = false) : pieces p cs = [cs] := by
  rw [pieces_eq_splitOnP]
  exact List.splitOnP_eq_singleton h

/-- No piece holds a separator. -/
theorem not_of_mem_pieces {cs : List Char} : ∀ x ∈ pieces p cs, ∀ d ∈ x, p d = false := by
  induction cs with
  | nil => simp [pieces]
  | cons c r ih =>
    rw [pieces]
    by_cases sep : p c = true
    · rw [if_pos sep]
      intro x hx
      rcases List.mem_cons.mp hx with rfl | hx
      · simp
      · exact ih x hx
    · rw [if_neg sep]
      cases rest : pieces p r with
      | nil => exact absurd rest (pieces_ne_nil r)
      | cons first others =>
        rw [rest] at ih
        intro x hx d hd
        rcases List.mem_cons.mp hx with rfl | hx
        · rcases List.mem_cons.mp hd with rfl | hd
          · exact eq_false_of_ne_true sep
          · exact ih first List.mem_cons_self d hd
        · exact ih x (List.mem_cons_of_mem _ hx) d hd

/-- The pieces hold what a text holds besides separators. -/
theorem exists_mem_pieces_iff {cs : List Char} :
    (∃ x ∈ pieces p cs, c ∈ x) ↔ c ∈ cs ∧ p c = false := by
  induction cs with
  | nil => simp [pieces]
  | cons d r ih =>
    rw [pieces]
    by_cases sep : p d = true
    · have other : p c = false → c ≠ d := by
        rintro plain rfl
        rw [sep] at plain
        cases plain
      rw [if_pos sep, List.mem_cons]
      simp only [List.mem_cons, exists_eq_or_imp, List.not_mem_nil, false_or, ih]
      constructor
      · exact fun ⟨later, plain⟩ => ⟨.inr later, plain⟩
      · exact fun ⟨member, plain⟩ => ⟨member.resolve_left (other plain), plain⟩
    · have plain := eq_false_of_ne_true sep
      rw [if_neg sep]
      cases rest : pieces p r with
      | nil => exact absurd rest (pieces_ne_nil r)
      | cons first others =>
        rw [rest] at ih
        simp only [List.mem_cons, exists_eq_or_imp] at ih ⊢
        rw [or_assoc, ih]
        constructor
        · rintro (rfl | ⟨later, other⟩)
          · exact ⟨.inl rfl, plain⟩
          · exact ⟨.inr later, other⟩
        · rintro ⟨rfl | later, other⟩
          · exact .inl rfl
          · exact .inr ⟨later, other⟩

/-- What holds no separator goes to the last piece. -/
theorem exists_pieces_append (a : List Char) {b : List Char} (plain : ∀ d ∈ b, p d = false) :
    ∃ front last, pieces p a = front ++ [last] ∧ pieces p (a ++ b) = front ++ [last ++ b] := by
  induction a with
  | nil => exact ⟨[], [], rfl, pieces_of_forall plain⟩
  | cons c r ih =>
    obtain ⟨front, last, before, after⟩ := ih
    rw [List.cons_append, pieces, pieces, before, after]
    by_cases sep : p c = true
    · rw [if_pos sep, if_pos sep]
      exact ⟨[] :: front, last, rfl, rfl⟩
    · rw [if_neg sep, if_neg sep]
      cases front with
      | nil => exact ⟨[], c :: last, rfl, rfl⟩
      | cons first more => exact ⟨(c :: first) :: more, last, rfl, rfl⟩

theorem joinWith_eq_intercalate (sep : List Char) (xs : List (List Char)) :
    joinWith sep xs = sep.intercalate xs := by
  fun_induction joinWith sep xs with
  | case1 => rfl
  | case2 x => simp
  | case3 x y more ih => rw [ih, List.intercalate_cons_cons]

theorem joinWith_concat (sep : List Char) {xs : List (List Char)} (some : xs ≠ [])
    (last : List Char) :
    joinWith sep (xs ++ [last]) = joinWith sep xs ++ sep ++ last := by
  rw [joinWith_eq_intercalate, joinWith_eq_intercalate]
  induction xs with
  | nil => exact absurd rfl some
  | cons first more ih =>
    cases more with
    | nil => simp
    | cons second rest =>
      have tail := ih (by simp)
      simp only [List.cons_append, List.intercalate_cons_cons] at tail ⊢
      rw [tail]
      simp only [List.append_assoc]

theorem pieces_intercalate (h : p c = true) {xs : List (List Char)} (some : xs ≠ [])
    (apart : ∀ x ∈ xs, ∀ d ∈ x, p d = false) : pieces p ([c].intercalate xs) = xs := by
  induction xs with
  | nil => exact absurd rfl some
  | cons x more ih =>
    have first := pieces_of_forall (apart x List.mem_cons_self)
    cases more with
    | nil => simpa using first
    | cons y rest =>
      have others := ih (by simp) fun z hz => apart z (List.mem_cons_of_mem x hz)
      rw [List.intercalate_cons_cons, List.append_assoc, List.singleton_append,
        pieces_append_cons h, first, others]
      rfl

theorem lastPiece_of_forall {cs : List Char} (h : ∀ d ∈ cs, p d = false) :
    lastPiece p cs = cs := by
  have whole : (cs.reverse ++ []).takeWhile (fun d => !p d) = cs.reverse ++ [].takeWhile _ :=
    List.takeWhile_append_of_pos fun d hd => by simp [h d (List.mem_reverse.mp hd)]
  rw [List.append_nil, List.takeWhile_nil, List.append_nil] at whole
  rw [lastPiece, whole, List.reverse_reverse]

theorem takeWhile_append_cons {α : Type} {q : α → Bool} {x : α} (stops : q x = false)
    (a b : List α) :
    (a ++ x :: b).takeWhile q = a.takeWhile q := by
  rw [List.takeWhile_append]
  split
  · rename_i whole
    have all : a.takeWhile q = a := (List.takeWhile_prefix q).eq_of_length whole
    rw [List.takeWhile_cons_of_neg (by rw [stops]; exact Bool.false_ne_true), List.append_nil, all]
  · rfl

theorem lastPiece_append_cons (h : p c = true) (a b : List Char) :
    lastPiece p (a ++ c :: b) = lastPiece p b := by
  unfold lastPiece
  rw [List.reverse_append, List.reverse_cons, List.append_assoc, List.singleton_append,
    takeWhile_append_cons (by rw [h]; rfl)]

end Ambient.Text
