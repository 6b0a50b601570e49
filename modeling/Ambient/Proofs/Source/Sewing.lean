import Ambient.Proofs.Source.Cuts

/-!
# Items on both sides of a seam

A text is cut where no lexeme and no comment goes on. The items in front of the cut do not depend on
what follows it, if a seam follows, and the items behind it depend on what stands in front only in
where they stand.
-/
namespace Ambient

open Lexeme Text

/-- Items stand one behind the other, from `start` on. -/
def Item.Ordered (start : Nat) (ts : List Item) : Prop :=
  (∀ i ∈ ts, start ≤ i.start ∧ i.start < i.stop) ∧
    ts.Pairwise fun i j => i.stop ≤ j.start

theorem Item.Ordered.mono {start start' : Nat} {ts : List Item} (h : Item.Ordered start' ts)
    (le : start ≤ start') : Item.Ordered start ts :=
  ⟨fun i hi => ⟨Nat.le_trans le (h.1 i hi).1, (h.1 i hi).2⟩, h.2⟩

theorem Item.ordered_ofLexemes {ls : List Lexeme} : ∀ {start : Nat} (docs : List String),
    (∀ l ∈ ls, start ≤ l.start ∧ l.start < l.stop) →
    (ls.Pairwise fun l m => l.stop ≤ m.start) →
      Item.Ordered start (Item.ofLexemes docs ls) := by
  induction ls with
  | nil => exact fun _ _ _ => ⟨List.forall_mem_nil _, .nil⟩
  | cons l ls ih =>
    intro start docs late pairs
    obtain ⟨first, others⟩ := List.forall_mem_cons.mp late
    obtain ⟨behind, apart⟩ := List.pairwise_cons.mp pairs
    obtain ⟨piece, start', stop⟩ := l
    cases piece with
    | doc line => exact ih _ others apart
    | token t =>
      have after := ih [] (fun m hm => ⟨behind m hm, (others m hm).2⟩) apart
      have passed : start ≤ stop := Nat.le_of_lt (Nat.lt_of_le_of_lt first.1 first.2)
      exact ⟨List.forall_mem_cons.mpr ⟨first, (after.mono passed).1⟩,
        .cons (fun j hj => (after.1 j hj).1) after.2⟩

theorem Item.ordered_scan {fresh : Bool} {start : Nat} {cs : List Char} (docs : List String) :
    Item.Ordered start (Item.ofLexemes docs (scan fresh start cs)) :=
  have lexemes := (scans fresh start cs).ordered
  Item.ordered_ofLexemes docs lexemes.1 lexemes.2

/-- A place in a text that no lexeme and no comment crosses: an item ends there or starts there. -/
structure Item.Parts (place : Nat) (front back : List Item) : Prop where
  inside : ∀ i ∈ front, i.stop ≤ place
  outside : ∀ i ∈ back, place ≤ i.start
  edge : (∃ i ∈ front, i.stop = place) ∨ ∃ i ∈ back, i.start = place

/-- Not all items stand behind the place. -/
theorem Item.Parts.not_late {place start : Nat} {front back : List Item}
    (parts : Item.Parts place front back) (late : Item.Ordered start (front ++ back))
    (passed : place < start) : False := by
  rcases parts.edge with ⟨i, hi, ends⟩ | ⟨i, hi, starts⟩
  · have := late.1 i (List.mem_append_left _ hi)
    omega
  · have := late.1 i (List.mem_append_right _ hi)
    omega

/-- Without the first item, which ends before the place. -/
theorem Item.Parts.tail {place : Nat} {i : Item} {front back : List Item}
    (parts : Item.Parts place (i :: front) back) (before : i.stop < place) :
    Item.Parts place front back := by
  refine ⟨fun j hj => parts.inside j (List.mem_cons_of_mem i hj), parts.outside, ?_⟩
  rcases parts.edge with ⟨j, hj, ends⟩ | starts
  · rcases List.mem_cons.mp hj with rfl | hj
    · omega
    · exact .inl ⟨j, hj, ends⟩
  · exact .inr starts

/-- Nothing stands before the place where the items begin. -/
theorem Item.Ordered.front_eq_nil {place : Nat} {front back : List Item}
    (ordered : Item.Ordered place (front ++ back)) (inside : ∀ i ∈ front, i.stop ≤ place) :
    front = [] := by
  rw [List.eq_nil_iff_forall_not_mem]
  intro i hi
  have late := ordered.1 i (List.mem_append_left _ hi)
  have early := inside i hi
  omega

/-- No line ends right at the place, if it is the place where the items begin. -/
theorem Item.Parts.head?_ne {place : Nat} {docs : List String} {front back : List Item}
    {x : List Char} (parts : Item.Parts place front back)
    (whole : Item.ofLexemes docs (scan false place x) = front ++ back) :
    x.head? ≠ some '\n' := by
  intro newline
  obtain ⟨q, rfl⟩ := List.head?_eq_some_iff.mp newline
  rw [scan_newline] at whole
  exact parts.not_late (whole ▸ Item.ordered_scan docs) (Nat.lt_succ_self place)

/-- An item that begins before the place, or a comment, ends there or before. -/
theorem Item.Parts.stop_le {fresh : Bool} {start place : Nat} {docs : List String} {a : Char}
    {v left : List Char} {piece? : Option Piece} {front back : List Item}
    (parts : Item.Parts place front back) (begun : start < place) (solid : IsSolid a)
    (reads : read fresh a (v ++ left) = (piece?, left))
    (whole : Item.ofLexemes docs (scan fresh start (a :: v ++ left)) = front ++ back) :
    start + byteLength (a :: v) ≤ place := by
  by_contra crossed
  have passed := Nat.lt_of_not_le crossed
  have late : ∀ docs, Item.Ordered (start + byteLength (a :: v))
      (Item.ofLexemes docs (scan false (start + byteLength (a :: v)) left)) := Item.ordered_scan
  cases piece? with
  | none =>
    rw [scan_none solid reads] at whole
    exact parts.not_late (whole ▸ late docs) passed
  | some piece =>
    rw [scan_some solid reads] at whole
    cases piece with
    | doc line => exact parts.not_late (whole ▸ late (docs ++ [line])) passed
    | token t =>
      rw [Item.ofLexemes] at whole
      cases front with
      | nil =>
        have first : place ≤ start := parts.outside _ (whole ▸ List.mem_cons_self)
        omega
      | cons i front =>
        obtain ⟨rfl, -⟩ := List.cons.inj whole
        exact crossed (parts.inside _ List.mem_cons_self)

/-- So what is taken off the text stands before the place. -/
theorem Item.Parts.exists_rest {fresh : Bool} {start : Nat} {docs : List String} {a : Char}
    {r x left : List Char} {piece? : Option Piece} {front back : List Item}
    (parts : Item.Parts (start + byteLength (a :: r)) front back) (solid : IsSolid a)
    (reads : read fresh a (r ++ x) = (piece?, left))
    (whole : Item.ofLexemes docs (scan fresh start (a :: r ++ x)) = front ++ back) :
    ∃ v rest, r = v ++ rest ∧ left = rest ++ x := by
  obtain ⟨v, split⟩ := suffix_of_read reads
  rcases List.append_eq_append_iff.mp split with ⟨rest, rfl, rfl⟩ | ⟨w, rfl, rfl⟩
  · exact ⟨v, rest, rfl, rfl⟩
  · have begun := Nat.lt_add_of_pos_right (n := start) (byteLength_pos a r)
    rw [← List.append_assoc] at reads
    rw [List.cons_append, ← List.append_assoc, ← List.cons_append] at whole
    have ended := parts.stop_le begun solid reads whole
    obtain rfl : w = [] := by
      cases w with
      | nil => rfl
      | cons b w =>
        have positive := byteLength_pos b w
        rw [← List.cons_append, byteLength_append] at ended
        omega
    exact ⟨r, [], (List.append_nil r).symm, rfl⟩

/-- Behind `r`, where the text goes on with `x`, it can go on with anything that a seam begins:
the items in front stay, and the lexer goes on from there in the same state, which is a new one
right behind a token. -/
def Sewn (fresh : Bool) (start : Nat) (docs : List String) (r x : List Char)
    (front back : List Item) : Prop :=
  ∃ fresh' docs',
    ((∃ i ∈ front, i.stop = start + byteLength r) → fresh' = false ∧ docs' = []) ∧
    back = Item.ofLexemes docs' (scan fresh' (start + byteLength r) x) ∧
    ∀ c z, IsSeam c → Item.ofLexemes docs (scan fresh start (r ++ c :: z)) =
      front ++ Item.ofLexemes docs' (scan fresh' (start + byteLength r) (c :: z))

section Sewn
variable {fresh fresh₁ : Bool} {start : Nat} {docs docs₁ : List String} {a : Char}
  {v rest x : List Char} {front back : List Item}

theorem sewn_nil (whole : Item.ofLexemes docs (scan fresh start x) = front ++ back)
    (parts : Item.Parts start front back) : Sewn fresh start docs [] x front back := by
  have ordered := @Item.ordered_scan fresh start x docs
  rw [whole] at ordered
  obtain rfl : front = [] := ordered.front_eq_nil parts.inside
  exact ⟨fresh, docs, by simp, whole.symm, fun c z _ => rfl⟩

/-- The items `taken` of what stands further in front do not reach the place. -/
theorem Sewn.behind (taken : List Item)
    (h : Sewn fresh₁ (start + byteLength v) docs₁ rest x front back)
    (early : ∀ i ∈ taken, i.stop < start + byteLength (v ++ rest))
    (step : ∀ c z, IsSeam c → Item.ofLexemes docs (scan fresh start (v ++ (rest ++ c :: z))) =
      taken ++ Item.ofLexemes docs₁ (scan fresh₁ (start + byteLength v) (rest ++ c :: z))) :
    Sewn fresh start docs (v ++ rest) x (taken ++ front) back := by
  obtain ⟨fresh', docs', new, behind, sewn⟩ := h
  have place : start + byteLength v + byteLength rest = start + byteLength (v ++ rest) := by
    rw [byteLength_append, Nat.add_assoc]
  rw [place] at new behind
  simp only [place] at sewn
  refine ⟨fresh', docs', ?_, behind, fun c z seam => ?_⟩
  · rintro ⟨i, hi, ends⟩
    rcases List.mem_append.mp hi with hi | hi
    · exact absurd ends (Nat.ne_of_lt (early i hi))
    · exact new ⟨i, hi, ends⟩
  · rw [List.append_assoc, step c z seam, sewn c z seam, List.append_assoc]

/-- White space is passed over one character at a time, whatever follows. -/
theorem exists_scan_gap (gap : ¬ IsSolid a) :
    ∃ fresh₁, ∀ y, scan fresh start (a :: y) = scan fresh₁ (start + byteLength [a]) y := by
  by_cases newline : a = '\n'
  · subst newline
    exact ⟨true, scan_newline fresh start⟩
  · have blank : isBlank a = true ∨ a = '\ufeff' := by
      by_contra other
      exact gap (isSolid_of_not newline (by simpa using other))
    exact ⟨fresh, fun y => scan_gap fresh start y newline blank⟩

/-- What is read off the front does not depend on what stands behind the place. A comment does not
end with the line that follows. -/
theorem read_again {piece? : Option Piece} {c : Char} {z : List Char} (more : x ≠ [])
    (reads : read fresh a (v ++ (rest ++ x)) = (piece?, rest ++ x)) (seam : IsSeam c)
    (line : rest = [] → x.head? = some '\n' → ∃ t, piece? = some (.token t)) :
    read fresh a (v ++ (rest ++ c :: z)) = (piece?, rest ++ c :: z) := by
  rw [← List.append_assoc] at reads ⊢
  exact keeps_read fresh a (v ++ rest) x rest (c :: z) piece? reads more (isSeamed_cons seam z)
    fun nil newline => .inr (line nil newline)

/-- A token stands in front, and what follows it is sewn. -/
theorem sewn_token {t : Token} (parts : Item.Parts (start + byteLength (a :: v ++ rest)) front back)
    (step : ∀ c z, IsSeam c →
      Item.ofLexemes docs (scan fresh start (a :: v ++ (rest ++ c :: z))) =
      ⟨t, docs, start, start + byteLength (a :: v)⟩ ::
        Item.ofLexemes [] (scan false (start + byteLength (a :: v)) (rest ++ c :: z)))
    (whole : ⟨t, docs, start, start + byteLength (a :: v)⟩ ::
      Item.ofLexemes [] (scan false (start + byteLength (a :: v)) (rest ++ x)) = front ++ back)
    (later : ∀ {front : List Item},
      Item.ofLexemes [] (scan false (start + byteLength (a :: v)) (rest ++ x)) = front ++ back →
      Item.Parts (start + byteLength (a :: v) + byteLength rest) front back →
        Sewn false (start + byteLength (a :: v)) [] rest x front back) :
    Sewn fresh start docs (a :: v ++ rest) x front back := by
  have size : byteLength (a :: v ++ rest) = byteLength (a :: v) + byteLength rest :=
    byteLength_append _ _
  have positive := byteLength_pos a v
  cases front with
  | nil =>
    have first : start + byteLength (a :: v ++ rest) ≤ start :=
      parts.outside _ (whole ▸ List.mem_cons_self)
    omega
  | cons i front =>
    obtain ⟨rfl, others⟩ := List.cons.inj whole
    cases rest with
    | nil =>
      -- the token ends at the place, so that nothing else stands in front of it
      rw [List.append_nil] at parts ⊢
      have ordered := others ▸ Item.ordered_scan []
      obtain rfl : front = [] := ordered.front_eq_nil fun j hj =>
        parts.inside j (List.mem_cons_of_mem _ hj)
      exact ⟨false, [], fun _ => ⟨rfl, rfl⟩, others.symm, fun c z seam => step c z seam⟩
    | cons b rest =>
      have further := byteLength_pos b rest
      have before : start + byteLength (a :: v) < start + byteLength (a :: v ++ b :: rest) := by
        omega
      have remaining := parts.tail before
      rw [size, ← Nat.add_assoc] at remaining
      exact (later others remaining).behind [_] (List.forall_mem_singleton.mpr before) step

end Sewn

/-- A text can go on in another way behind a place that nothing crosses. Induction on what stands
before the place, by what the lexer takes off its front. -/
theorem exists_sewn {fresh : Bool} {start : Nat} {docs : List String} {front back : List Item}
    {r x : List Char} (more : x ≠ [])
    (whole : Item.ofLexemes docs (scan fresh start (r ++ x)) = front ++ back)
    (parts : Item.Parts (start + byteLength r) front back) :
    Sewn fresh start docs r x front back := by
  cases r with
  | nil => exact sewn_nil whole parts
  | cons a r =>
    by_cases solid : IsSolid a
    · cases reads : read fresh a (r ++ x) with
      | mk piece? left =>
      obtain ⟨v, rest, rfl, rfl⟩ := parts.exists_rest solid reads whole
      have size : start + byteLength (a :: v ++ rest) =
          start + byteLength (a :: v) + byteLength rest := by
        rw [byteLength_append, Nat.add_assoc]
      rw [List.append_assoc] at reads
      rw [List.cons_append, List.append_assoc, ← List.cons_append] at whole
      cases piece? with
      | none =>
        rw [scan_none solid reads] at whole
        have parts := size ▸ parts
        refine (exists_sewn more whole parts).behind (v := a :: v) [] nofun ?_
        intro c z seam
        have line : rest = [] → x.head? = some '\n' → ∃ t, none = some (Piece.token t) := by
          rintro rfl newline
          exact absurd newline (parts.head?_ne whole)
        exact congrArg _ (scan_none solid (read_again more reads seam line) start)
      | some piece =>
        rw [scan_some solid reads] at whole
        cases piece with
        | doc text =>
          have parts := size ▸ parts
          refine (exists_sewn more whole parts).behind (v := a :: v) [] nofun ?_
          intro c z seam
          have line : rest = [] → x.head? = some '\n' →
              ∃ t, some (.doc text) = some (Piece.token t) := by
            rintro rfl newline
            exact absurd newline (parts.head?_ne whole)
          exact congrArg _ (scan_some solid (read_again more reads seam line) start)
        | token t =>
          refine sewn_token parts (fun c z seam => ?_) whole (exists_sewn more)
          exact congrArg _
            (scan_some solid (read_again more reads seam fun _ _ => ⟨t, rfl⟩) start)
    · obtain ⟨fresh₁, step⟩ := @exists_scan_gap fresh start a solid
      rw [List.cons_append, step] at whole
      have size : start + byteLength (a :: r) = start + byteLength [a] + byteLength r := by
        rw [byteLength, byteLength, byteLength, Nat.add_zero, Nat.add_assoc]
      exact (exists_sewn more whole (size ▸ parts)).behind (v := [a]) [] nofun
        fun c z _ => congrArg _ (step _)
termination_by r.length

end Ambient
