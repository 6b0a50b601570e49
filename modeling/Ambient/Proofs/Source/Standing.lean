import Ambient.Proofs.Source.Sewing

/-!
# Items that stand elsewhere

A text that is moved as a whole gives the same items at another place, and what is cut out of it
there is the same. A text of whole tokens that ends with a semicolon or a closing brace gives its
tokens wherever it stands.
-/
namespace Ambient

open Lexeme Text

/-- The item `n` bytes further on. -/
def Item.shift (n : Nat) (i : Item) : Item := ⟨i.token, i.docs, n + i.start, n + i.stop⟩

theorem ofLexemes_map_shift (n : Nat) (docs : List String) (ls : List Lexeme) :
    Item.ofLexemes docs (ls.map (Lexeme.shift n)) =
      (Item.ofLexemes docs ls).map (Item.shift n) := by
  fun_induction Item.ofLexemes docs ls with
  | case1 => rfl
  | case2 docs line start stop r ih => exact ih
  | case3 docs t start stop r ih => exact congrArg (_ :: ·) ih

theorem ofLexemes_shift (n : Nat) {fresh : Bool} {start : Nat} {cs : List Char}
    (docs : List String) :
    Item.ofLexemes docs (scan fresh (n + start) cs) =
      (Item.ofLexemes docs (scan fresh start cs)).map (Item.shift n) := by
  rw [((scans fresh start cs).shift n).scan_eq, ofLexemes_map_shift]

/-- An item is read from the text it spans. -/
theorem exists_of_mem_scan {fresh : Bool} {start : Nat} {cs : List Char}
    {docs : List String} {i : Item} (h : i ∈ Item.ofLexemes docs (scan fresh start cs)) :
    ∃ u a w v fresh', cs = u ++ a :: w ++ v ∧
      i.start = start + byteLength u ∧ i.stop = start + byteLength (u ++ a :: w) ∧
      read fresh' a (w ++ v) = (some (.token i.token), v) := by
  obtain ⟨before, more, items⟩ := List.append_of_mem h
  obtain ⟨front, back, lexemes, -⟩ := Item.exists_lexeme items
  obtain ⟨u, a, w, v, fresh', whole, begins, ends, -, reads, -⟩ :=
    (scans fresh start cs).exists_at lexemes
  refine ⟨u, a, w, v, fresh', by rw [whole, List.append_assoc], begins, ?_, reads⟩
  rw [byteLength_append, ← Nat.add_assoc, ← begins]
  exact ends

namespace Text

/-- What stands between two places of a text is cut out whatever follows the text. -/
theorem slice_prefix {r u v : List Char} (x y : List Char) (first : u <+: r) (second : v <+: r) :
    slice (r ++ x) (byteLength u) (byteLength v) =
      slice (r ++ y) (byteLength u) (byteLength v) := by
  obtain ⟨w, rfl⟩ := second
  rcases Nat.le_total (byteLength u) (byteLength v) with le | le
  · obtain ⟨u', same⟩ := first
    obtain ⟨s, rfl⟩ := exists_append_of_byteLength_le same le
    rw [List.append_assoc (u ++ s), List.append_assoc (u ++ s), slice_append, slice_append]
  · rw [slice, slice, Nat.sub_eq_zero_of_le le, takeBytes_zero, takeBytes_zero]

theorem slice_behind (u cs : List Char) (start stop : Nat) :
    slice (u ++ cs) (byteLength u + start) (byteLength u + stop) = slice cs start stop := by
  have drop : ∀ n, dropBytes (byteLength u + n) (u ++ cs) = dropBytes n cs := by
    intro n
    induction u with
    | nil => rw [byteLength, Nat.zero_add, List.nil_append]
    | cons c u ih =>
      have positive := c.utf8Size_pos
      obtain ⟨m, hm⟩ : ∃ m, byteLength (c :: u) + n = m + 1 :=
        ⟨byteLength (c :: u) + n - 1, by
        simp only [byteLength]
        omega⟩
      have left : m + 1 - c.utf8Size = byteLength u + n := by
        rw [← hm, byteLength]
        omega
      rw [hm, List.cons_append, dropBytes, left, ih]
  rw [slice, slice, drop, Nat.add_sub_add_left]

end Text

/-- A semicolon and a closing brace are read from themselves, whatever follows. -/
theorem closes_of_read {fresh : Bool} {a : Char} {w v : List Char} {t : Token}
    (reads : read fresh a (w ++ v) = (some (.token t), v))
    (closes : t = .mark .semicolon ∨ t = .mark .closeBrace) :
    w = [] ∧ (a = '\x7d' ∨ a = ';') ∧ ∀ fresh z, read fresh a z = (some (.token t), z) := by
  have closing : ∀ {t' : Token} {left : List Char},
      (some (Piece.token t'), left) = (some (.token t), v) →
      t' = .mark .semicolon ∨ t' = .mark .closeBrace := by
    intro t' left same
    cases same
    exact closes
  unfold Lexeme.read at reads
  split at reads
  case h_4 =>
    obtain ⟨same, left⟩ := Prod.mk.inj reads
    cases same
    exact ⟨List.append_left_eq_self.mp left, .inl rfl, fun _ _ => rfl⟩
  case h_10 =>
    obtain ⟨same, left⟩ := Prod.mk.inj reads
    cases same
    exact ⟨List.append_left_eq_self.mp left, .inr rfl, fun _ _ => rfl⟩
  case h_16 =>
    unfold readColon at reads
    split at reads <;> simpa using closing reads
  case h_17 =>
    unfold readEquals at reads
    split at reads <;> simpa using closing reads
  case h_18 =>
    split at reads
    · cases reads
    · simpa using closing reads
  case h_19 =>
    unfold readSlash at reads
    split at reads <;> first | cases reads | simpa using closing reads
  case h_20 =>
    unfold readQuote at reads
    split at reads <;> simpa using closing reads
  case h_21 =>
    unfold readAt at reads
    repeat' split at reads
    all_goals simpa using closing reads
  case h_22 =>
    unfold readDollar at reads
    split at reads <;> simpa using closing reads
  case h_23 => simpa using closing reads
  case h_24 =>
    unfold readWord wordToken at reads
    repeat' split at reads
    all_goals simpa using closing reads
  all_goals simpa using closing reads

/-- The text is one of tokens from its first character to its last, where a semicolon or a
closing brace stands. -/
def Stands (text : String) : Prop :=
  ∃ first last, (Item.ofText text).head? = some first ∧
    (Item.ofText text).getLast? = some last ∧
    first.start = 0 ∧ last.stop = byteLength text.toList ∧
    (last.token = .mark .semicolon ∨ last.token = .mark .closeBrace)

/-- Only the documentation in front of the first token tells what stood before the text. -/
theorem ofLexemes_of_start {cs : List Char} {first : Item} {more : List Item}
    (whole : Item.ofLexemes [] (scan true 0 cs) = first :: more) (starts : first.start = 0)
    (fresh : Bool) (n : Nat) (docs : List String) :
    Item.ofLexemes docs (scan fresh n cs) =
      ⟨first.token, docs, n, n + first.stop⟩ :: more.map (Item.shift n) := by
  have early : ∀ {fresh start docs x},
      Item.ofLexemes docs (scan fresh start x) = first :: more → start = 0 := by
    intro fresh start docs x same
    have ordered := @Item.ordered_scan fresh start x docs
    have := (ordered.1 first (same ▸ List.mem_cons_self)).1
    omega
  cases cs with
  | nil =>
    rw [scan] at whole
    cases whole
  | cons c r =>
    have positive := c.utf8Size_pos
    have newline : ¬ c = '\n' := by
      rintro rfl
      rw [scan_newline] at whole
      exact absurd (early whole) (Nat.succ_ne_zero 0)
    have gap : ¬ (isBlank c || c == '\ufeff') = true := by
      intro blank
      rw [scan, if_neg newline, if_pos blank] at whole
      have := early whole
      omega
    have solid := isSolid_of_not newline gap
    cases reads : read true c r with
    | mk piece? rest =>
    obtain ⟨v, rfl⟩ := suffix_of_read reads
    have passed := byteLength_pos c v
    cases piece? with
    | none =>
      rw [← List.cons_append, scan_none solid reads] at whole
      have := early whole
      omega
    | some piece =>
      cases piece with
      | doc line =>
        rw [← List.cons_append, scan_some solid reads] at whole
        have := early whole
        omega
      | token t =>
        have plain : c ≠ '#' := by
          rintro rfl
          cases reads
        rw [← List.cons_append, scan_some solid reads] at whole
        rw [read_fresh true fresh _ plain] at reads
        obtain ⟨rfl, rfl⟩ := List.cons.inj whole
        rw [← List.cons_append, scan_some solid reads, ← ofLexemes_shift]
        simp [Item.ofLexemes]

/-- The tokens of a text that stands for itself, wherever it stands and whatever follows. -/
theorem Stands.exists_items {text : String} (stands : Stands text) (fresh : Bool) (n : Nat)
    (docs : List String) (z : List Char) : ∃ taken,
      taken.map (·.token) = (Item.ofText text).map (·.token) ∧
      Item.ofLexemes docs (scan fresh n (text.toList ++ z)) =
        taken ++ Item.ofLexemes [] (scan false (n + byteLength text.toList) z) := by
  obtain ⟨first, last, head, tail, starts, ends, closes⟩ := stands
  have items : Item.ofText text = Item.ofLexemes [] (scan true 0 text.toList) := rfl
  obtain ⟨u, a, w, v, fresh', whole, begins, stops, reads⟩ :=
    exists_of_mem_scan (items ▸ List.mem_of_getLast? tail)
  obtain rfl : v = [] := by
    cases v with
    | nil => rfl
    | cons c v =>
      have positive := byteLength_pos c v
      rw [ends, whole, byteLength_append] at stops
      omega
  obtain ⟨rfl, spelled, again⟩ := closes_of_read reads closes
  have seam : IsSeam a := spelled.elim (.inr <| .inr <| .inl ·) (.inr <| .inr <| .inr ·)
  have solid : IsSolid a := by rcases spelled with rfl | rfl <;> decide
  rw [List.append_nil] at whole
  obtain ⟨front, split⟩ := List.getLast?_eq_some_iff.mp tail
  rw [items, whole] at split
  have ordered := @Item.ordered_scan true 0 (u ++ [a]) []
  rw [split] at ordered
  have parts : Item.Parts (0 + byteLength u) front [last] := by
    refine ⟨fun i hi => ?_, fun i hi => ?_,
      .inr ⟨last, List.mem_singleton_self last, begins⟩⟩
    · rw [← begins]
      exact (List.pairwise_append.mp ordered.2).2.2 i hi last (List.mem_singleton_self last)
    · rw [List.mem_singleton.mp hi]
      exact Nat.le_of_eq begins.symm
  obtain ⟨fresh₁, docs₁, -, behind, sewn⟩ := exists_sewn (List.cons_ne_nil a []) split parts
  have one : ∀ z, Item.ofLexemes docs₁ (scan fresh₁ (0 + byteLength u) (a :: z)) =
      ⟨last.token, docs₁, 0 + byteLength u, 0 + byteLength u + byteLength [a]⟩ ::
        Item.ofLexemes [] (scan false (0 + byteLength u + byteLength [a]) z) :=
    fun z => congrArg (Item.ofLexemes docs₁)
      (scan_some solid (v := []) (again fresh₁ z) (0 + byteLength u))
  have none : Item.ofLexemes [] (scan false (0 + byteLength u + byteLength [a]) []) = [] := by
    rw [scan]
    rfl
  rw [one, none] at behind
  obtain ⟨same, -⟩ := List.cons.inj behind
  have onward : Item.ofLexemes [] (scan true 0 (text.toList ++ z)) =
      Item.ofText text ++ Item.ofLexemes [] (scan false (byteLength text.toList) z) := by
    rw [items, whole, split, List.append_assoc, List.singleton_append, sewn a z seam, one, ← same,
      byteLength_append, Nat.zero_add, List.append_assoc, List.singleton_append]
  obtain ⟨more, begun⟩ := List.head?_eq_some_iff.mp head
  rw [begun, List.cons_append] at onward
  refine ⟨⟨first.token, docs, n, n + first.stop⟩ :: more.map (Item.shift n), ?_, ?_⟩
  · rw [begun, List.map_cons, List.map_cons, List.map_map]
    rfl
  · rw [ofLexemes_of_start onward starts, List.map_append, ← ofLexemes_shift]
    rfl

end Ambient
