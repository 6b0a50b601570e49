import Ambient.Proofs.Source.Scans
import Ambient.Proofs.Source.Seams
import Ambient.Proofs.Text.Trimming
import Mathlib.Data.List.Basic

/-!
# Cut out and read again

Items that are names and marks stand one after another in the source, with white space and comments
between them. The text from the first to the last of them, read on its own, gives the same tokens.
-/
namespace Ambient

namespace Lexeme

theorem isSolid_of_part {c : Char} (h : isWordPart c = true) : IsSolid c := by
  apply isSolid_of_not_mem
  intro gap
  have none : ∀ n ∈ gapCodes, isWordPart (Char.ofNat n) = false := by decide +kernel
  have no := none c.toNat gap
  rw [Char.ofNat_toNat, h] at no
  cases no

theorem last_of_parts {u : List Char} (parts : ∀ d ∈ u, isWordPart d = true) :
    ∀ d ∈ u.getLast?, Text.isBlank d = false :=
  fun d last => (isSolid_of_part (parts d (List.mem_of_getLast? last))).2.1

/-- What a name or a mark takes behind its first character ends in a character that is not white
space. -/
theorem last_of_read {fresh : Bool} {c : Char} {w rest : List Char} {t : Token}
    (h : read fresh c (w ++ rest) = (some (.token t), rest)) (plain : t.IsPlain) :
    ∀ d ∈ w.getLast?, Text.isBlank d = false := by
  have mark : ∀ {m : Mark}, markPiece m (w ++ rest) = (some (.token t), rest) →
      ∀ d ∈ w.getLast?, Text.isBlank d = false := by
    intro m h
    obtain rfl : w = [] := List.append_left_eq_self.mp (Prod.mk.inj h).2
    simp
  have row : ∀ {u v : List Char}, w ++ rest = u ++ v → v = rest →
      (∀ d ∈ u.getLast?, Text.isBlank d = false) →
        ∀ d ∈ w.getLast?, Text.isBlank d = false := by
    rintro u v same rfl last
    rwa [List.append_cancel_right same]
  have text : ∀ {read : List Char × List Char},
      textPiece read = (some (.token t), rest) → False :=
    fun h => not_textPiece h (by rintro _ ⟨⟩; exact plain)
  have op : ∀ {d : Char} {q : List Char}, opPiece d q = (some (.token t), rest) → False := by
    intro d q h
    obtain ⟨same, -⟩ := Prod.mk.inj h
    cases same
    exact plain
  unfold read at h
  split at h
  all_goals first | exact mark h | skip
  · unfold readColon at h
    split at h
    · rename_i same
      exact row (u := [':']) same (Prod.mk.inj h).2 (by rintro d ⟨⟩; decide)
    · exact mark h
  · unfold readEquals at h
    split at h
    · rename_i same
      exact row (u := ['>']) same (Prod.mk.inj h).2 (by rintro d ⟨⟩; decide)
    · exact (op h).elim
    · exact mark h
  · split at h
    · cases h
    · exact (op h).elim
  · unfold readSlash at h
    split at h <;> first | cases h | exact (op h).elim
  · unfold readQuote at h
    split at h <;> exact (text h).elim
  · unfold readAt at h
    split at h
    · exact (op h).elim
    · rename_i c' r same
      split at h
      · exact (text h).elim
      · split at h
        · rename_i start
          have whole : w ++ rest = (c' :: r.takeWhile isWordPart) ++ r.dropWhile isWordPart := by
            rw [same, List.cons_append, List.takeWhile_append_dropWhile]
          refine row whole (Prod.mk.inj h).2 (last_of_parts ?_)
          intro d hd
          rcases List.mem_cons.mp hd with rfl | part
          · exact IsWord.isWordPart_of_start start
          · exact List.all_eq_true.mp List.all_takeWhile d part
        · exact (op h).elim
  · unfold readDollar at h
    split at h <;> first | exact (text h).elim | exact (op h).elim
  · obtain ⟨same, -⟩ := Prod.mk.inj h
    cases same
    exact plain.elim
  · unfold readWord at h
    split at h
    · obtain ⟨same, -⟩ := Prod.mk.inj h
      cases same
      exact plain.elim
    · split at h
      · have whole := (List.takeWhile_append_dropWhile (p := isWordPart) (l := w ++ rest)).symm
        exact row whole (Prod.mk.inj h).2 (last_of_parts (List.all_eq_true.mp List.all_takeWhile))
      · exact (op h).elim

theorem ne_hash_of_read {fresh : Bool} {c : Char} {r rest : List Char} {t : Token}
    (h : read fresh c r = (some (.token t), rest)) (plain : t.IsPlain) : c ≠ '#' := by
  rintro rfl
  cases fresh with
  | true => cases h
  | false =>
    obtain ⟨same, -⟩ := Prod.mk.inj h
    cases same
    exact plain

end Lexeme

open Lexeme Text

/-- The next token `t` of the text `cs`: it is spelled `w` behind `gap`, and `rest` follows, which
the items `ts` are read from. A name or mark is read again if the text ends somewhere in `rest`. -/
structure Next (fresh : Bool) (start : Nat) (cs : List Char) (t : Item) (ts : List Item)
    (gap w rest : List Char) : Prop where
  whole : cs = gap ++ w ++ rest
  begins : t.start = start + byteLength gap
  ends : t.stop = start + byteLength (gap ++ w)
  reads : ∃ fresh' c r, w = c :: r ∧ IsSolid c ∧
    read fresh' c (r ++ rest) = (some (.token t.token), rest)
  after : ts = Item.ofLexemes [] (scan false t.stop rest)
  again : t.token.IsPlain → ∀ y x, rest = y ++ x → ∀ start' docs, ∃ t',
    Item.ofLexemes docs (scan fresh start' (gap ++ w ++ y)) =
      t' :: Item.ofLexemes [] (scan false (start' + byteLength (gap ++ w)) y) ∧ t'.token = t.token

theorem Next.last {fresh : Bool} {start : Nat} {cs gap w rest : List Char} {t : Item}
    {ts : List Item} (next : Next fresh start cs t ts gap w rest)
    (plain : t.token.IsPlain) {d : Char} (last : w.getLast? = some d) : isBlank d = false := by
  obtain ⟨fresh', c, r, rfl, solid, reads⟩ := next.reads
  rw [List.getLast?_cons] at last
  cases inside : r.getLast? with
  | none =>
    rw [inside] at last
    cases last
    exact solid.2.1
  | some e =>
    rw [inside] at last
    cases last
    exact last_of_read reads plain _ inside

/-- The token alone, with a text behind it that is cut off somewhere. -/
theorem Next.alone {fresh : Bool} {start : Nat} {cs gap w y x : List Char} {t : Item}
    {ts : List Item} (next : Next fresh start cs t ts gap w (y ++ x)) (plain : t.token.IsPlain) :
    ∃ t', Item.ofLexemes [] (scan true 0 (w ++ y)) =
      t' :: Item.ofLexemes [] (scan false (byteLength w) y) ∧ t'.token = t.token := by
  obtain ⟨fresh', c, r, rfl, solid, reads⟩ := next.reads
  rw [read_fresh fresh' true _ (ne_hash_of_read reads plain), ← List.append_assoc] at reads
  have cut := read_cut reads
  refine ⟨⟨t.token, [], 0, byteLength (c :: r)⟩, ?_, rfl⟩
  rw [scan_some solid cut, Nat.zero_add]
  rfl

theorem Next.head {fresh : Bool} {start : Nat} {cs gap w rest : List Char} {t : Item}
    {ts : List Item} (next : Next fresh start cs t ts gap w rest) :
    ∃ c r, w = c :: r ∧ isBlank c = false := by
  obtain ⟨_, c, r, rfl, solid, -⟩ := next.reads
  exact ⟨c, r, rfl, solid.2.1⟩

/-- Something before the next token that is passed over. -/
theorem Next.behind {fresh fresh' : Bool} {start : Nat} {v cs gap w rest : List Char} {t : Item}
    {ts : List Item} (next : Next fresh' (start + byteLength v) cs t ts gap w rest)
    (passes : ∀ y x, cs = y ++ x → ∀ start' docs, ∃ docs',
      Item.ofLexemes docs (scan fresh start' (v ++ y)) =
        Item.ofLexemes docs' (scan fresh' (start' + byteLength v) y)) :
    Next fresh start (v ++ cs) t ts (v ++ gap) w rest := by
  refine ⟨?_, ?_, ?_, next.reads, next.after, ?_⟩
  · rw [next.whole]
    simp only [List.append_assoc]
  · rw [next.begins, byteLength_append, Nat.add_assoc]
  · rw [next.ends, List.append_assoc, byteLength_append v, Nat.add_assoc]
  · intro plain y x left start' docs
    obtain ⟨docs', passed⟩ := passes (gap ++ w ++ y) x
      (by rw [next.whole, left]; simp only [List.append_assoc]) start' docs
    obtain ⟨t', again, token⟩ := next.again plain y x left (start' + byteLength v) docs'
    refine ⟨t', ?_, token⟩
    have same : v ++ gap ++ w ++ y = v ++ (gap ++ w ++ y) := by simp only [List.append_assoc]
    rw [same, passed, again, List.append_assoc v, byteLength_append v, Nat.add_assoc]

theorem exists_next {fresh : Bool} {start : Nat} {cs : List Char} :
    ∀ {docs : List String} {t : Item} {ts : List Item},
      Item.ofLexemes docs (scan fresh start cs) = t :: ts →
        ∃ gap w rest, Next fresh start cs t ts gap w rest := by
  have run := scans fresh start cs
  generalize scan fresh start cs = ls at run ⊢
  induction run with
  | nil =>
    intro docs t ts h
    cases h
  | @newline fresh start _ _ _ ih =>
    intro docs t ts h
    obtain ⟨gap, w, rest, next⟩ := ih h
    refine ⟨_, _, _, @Next.behind fresh true start ['\n'] _ _ _ _ _ _ next ?_⟩
    intro y x _ start' docs
    exact ⟨docs, congrArg (Item.ofLexemes docs) (scan_newline fresh start' y)⟩
  | @gap fresh start c _ _ newline blank _ ih =>
    intro docs t ts h
    obtain ⟨gap, w, rest, next⟩ := ih h
    refine ⟨_, _, _, @Next.behind fresh fresh start [c] _ _ _ _ _ _ next ?_⟩
    intro y x _ start' docs
    exact ⟨docs, congrArg (Item.ofLexemes docs) (scan_gap fresh start' y newline blank)⟩
  | @pass fresh _ c v _ _ solid reads _ ih =>
    intro docs t ts h
    obtain ⟨gap, w, after, next⟩ := ih h
    refine ⟨_, _, _, next.behind ?_⟩
    rintro y x rfl start' docs'
    have cut : read fresh c (v ++ y) = (none, y) := read_cut (x := x) (by rwa [List.append_assoc])
    exact ⟨docs', congrArg (Item.ofLexemes docs') (scan_none solid cut start')⟩
  | @piece fresh start c v rest piece _ solid reads onward ih =>
    intro docs t ts h
    cases piece with
    | token token =>
      obtain ⟨rfl, rfl⟩ := List.cons.inj h
      rw [← onward.scan_eq]
      refine ⟨[], c :: v, rest, rfl, rfl, rfl, ⟨fresh, c, v, rfl, solid, reads⟩, rfl, ?_⟩
      rintro - y x rfl start' docs'
      have cut : read fresh c (v ++ y) = (some (.token token), y) :=
        read_cut (x := x) (by rwa [List.append_assoc])
      refine ⟨⟨token, docs', start', start' + byteLength (c :: v)⟩, ?_, rfl⟩
      rw [List.nil_append, scan_some solid cut]
      rfl
    | doc line =>
      obtain ⟨gap, w, after, next⟩ := ih h
      refine ⟨_, _, _, next.behind ?_⟩
      rintro y x rfl start' docs'
      have cut : read fresh c (v ++ y) = (some (.doc line), y) :=
        read_cut (x := x) (by rwa [List.append_assoc])
      refine ⟨docs' ++ [line], ?_⟩
      rw [scan_some solid cut]
      rfl

/-- An item is a lexeme with a token, and the lexemes behind it give the items behind it. -/
theorem Item.exists_lexeme {ls : List Lexeme} :
    ∀ {docs : List String} {i : Item} {before more : List Item},
    Item.ofLexemes docs ls = before ++ i :: more →
      ∃ front back, ls = front ++ ⟨.token i.token, i.start, i.stop⟩ :: back ∧
        more = Item.ofLexemes [] back := by
  induction ls with
  | nil =>
    intro docs i before more h
    exact absurd (List.append_eq_nil_iff.mp h.symm).2 (List.cons_ne_nil i more)
  | cons l ls ih =>
    have onward : ∀ {docs i before more}, Item.ofLexemes docs ls = before ++ i :: more →
        ∃ front back, l :: ls = front ++ ⟨.token i.token, i.start, i.stop⟩ :: back ∧
          more = Item.ofLexemes [] back := by
      intro docs i before more h
      obtain ⟨front, back, rfl, behind⟩ := ih h
      exact ⟨l :: front, back, rfl, behind⟩
    intro docs i before more h
    obtain ⟨piece, start, stop⟩ := l
    cases piece with
    | doc line => exact onward h
    | token t =>
      cases before with
      | nil =>
        obtain ⟨rfl, rfl⟩ := List.cons.inj h
        exact ⟨[], ls, rfl, rfl⟩
      | cons j before => exact onward (List.cons.inj h).2

/-- The items from one place on are read from the end of the text. -/
theorem exists_scan {fresh : Bool} {start : Nat} {cs : List Char} {docs : List String}
    {before ts : List Item} (h : Item.ofLexemes docs (scan fresh start cs) = before ++ ts) :
    ∃ u x fresh' docs', cs = u ++ x ∧
      ts = Item.ofLexemes docs' (scan fresh' (start + byteLength u) x) := by
  cases ts with
  | nil =>
    refine ⟨cs, [], fresh, [], (List.append_nil cs).symm, ?_⟩
    rw [scan]
    rfl
  | cons i more =>
    obtain ⟨front, back, split, behind⟩ := Item.exists_lexeme h
    obtain ⟨u, c, v, rest, fresh', whole, begins, ends, solid, reads, onward⟩ :=
      (scans fresh start cs).exists_at split
    refine ⟨u, c :: v ++ rest, fresh', i.docs, whole, ?_⟩
    rw [← begins, scan_some solid reads, ← ends, onward.scan_eq, behind]
    rfl

/-- The items that come next end where a text `u` ends, which gives their tokens on its own. -/
theorem exists_cut {rest : List Item} :
    ∀ {taken : List Item} {start : Nat} {cs : List Char},
      Item.ofLexemes [] (scan false start cs) = taken ++ rest →
      (∀ i ∈ taken, i.token.IsPlain) →
        ∃ u x, cs = u ++ x ∧ (∀ i ∈ taken.getLast?, i.stop = start + byteLength u) ∧
          (taken = [] → u = []) ∧ (∀ d ∈ u.getLast?, isBlank d = false) ∧
          ∀ start', (Item.ofLexemes [] (scan false start' u)).map (·.token) =
            taken.map (·.token) := by
  intro taken
  induction taken with
  | nil =>
    intro start cs _ _
    refine ⟨[], cs, rfl, by simp, fun _ => rfl, by simp, ?_⟩
    intro start'
    rw [scan]
    rfl
  | cons t more ih =>
    intro start cs h plain
    obtain ⟨gap, w, x, next⟩ := exists_next h
    obtain ⟨u, x, rfl, stop, empty, last, again⟩ :=
      ih next.after.symm fun i hi => plain i (List.mem_cons_of_mem t hi)
    refine ⟨gap ++ w ++ u, x, ?_, ?_, by simp, ?_, ?_⟩
    · rw [next.whole, List.append_assoc _ u]
    · intro i hi
      rw [byteLength_append, ← Nat.add_assoc, ← next.ends]
      cases more with
      | nil =>
        cases hi
        rw [empty rfl]
        rfl
      | cons t' more => exact stop i hi
    · intro d hd
      rw [List.getLast?_append, Option.mem_def, Option.or_eq_some_iff] at hd
      rcases hd with hd | ⟨-, hd⟩
      · exact last d hd
      · obtain ⟨c, r, rfl, -⟩ := next.head
        rw [List.getLast?_append_of_ne_nil gap (List.cons_ne_nil c r)] at hd
        exact next.last (plain t List.mem_cons_self) hd
    · intro start'
      obtain ⟨t', items, token⟩ := next.again (plain t List.mem_cons_self) u x rfl start' []
      rw [items, List.map_cons, List.map_cons, again, token]

namespace Host

/-- What is written of names and marks gives their tokens again. -/
theorem tokens_writtenText {text : String} {t : Item} {taken rest : List Item}
    (there : t :: taken ++ rest <:+ Item.ofText text)
    (plain : ∀ i ∈ t :: taken, i.token.IsPlain) :
    (Item.ofText (writtenText text.toList (t :: taken ++ rest) rest)).map (·.token) =
      (t :: taken).map (·.token) := by
  obtain ⟨before, whole⟩ := there
  obtain ⟨u, x, fresh, docs, chars, items⟩ := exists_scan whole.symm
  rw [Nat.zero_add] at items
  obtain ⟨gap, w, after, next⟩ := exists_next items.symm
  obtain ⟨v, left, rfl, stop, empty, last, again⟩ :=
    exists_cut next.after.symm fun i hi => plain i (List.mem_cons_of_mem t hi)
  have source : text.toList = u ++ gap ++ (w ++ v) ++ left := by
    rw [chars, next.whole]
    simp only [List.append_assoc]
  have covers : Covers text.toList (w ++ v) left (t :: taken) := by
    refine ⟨t, (t :: taken).getLast (List.cons_ne_nil t taken), rfl,
      List.getLast?_eq_some_getLast _, ?_, ?_⟩
    · rw [next.begins, source]
      simp only [byteLength_append]
      omega
    · have ends : ((t :: taken).getLast (List.cons_ne_nil t taken)).stop =
          t.stop + byteLength v := by
        cases taken with
        | nil =>
          rw [empty rfl]
          rfl
        | cons t' taken => exact stop _ (List.getLast?_eq_some_getLast _)
      rw [ends, next.ends, source]
      simp only [byteLength_append]
      omega
  have tidy : trim (w ++ v) = w ++ v := by
    obtain ⟨c, r, rfl, solid⟩ := next.head
    refine (isTidy_cons solid ?_).trim_eq
    intro d (hd : (c :: r ++ v).getLast? = some d)
    rw [List.getLast?_append, Option.or_eq_some_iff] at hd
    rcases hd with hd | ⟨-, hd⟩
    · exact last d hd
    · exact next.last (plain t List.mem_cons_self) hd
  rw [writtenText_append source covers tidy, Item.ofText, Lexeme.ofText, String.toList_ofList]
  obtain ⟨t', alone, token⟩ := next.alone (plain t List.mem_cons_self)
  rw [alone, List.map_cons, List.map_cons, again, token]

end Host

end Ambient
