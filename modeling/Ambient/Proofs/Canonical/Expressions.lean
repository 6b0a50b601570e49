import Ambient.Proofs.Canonical.Leads

/-!
# Initializers read back

An initializer is cut out of the source from its first token to its last. Its tokens are read before
a comma as they are read alone, so the cut gives back the text.
-/
namespace Ambient

namespace Lexeme
variable {c : Char} {fresh : Bool} {r rest : List Char} {t : Token}

theorem takeWhile_comma (r x : List Char) :
    (r ++ ',' :: x).takeWhile isWordPart = r.takeWhile isWordPart ∧
      (r ++ ',' :: x).dropWhile isWordPart = r.dropWhile isWordPart ++ ',' :: x := by
  have comma : isWordPart ',' = false := by decide
  induction r with
  | nil => simp [comma]
  | cons d q ih =>
    by_cases part : isWordPart d = true
    · simp [part, ih]
    · simp [part]

theorem readNumber_comma (hexadecimal : Bool) (r x : List Char) :
    readNumber hexadecimal (r ++ ',' :: x) =
      ((readNumber hexadecimal r).1, (readNumber hexadecimal r).2 ++ ',' :: x) := by
  have comma : readNumber hexadecimal (',' :: x) = ([], ',' :: x) := by
    cases x <;> simp [readNumber, isAsciiAlphanumeric]
  fun_induction readNumber hexadecimal r with
  | case1 => exact comma
  | case2 c part => simp [readNumber, part, comma]
  | case3 c other => simp_all [readNumber]
  | case4 c d r part exponent text rest read ih => simp_all [readNumber]
  | case5 c d r part exponent text rest read ih => simp_all [readNumber]
  | case6 c d r part point text rest read ih => simp_all [readNumber]
  | case7 c d r part point => simp_all [readNumber]

theorem readWord_comma (h : readWord c r = (some (.token t), rest)) (x : List Char) :
    readWord c (r ++ ',' :: x) = (some (.token t), rest ++ ',' :: x) := by
  have hexadecimal : startsHexadecimal c (r ++ ',' :: x) = startsHexadecimal c r := by
    cases r with
    | nil => simp [startsHexadecimal]
    | cons d q => rfl
  obtain ⟨word, left⟩ := takeWhile_comma r x
  unfold readWord at h ⊢
  split at h
  · rename_i digit
    rw [if_pos digit, hexadecimal, readNumber_comma]
    simp_all
  · rename_i digit
    rw [if_neg digit]
    split at h
    · rename_i start
      rw [if_pos start, word, left]
      simp_all
    · rename_i start
      rw [if_neg start]
      simp_all [opPiece]

theorem readAt_comma (h : readAt r = (some (.token t), rest)) (operand : t.IsOperand)
    (x : List Char) :
    readAt (r ++ ',' :: x) = (some (.token t), rest ++ ',' :: x) := by
  cases r with
  | nil =>
    cases h
    exact absurd (show '@' = '|' from operand) (by decide)
  | cons d q =>
    obtain ⟨word, left⟩ := takeWhile_comma q x
    rw [readAt] at h
    rw [List.cons_append, readAt]
    split at h
    · cases h
      exact operand.elim
    · rename_i quote
      rw [if_neg quote]
      split at h
      · rename_i start
        rw [if_pos start, word, left]
        simp_all
      · cases h
        exact absurd (show '@' = '|' from operand) (by decide)

/-- A token of an initializer is a minus sign, or read behind an at sign, or a word, a number or one
character. -/
theorem read_operand (h : read fresh c r = (some (.token t), rest)) (operand : t.IsOperand)
    (slash : c ≠ '/') (hash : c ≠ '#') :
    (c = '-' ∧ t = .mark .minus ∧ rest = r) ∨
      (c = '@' ∧ readAt r = (some (.token t), rest)) ∨
      (readWord c r = (some (.token t), rest) ∧ ∀ fresh' q,
        read fresh' c q = readWord c q) := by
  have mark : ∀ {m : Mark} {q : List Char}, markPiece m q = (some (.token t), rest) →
      m = .minus := by
    intro m q same
    cases same
    exact operand
  have noText : ∀ {q : List Char × List Char},
      textPiece q = (some (.token t), rest) → False := by
    intro q same
    cases same
    exact operand
  have bar : ∀ {d : Char} {q : List Char}, opPiece d q = (some (.token t), rest) → d = '|' := by
    intro d q same
    cases same
    exact operand
  have colon : readColon r ≠ (some (.token t), rest) := by
    intro same
    unfold readColon at same
    split at same <;> exact absurd (mark same) (by decide)
  have equals : readEquals r ≠ (some (.token t), rest) := by
    intro same
    unfold readEquals at same
    split at same
    · exact absurd (mark same) (by decide)
    · exact absurd (bar same) (by decide)
    · exact absurd (mark same) (by decide)
  have quote : readQuote r ≠ (some (.token t), rest) := by
    intro same
    unfold readQuote at same
    split at same <;> exact noText same
  have dollar : readDollar r ≠ (some (.token t), rest) := by
    intro same
    unfold readDollar at same
    split at same
    · exact noText same
    · exact noText same
    · exact absurd (bar same) (by decide)
  unfold read at h
  split at h
  all_goals first
    | exact absurd (mark h) (by decide)
    | exact absurd h colon
    | exact absurd h equals
    | exact absurd h quote
    | exact absurd h dollar
    | exact absurd rfl slash
    | exact absurd rfl hash
    | exact .inr (.inl ⟨rfl, h⟩)
    | skip
  · cases h
    exact .inl ⟨rfl, rfl, rfl⟩
  · cases h
    exact operand.elim
  · refine .inr (.inr ⟨h, fun fresh' q => ?_⟩)
    unfold read
    split <;> first | rfl | contradiction

/-- Before a comma a token of an initializer is read as it is at the end. -/
theorem read_comma (h : read fresh c r = (some (.token t), rest)) (operand : t.IsOperand)
    (slash : c ≠ '/') (hash : c ≠ '#') (fresh' : Bool) (x : List Char) :
    read fresh' c (r ++ ',' :: x) = (some (.token t), rest ++ ',' :: x) := by
  rcases read_operand h operand slash hash with
    ⟨rfl, rfl, rfl⟩ | ⟨rfl, name⟩ | ⟨word, same⟩
  · rfl
  · exact readAt_comma name operand x
  · rw [same]
    exact readWord_comma word x

/-- White space. -/
def IsGap (gap : List Char) : Prop := ∀ c ∈ gap, Text.isBlank c = true

/-- The text `w` is a token of an initializer, whatever stands before it, if what follows are the
rest of the initializer and a comma. -/
def IsPiece (w rest : List Char) : Prop :=
  ∃ c v t, w = c :: v ∧ IsSolid c ∧ t.IsOperand ∧
    ∀ fresh x, read fresh c (v ++ rest ++ ',' :: x) = (some (.token t), rest ++ ',' :: x)

/-- Tokens of an initializer with white space between them. -/
inductive Pieces : List Char → Prop
  | last {w : List Char} : IsPiece w [] → Pieces w
  | more {w gap cs : List Char} : IsPiece w (gap ++ cs) → IsGap gap → Pieces cs →
    Pieces (w ++ gap ++ cs)

theorem last_append {a b : List Char} (last : ∀ d ∈ (a ++ b).getLast?, Text.isBlank d = false) :
    ∀ d ∈ b.getLast?, Text.isBlank d = false := by
  intro d hd
  refine last d ?_
  rw [List.getLast?_append, Option.mem_def.mp hd]
  rfl

/-- A text is empty, or its tokens begin behind some white space. -/
def Begun (cs : List Char) : Prop :=
  cs = [] ∨ ∃ gap us, cs = gap ++ us ∧ IsGap gap ∧ Pieces us

theorem Begun.blank {cs : List Char} (h : Begun cs) (blank : Text.isBlank c = true)
    (last : ∀ d ∈ (c :: cs).getLast?, Text.isBlank d = false) : Begun (c :: cs) := by
  rcases h with rfl | ⟨gap, us, rfl, white, pieces⟩
  · rw [last c rfl] at blank
    cases blank
  · refine .inr ⟨c :: gap, us, rfl, ?_, pieces⟩
    intro d hd
    rcases List.mem_cons.mp hd with rfl | hd
    · exact blank
    · exact white d hd

theorem begun_of_scan {start : Nat} {cs : List Char} (slash : '/' ∉ cs) (hash : '#' ∉ cs)
    (byteOrder : '\ufeff' ∉ cs) (last : ∀ d ∈ cs.getLast?, Text.isBlank d = false)
    (operands : ∀ l ∈ scan fresh start cs, ∀ t, l.piece = .token t → t.IsOperand) :
    Begun cs := by
  have run := scans fresh start cs
  generalize scan fresh start cs = ls at run operands
  induction run with
  | nil => exact .inl rfl
  | @newline _ _ r _ _ ih =>
    have later :=
      ih (fun h => slash (List.mem_cons_of_mem _ h)) (fun h => hash (List.mem_cons_of_mem _ h))
      (fun h => byteOrder (List.mem_cons_of_mem _ h)) (@last_append ['\n'] r last) operands
    exact later.blank isBlank_newline last
  | @gap _ _ c r _ _ blank _ ih =>
    have later :=
      ih (fun h => slash (List.mem_cons_of_mem _ h)) (fun h => hash (List.mem_cons_of_mem _ h))
      (fun h => byteOrder (List.mem_cons_of_mem _ h)) (@last_append [c] r last) operands
    refine later.blank ?_ last
    exact blank.resolve_right fun same => byteOrder (same ▸ List.mem_cons_self)
  | @pass fresh _ c v rest _ _ reads _ _ =>
    obtain ⟨t, rest', token⟩ :=
      exists_token fresh (v ++ rest) (fun same => slash (same ▸ List.mem_cons_self))
      fun same => hash (same ▸ List.mem_cons_self)
    cases token.symm.trans reads
  | @piece fresh _ c v rest _ _ solid reads _ ih =>
    have others : c ≠ '/' ∧ c ≠ '#' := by
      constructor
      · exact fun same => slash (same ▸ List.mem_cons_self)
      · exact fun same => hash (same ▸ List.mem_cons_self)
    obtain ⟨t, rest', token⟩ := exists_token fresh (v ++ rest) others.1 others.2
    cases token.symm.trans reads
    have operand := operands _ List.mem_cons_self t rfl
    have later := ih (fun h => slash (List.mem_cons_of_mem _ (List.mem_append_right v h)))
      (fun h => hash (List.mem_cons_of_mem _ (List.mem_append_right v h)))
      (fun h => byteOrder (List.mem_cons_of_mem _ (List.mem_append_right v h)))
      (@last_append (c :: v) rest last) fun l hl => operands l (List.mem_cons_of_mem _ hl)
    have piece : IsPiece (c :: v) rest :=
      ⟨c, v, t, rfl, solid, operand, read_comma reads operand others.1 others.2⟩
    refine .inr ⟨[], c :: v ++ rest, rfl, by simp [IsGap], ?_⟩
    rcases later with rfl | ⟨gap, us, rfl, white, pieces⟩
    · rw [List.append_nil]
      exact .last piece
    · rw [← List.append_assoc]
      exact .more piece white pieces

end Lexeme

theorem Item.exists_mem_ofLexemes {l : Lexeme} {t : Token} {ls : List Lexeme} (there : l ∈ ls)
    (token : l.piece = .token t) (docs : List String) :
    ∃ i ∈ Item.ofLexemes docs ls, i.token = t := by
  fun_induction Item.ofLexemes docs ls with
  | case1 => cases there
  | case2 docs line start stop r ih =>
    rcases List.mem_cons.mp there with rfl | there
    · cases token
    · exact ih there
  | case3 docs t' start stop r ih =>
    rcases List.mem_cons.mp there with rfl | there
    · cases token
      exact ⟨_, List.mem_cons_self, rfl⟩
    · obtain ⟨i, hi, same⟩ := ih there
      exact ⟨i, List.mem_cons_of_mem _ hi, same⟩

theorem IsExpression.pieces {init : String} (h : IsExpression init) :
    Lexeme.Pieces init.toList := by
  obtain ⟨c, d, first, last, solid, solid'⟩ := h.tidy
  have begun : Lexeme.Begun init.toList := by
    refine @Lexeme.begun_of_scan true 0 init.toList h.noComment h.noDirective h.noByteOrder ?_ ?_
    · intro e he
      cases last.symm.trans he
      exact solid'
    · intro l hl t token
      obtain ⟨i, there, rfl⟩ := Item.exists_mem_ofLexemes hl token []
      exact h.operands i there
  rcases begun with empty | ⟨gap, us, whole, white, pieces⟩
  · rw [empty] at first
    cases first
  · cases gap with
    | nil => rwa [whole]
    | cons e gap =>
      rw [whole] at first
      cases first
      rw [white _ List.mem_cons_self] at solid
      cases solid

namespace Laid
variable {src text : List Char} {docs : List String} {ts : List Item}

theorem gap {gap : List Char} (white : Lexeme.IsGap gap) (h : Laid src docs (gap ++ text) ts) :
    Laid src docs text ts := by
  induction gap with
  | nil => exact h
  | cons c r ih =>
    exact ih (fun d hd => white d (List.mem_cons_of_mem c hd))
      (h.blank (white c List.mem_cons_self))

theorem piece_comma {w rest : List Char} (piece : Lexeme.IsPiece w rest)
    (h : Laid src docs (w ++ (rest ++ ',' :: text)) ts) :
    ∃ i us, ts = i :: us ∧ i.token.IsOperand ∧ Covers src w (rest ++ ',' :: text) [i] ∧
      Laid src [] (rest ++ ',' :: text) us := by
  obtain ⟨c, v, t, rfl, solid, operand, reads⟩ := piece
  obtain ⟨i, us, rfl, rfl, -, taken, items, covers, laid⟩ := h.token solid fun fresh => by
    rw [← List.append_assoc]
    exact reads fresh text
  obtain rfl : taken = [i] := List.append_cancel_right items.symm
  exact ⟨i, us, rfl, operand, covers, laid⟩

/-- The tokens of an initializer are read one after another up to the comma. -/
theorem pieces {cs : List Char} (pieces : Lexeme.Pieces cs) :
    ∀ {docs : List String} {ts : List Item},
    Laid src docs (cs ++ ',' :: text) ts → ∃ taken rest, ts = taken ++ rest ∧
      (∀ i ∈ taken, i.token.IsOperand) ∧ Covers src cs (',' :: text) taken ∧
      Laid src [] (',' :: text) rest := by
  induction pieces with
  | last piece =>
    intro docs ts laid
    obtain ⟨i, rest, rfl, operand, covers, laid⟩ := piece_comma piece laid
    exact ⟨[i], rest, rfl, by simpa using operand, covers, laid⟩
  | @more w gap cs piece white _ ih =>
    intro docs ts laid
    rw [List.append_assoc w, List.append_assoc w] at laid
    obtain ⟨i, us, rfl, operand, covers, laid⟩ := piece_comma piece laid
    rw [List.append_assoc] at laid
    obtain ⟨taken, rest, rfl, operands, covers', laid⟩ := ih (laid.gap white)
    refine ⟨i :: taken, rest, rfl, ?_, covers.append covers', laid⟩
    intro j hj
    rcases List.mem_cons.mp hj with rfl | hj
    · exact operand
    · exact operands j hj

end Laid

namespace Skip

theorem step?_operand {t : Token} (operand : t.IsOperand) (n : Nesting) :
    n.step? false t = some ⟨n.depth, n.angles, isIdent t⟩ := by
  cases t with
  | mark m =>
    obtain rfl : m = .minus := operand
    rfl
  | _ => rfl

/-- Outside of all brackets an expression of operands ends at the comma. -/
theorem expression_operands {comma : Item} (separates : comma.token = .mark .comma)
    (rest : List Item) :
    ∀ (taken : List Item) (n : Nesting), (∀ i ∈ taken, i.token.IsOperand) → n.depth = 0 →
      n.angles = 0 → expression false n (taken ++ comma :: rest) = comma :: rest := by
  intro taken
  induction taken with
  | nil =>
    intro n _ depth angles
    have ends : n.step? false comma.token = none := by
      rw [separates]
      exact if_pos ⟨depth, angles⟩
    rw [List.nil_append, expression, ends]
  | cons i more ih =>
    intro n operands depth angles
    rw [List.cons_append, expression, step?_operand (operands i List.mem_cons_self)]
    exact ih _ (fun j hj => operands j (List.mem_cons_of_mem i hj)) depth angles

end Skip

namespace Host
variable {src text : List Char} {docs : List String} {ts : List Item}

theorem leaves_readInitializer_keep (h : Item.isMark .equals ts = false) :
    Leaves (readInitializer src ts) none ts := by
  cases ts with
  | nil => exact ⟨_, rfl⟩
  | cons t r =>
    rw [readInitializer, if_neg (TypeSyntax.not_token h)]
    exact ⟨_, rfl⟩

theorem leaves_readInitializer {t : Item} {written : String} {rest : List Item}
    (equals : t.token = .mark .equals) (ends : Skip.expression false .outside ts = rest)
    (text : writtenText src ts rest = written) :
    Leaves (readInitializer src (t :: ts)) (some written) rest := by
  subst ends text
  rw [readInitializer, if_pos equals]
  exact ⟨_, rfl⟩

/-- An initializer, if there is one, is kept as it is written. -/
theorem exists_readInitializer {init : Option String} (expression : ∀ i ∈ init, IsExpression i)
    (laid : Laid src [] (printInitializer init ++ ',' :: text) ts) :
    ∃ comma rest, comma.token = .mark .comma ∧ Laid src [] text rest ∧
      Leaves (readInitializer src ts) init (comma :: rest) := by
  cases init with
  | none =>
    obtain ⟨comma, rest, rfl, separates, -, spans⟩ := laid.mark (by decide) fun _ => rfl
    exact ⟨comma, rest, separates, spans.laid,
      leaves_readInitializer_keep (TypeSyntax.isMark_of_mark separates (by decide))⟩
  | some written =>
    have expression := expression written rfl
    have chars : printInitializer (some written) ++ ',' :: text =
        ' ' :: '=' :: ' ' :: (written.toList ++ ',' :: text) := by
      simp [printInitializer]
    rw [chars] at laid
    obtain ⟨e, us, rfl, equals, -, spans⟩ := laid.space.mark (by decide) fun _ => by
      rfl
    obtain ⟨taken, vs, rfl, operands, covers, behind⟩ :=
      spans.laid.space.pieces expression.pieces
    obtain ⟨comma, rest, rfl, separates, -, spans'⟩ := behind.mark (by decide) fun _ => rfl
    refine ⟨comma, rest, separates, spans'.laid, leaves_readInitializer equals
      (Skip.expression_operands separates rest taken .outside operands rfl rfl) ?_⟩
    have cut := writtenText_of_spans spans.laid.space ⟨taken, rfl, covers, behind⟩
      expression.tidy.trim_eq
    rwa [String.ofList_toList] at cut

end Host
end Ambient
