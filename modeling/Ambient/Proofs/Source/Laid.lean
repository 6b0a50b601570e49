import Ambient.Proofs.Source.Steps
import Ambient.Proofs.Source.Words

/-!
# Reading on through a source

A reader of items stands somewhere in the source, and the items before it are those of the text from
there to the end. Each rule here takes one mark, word, literal or documentation line off that text:
it names the item that comes of it and the bytes the item covers, and leaves the reader before the
rest of the text.

What a reader keeps as it was written is cut out of the source from the start of the first item to
the end of the last. If the items cover a text without white space around it, that text is kept.
-/
namespace Ambient

/-- The items are those of `text`, with which the source ends; `docs` are the documentation lines
read before its first token. -/
def Laid (src : List Char) (docs : List String) (text : List Char) (ts : List Item) : Prop :=
  ∃ before fresh, src = before ++ text ∧
    ts = Item.ofLexemes docs (Lexeme.scan fresh (Text.byteLength before) text)

/-- The items `taken` cover the text `s`, after which `text` is what is left of the source. -/
def Covers (src s text : List Char) (taken : List Item) : Prop :=
  ∃ first last, taken.head? = some first ∧ taken.getLast? = some last ∧
    first.start + Text.byteLength (s ++ text) = Text.byteLength src ∧
    last.stop + Text.byteLength text = Text.byteLength src

/-- From the items `ts` those of the text `s` come first, and `rest` are those of
`text` after it. -/
def Spans (src s text : List Char) (ts rest : List Item) : Prop :=
  ∃ taken, ts = taken ++ rest ∧ Covers src s text taken ∧ Laid src [] text rest

theorem laid_ofText (text : String) : Laid text.toList [] text.toList (Item.ofText text) :=
  ⟨[], true, rfl, rfl⟩

theorem laid_nil {src : List Char} {ts : List Item} (h : Laid src [] [] ts) : ts = [] := by
  obtain ⟨before, fresh, -, rfl⟩ := h
  rw [Lexeme.scan]
  rfl

theorem Covers.append {src s gap t text : List Char} {a b : List Item}
    (ha : Covers src s (gap ++ t ++ text) a) (hb : Covers src t text b) :
    Covers src (s ++ gap ++ t) text (a ++ b) := by
  obtain ⟨first, _, head, _, start, _⟩ := ha
  obtain ⟨_, last, _, tail, _, stop⟩ := hb
  refine ⟨first, last, ?_, ?_, ?_, stop⟩
  · rw [List.head?_append, head]
    rfl
  · rw [List.getLast?_append, tail]
    rfl
  · simpa only [List.append_assoc] using start

namespace Spans
variable {src s gap t text : List Char} {ts us rest : List Item}

theorem laid (h : Spans src s text ts rest) : Laid src [] text rest :=
  h.choose_spec.2.2

theorem append (h : Spans src s (gap ++ t ++ text) ts us) (h' : Spans src t text us rest) :
    Spans src (s ++ gap ++ t) text ts rest := by
  obtain ⟨a, rfl, covers, _⟩ := h
  obtain ⟨b, rfl, covers', laid⟩ := h'
  exact ⟨a ++ b, (List.append_assoc a b rest).symm, covers.append covers', laid⟩

/-- One text right after another. -/
theorem trans (h : Spans src s (t ++ text) ts us) (h' : Spans src t text us rest) :
    Spans src (s ++ t) text ts rest := by
  have joined : Spans src (s ++ [] ++ t) text ts rest := append h h'
  rwa [List.append_nil] at joined

end Spans

namespace Lexeme

/-- Characters that a lexeme can start with. -/
def IsSolid (c : Char) : Prop := c ≠ '\n' ∧ Text.isBlank c = false ∧ c ≠ '\ufeff'

instance (c : Char) : Decidable (IsSolid c) := inferInstanceAs (Decidable (_ ∧ _ ∧ _))

/-- The code points of white space and of the byte order mark. -/
def gapCodes : List Nat :=
  [9, 10, 11, 12, 13, 32, 0x85, 0xa0, 0x1680, 0x2000, 0x2001, 0x2002, 0x2003, 0x2004, 0x2005,
   0x2006, 0x2007, 0x2008, 0x2009, 0x200a, 0x2028, 0x2029, 0x202f, 0x205f, 0x3000, 0xfeff]

theorem mem_gapCodes {c : Char} (h : Text.isBlank c = true ∨ c = '\ufeff') :
    c.toNat ∈ gapCodes := by
  rcases h with blank | rfl
  · simp only [Text.isBlank, Bool.or_eq_true, Bool.and_eq_true, decide_eq_true_eq,
      beq_iff_eq] at blank
    simp only [gapCodes, List.mem_cons, List.not_mem_nil, or_false]
    omega
  · decide

theorem isBlank_newline : Text.isBlank '\n' = true := by decide

theorem isSolid_of_not_mem {c : Char} (h : c.toNat ∉ gapCodes) : IsSolid c := by
  refine ⟨?_, ?_, ?_⟩
  · rintro rfl
    exact h (mem_gapCodes (.inl isBlank_newline))
  · rw [← Bool.not_eq_true]
    exact fun blank => h (mem_gapCodes (.inl blank))
  · exact fun bom => h (mem_gapCodes (.inr bom))

theorem isSolid_of_start {c : Char} (h : isWordStart c = true) : IsSolid c := by
  apply isSolid_of_not_mem
  intro gap
  have none : ∀ n ∈ gapCodes, isWordStart (Char.ofNat n) = false := by decide +kernel
  have no := none c.toNat gap
  rw [Char.ofNat_toNat, h] at no
  cases no

theorem scan_newline (fresh : Bool) (start : Nat) (r : List Char) :
    scan fresh start ('\n' :: r) = scan true (start + 1) r := by
  rw [scan, if_pos rfl]

theorem scan_blank (fresh : Bool) (start : Nat) {c : Char} (r : List Char)
    (blank : Text.isBlank c = true) :
    ∃ fresh', scan fresh start (c :: r) = scan fresh' (start + c.utf8Size) r := by
  by_cases newline : c = '\n'
  · subst newline
    exact ⟨true, scan_newline fresh start r⟩
  · refine ⟨fresh, ?_⟩
    rw [scan, if_neg newline, if_pos (by rw [blank, Bool.true_or])]

theorem scan_solid {fresh : Bool} {start : Nat} {c : Char} {r rest : List Char}
    {piece? : Option Piece} (solid : IsSolid c) (reads : read fresh c r = (piece?, rest)) :
    scan fresh start (c :: r) =
      let stop := start + (Text.byteLength (c :: r) - Text.byteLength rest)
      match piece? with
      | some piece => ⟨piece, start, stop⟩ :: scan false stop rest
      | none => scan false stop rest := by
  obtain ⟨newline, blank, bom⟩ := solid
  rw [scan, if_neg newline, if_neg (by simp [blank, bom])]
  split
  next found found' same =>
    rw [reads] at same
    cases same
    rfl

end Lexeme

namespace Laid
variable {src text rest : List Char} {docs : List String} {ts : List Item}

theorem blank {c : Char} (h : Laid src docs (c :: text) ts) (blank : Text.isBlank c = true) :
    Laid src docs text ts := by
  obtain ⟨before, fresh, rfl, rfl⟩ := h
  obtain ⟨fresh', scanned⟩ := Lexeme.scan_blank fresh (Text.byteLength before) text blank
  refine ⟨before ++ [c], fresh', by simp, ?_⟩
  rw [scanned, Text.byteLength_append]
  rfl

theorem space (h : Laid src docs (' ' :: text) ts) : Laid src docs text ts :=
  h.blank (by decide)

theorem newline (h : Laid src docs ('\n' :: text) ts) : Laid src docs text ts :=
  h.blank (by decide)

/-- A piece that reads the same however its line began. -/
theorem piece {c : Char} {r : List Char} {piece : Piece} (h : Laid src docs (c :: r ++ text) ts)
    (solid : Lexeme.IsSolid c)
    (reads : ∀ fresh, Lexeme.read fresh c (r ++ text) = (some piece, text)) :
    ∃ before, src = before ++ (c :: r) ++ text ∧ ts = Item.ofLexemes docs
      (⟨piece, Text.byteLength before, Text.byteLength (before ++ c :: r)⟩ ::
        Lexeme.scan false (Text.byteLength (before ++ c :: r)) text) := by
  obtain ⟨before, fresh, rfl, rfl⟩ := h
  refine ⟨before, (List.append_assoc _ _ _).symm, ?_⟩
  have length : Text.byteLength before +
      (Text.byteLength (c :: (r ++ text)) - Text.byteLength text) =
      Text.byteLength (before ++ c :: r) := by
    rw [← List.cons_append, Text.byteLength_append, Text.byteLength_append]
    omega
  rw [List.cons_append, Lexeme.scan_solid solid (reads fresh)]
  simp only [length]

theorem token {c : Char} {r : List Char} {t : Token} (h : Laid src docs (c :: r ++ text) ts)
    (solid : Lexeme.IsSolid c)
    (reads : ∀ fresh, Lexeme.read fresh c (r ++ text) = (some (.token t), text)) :
    ∃ i rest, ts = i :: rest ∧ i.token = t ∧ i.docs = docs ∧
      Spans src (c :: r) text (i :: rest) rest := by
  obtain ⟨before, whole, rfl⟩ := h.piece solid reads
  refine ⟨_, _, rfl, rfl, rfl, [_], rfl, ⟨_, _, rfl, rfl, ?_, ?_⟩, ?_⟩
  · rw [whole, List.append_assoc]
    exact (Text.byteLength_append before (c :: r ++ text)).symm
  · rw [whole, Text.byteLength_append (before ++ c :: r)]
    rfl
  · exact ⟨before ++ c :: r, false, whole, rfl⟩

theorem mark {c : Char} {m : Mark} (h : Laid src docs (c :: text) ts) (solid : Lexeme.IsSolid c)
    (reads : ∀ fresh, Lexeme.read fresh c text = Lexeme.markPiece m text) :
    ∃ i rest, ts = i :: rest ∧ i.token = .mark m ∧ i.docs = docs ∧
      Spans src [c] text (i :: rest) rest :=
  token (r := []) h solid reads

end Laid

/-- No letter, digit or underscore comes first. -/
def EndsWord (text : List Char) : Prop := ∀ c ∈ text.head?, Lexeme.isWordPart c = false

theorem endsWord_cons {c : Char} (h : Lexeme.isWordPart c = false) (r : List Char) :
    EndsWord (c :: r) := by
  intro d hd
  cases hd
  exact h

namespace Lexeme

/-- Between words and everything that `read` tells apart before it looks for words. -/
theorem read_eq_readWord {c : Char} (start : isWordStart c = true) (fresh : Bool) (r : List Char) :
    read fresh c r = readWord c r := by
  have other : ∀ d : Char, isWordStart d = false → c ≠ d := by
    rintro d no rfl
    rw [no] at start
    cases start
  unfold read
  split <;> first | rfl | exact absurd rfl (other _ (by decide +kernel))

theorem not_isDigit_of_start {c : Char} (start : isWordStart c = true) : c.isDigit = false := by
  rw [← Bool.not_eq_true]
  intro digit
  have range : 48 ≤ c.toNat ∧ c.toNat ≤ 57 := by
    simp only [Char.isDigit, Bool.and_eq_true, decide_eq_true_eq, ge_iff_le,
      UInt32.le_iff_toNat_le] at digit
    exact digit
  have none : ∀ n ∈ List.range' 48 10, isWordStart (Char.ofNat n) = false := by decide +kernel
  have no := none c.toNat (List.mem_range'_1.mpr (by omega))
  rw [Char.ofNat_toNat, start] at no
  cases no

theorem takeWhile_word {r text : List Char} (parts : ∀ d ∈ r, isWordPart d = true)
    (ends : EndsWord text) : (r ++ text).takeWhile isWordPart = r ∧
      (r ++ text).dropWhile isWordPart = text := by
  have stop : text.takeWhile isWordPart = [] ∧ text.dropWhile isWordPart = text := by
    cases text with
    | nil => exact ⟨rfl, rfl⟩
    | cons c q =>
      have no := ends c rfl
      simp [no]
  constructor
  · rw [List.takeWhile_append_of_pos parts, stop.1, List.append_nil]
  · rw [List.dropWhile_append_of_pos parts, stop.2]

end Lexeme

namespace Laid
variable {src text : List Char} {docs : List String} {ts : List Item}

theorem word {word : String} (h : Laid src docs (word.toList ++ text) ts) (spelled : IsWord word)
    (ends : EndsWord text) : ∃ i rest, ts = i :: rest ∧
      i.token = Lexeme.wordToken word.toList ∧ i.docs = docs ∧
      Spans src word.toList text (i :: rest) rest := by
  obtain ⟨c, r, chars, start, parts⟩ := spelled
  rw [chars] at h ⊢
  refine h.token (Lexeme.isSolid_of_start start) fun fresh => ?_
  have ⟨taken, left⟩ := Lexeme.takeWhile_word parts ends
  rw [Lexeme.read_eq_readWord start, Lexeme.readWord, Lexeme.not_isDigit_of_start start,
    if_neg Bool.false_ne_true, if_pos start, taken, left]

end Laid

/-- A word that is no keyword. -/
def IsName (name : String) : Prop := IsWord name ∧ Keyword.ofSpelling? name = none

instance (name : String) : Decidable (IsName name) := inferInstanceAs (Decidable (_ ∧ _))

namespace Laid
variable {src text : List Char} {docs : List String} {ts : List Item}

theorem name {name : String} (h : Laid src docs (name.toList ++ text) ts) (plain : IsName name)
    (ends : EndsWord text) : ∃ i rest, ts = i :: rest ∧ i.token = .ident name ∧
      i.docs = docs ∧ Spans src name.toList text (i :: rest) rest := by
  obtain ⟨i, rest, items, token, docs, spans⟩ := h.word plain.1 ends
  refine ⟨i, rest, items, ?_, docs, spans⟩
  rw [token, Lexeme.wordToken, String.ofList_toList, plain.2]

theorem keyword {k : Keyword} (h : Laid src docs (k.spelling.toList ++ ' ' :: text) ts) :
    ∃ i rest, ts = i :: rest ∧ i.token = .keyword k ∧ i.docs = docs ∧
      Laid src [] text rest := by
  have spelled : IsWord k.spelling := by
    cases k <;> decide
  obtain ⟨i, rest, items, token, docs, spans⟩ := h.word spelled (endsWord_cons (by decide) text)
  refine ⟨i, rest, items, ?_, docs, spans.laid.space⟩
  have found : Keyword.ofSpelling? k.spelling = some k := by
    cases k <;> decide
  rw [token, Lexeme.wordToken, String.ofList_toList, found]

end Laid
/-- A backslash comes before each quotation mark and each backslash. -/
def escapeChar (c : Char) : List Char := if c = '"' ∨ c = '\\' then ['\\', c] else [c]

/-- A string literal. -/
def literal (value : String) : String :=
  "\"" ++ String.ofList (value.toList.flatMap escapeChar) ++ "\""

namespace Lexeme

theorem readQuoted_escaped (value text : List Char) :
    readQuoted (value.flatMap escapeChar ++ '"' :: text) = (value, text) := by
  induction value with
  | nil => rfl
  | cons c r ih =>
    rw [List.flatMap_cons, List.append_assoc]
    by_cases quote : c = '"'
    · subst quote
      simp [escapeChar, readQuoted, escaped, ih]
    · by_cases slash : c = '\\'
      · subst slash
        simp [escapeChar, readQuoted, escaped, ih]
      · have plain : escapeChar c = [c] := if_neg (by simp [quote, slash])
        rw [plain, List.singleton_append, readQuoted, if_neg quote, ih]
        · intro hc
          exact absurd hc slash
        · intro d q hc
          exact absurd hc slash

/-- No row of three quotation marks opens here, unless one follows the literal. -/
theorem readQuote_escaped (value : List Char) {text : List Char} (ends : text.head? ≠ some '"') :
    readQuote (value.flatMap escapeChar ++ '"' :: text) =
      (some (.token (.text (String.ofList value))), text) := by
  have single : ∀ q, value.flatMap escapeChar ++ '"' :: text ≠ '"' :: '"' :: q := by
    intro q same
    cases value with
    | nil =>
      cases same
      exact ends rfl
    | cons c r =>
      by_cases special : c = '"' ∨ c = '\\'
      · simp [escapeChar, special] at same
      · simp only [List.flatMap_cons, escapeChar, if_neg special] at same
        exact special (.inl (List.cons.inj same).1)
  unfold readQuote
  split
  · exact absurd ‹_› (single _)
  · rw [textPiece, readQuoted_escaped]

theorem readSlash_doc {line text : List Char} (first : line.head? ≠ some '/')
    (one : '\n' ∉ line) (tidy : line.getLast? ≠ some '\r') :
    readSlash ('/' :: '/' :: (line ++ '\n' :: text)) =
      (some (.doc (String.ofList line)), '\n' :: text) := by
  have taken : (line ++ '\n' :: text).takeWhile (· != '\n') = line ∧
      (line ++ '\n' :: text).dropWhile (· != '\n') = '\n' :: text := by
    have plain : ∀ c ∈ line, (c != '\n') = true := by
      intro c hc
      exact bne_iff_ne.mpr fun same => one (same ▸ hc)
    rw [List.takeWhile_append_of_pos plain, List.dropWhile_append_of_pos plain]
    simp
  have kept : Text.dropEndWhile (· == '\r') line = line := by
    rw [Text.dropEndWhile]
    rcases List.eq_nil_or_concat line with rfl | ⟨r, c, rfl⟩
    · rfl
    · have last : c ≠ '\r' := by simpa using tidy
      simp [last]
  have three : ∀ q, line ++ '\n' :: text ≠ '/' :: q := by
    intro q same
    cases line with
    | nil => simp at same
    | cons c r =>
      simp only [List.cons_append, List.cons.injEq] at same
      exact first (congrArg some same.1)
  unfold readSlash
  split
  · rename_i same
    simp only [List.cons.injEq, true_and] at same
    exact absurd same (three _)
  · rename_i same
    simp only [List.cons.injEq, true_and] at same
    rw [← same, docLine, skipLine, taken.1, taken.2, kept]
  · rename_i no same
    cases same
    exact absurd rfl (no _)
  · rename_i same
    cases same
  · rename_i no _
    exact absurd rfl (no _)

end Lexeme

namespace Laid
variable {src text : List Char} {docs : List String} {ts : List Item}

theorem literal {value : String} (h : Laid src docs ((Ambient.literal value).toList ++ text) ts)
    (ends : text.head? ≠ some '"') : ∃ i rest, ts = i :: rest ∧ i.token = .text value ∧
      Laid src [] text rest := by
  have chars : (Ambient.literal value).toList ++ text =
      '"' :: (value.toList.flatMap escapeChar ++ ['"']) ++ text := by
    simp [Ambient.literal]
  rw [chars] at h
  obtain ⟨i, rest, items, token, -, spans⟩ := h.token (by decide) fun fresh => by
    have read := Lexeme.readQuote_escaped value.toList ends
    rw [String.ofList_toList] at read
    rw [List.append_assoc]
    exact read
  exact ⟨i, rest, items, token, spans.laid⟩

theorem doc {line : List Char} (h : Laid src docs ("///".toList ++ line ++ '\n' :: text) ts)
    (first : line.head? ≠ some '/') (one : '\n' ∉ line) (tidy : line.getLast? ≠ some '\r') :
    Laid src (docs ++ [String.ofList line]) text ts := by
  have chars : "///".toList ++ line ++ '\n' :: text =
      '/' :: ('/' :: '/' :: line) ++ '\n' :: text := by
    simp
  rw [chars] at h
  obtain ⟨before, whole, rfl⟩ :=
    h.piece (by decide) fun _ => Lexeme.readSlash_doc first one tidy
  rw [Item.ofLexemes]
  exact newline ⟨_, false, whole, rfl⟩

end Laid

namespace Text

theorem dropBytes_append (before cs : List Char) :
    dropBytes (byteLength before) (before ++ cs) = cs := by
  induction before with
  | nil => cases cs <;> rfl
  | cons c r ih =>
    have positive := c.utf8Size_pos
    obtain ⟨n, hn⟩ : ∃ n, byteLength (c :: r) = n + 1 := ⟨byteLength (c :: r) - 1, by
      simp only [byteLength]
      omega⟩
    have left : n + 1 - c.utf8Size = byteLength r := by
      rw [← hn, byteLength]
      omega
    rw [hn, List.cons_append, dropBytes, left, ih]

theorem takeBytes_zero (cs : List Char) : takeBytes 0 cs = [] := by
  cases cs with
  | nil => rfl
  | cons c r =>
    have positive := c.utf8Size_pos
    rw [takeBytes, if_neg (by omega)]

theorem takeBytes_append (s cs : List Char) : takeBytes (byteLength s) (s ++ cs) = s := by
  induction s with
  | nil => exact takeBytes_zero cs
  | cons c r ih =>
    have left : byteLength (c :: r) - c.utf8Size = byteLength r := by
      rw [byteLength]
      omega
    rw [List.cons_append, takeBytes, if_pos (by rw [byteLength]; omega), left, ih]

theorem slice_append (before s cs : List Char) :
    slice (before ++ s ++ cs) (byteLength before) (byteLength (before ++ s)) = s := by
  have size : byteLength (before ++ s) - byteLength before = byteLength s := by
    rw [byteLength_append]
    omega
  rw [slice, size, List.append_assoc, dropBytes_append, takeBytes_append]

end Text

namespace Host

theorem utf8ByteSize_ofList (cs : List Char) :
    (String.ofList cs).utf8ByteSize = Text.byteLength cs := by
  induction cs with
  | nil => rfl
  | cons c r ih =>
    rw [String.ofList_cons, String.utf8ByteSize_append, String.utf8ByteSize_singleton, ih,
      Text.byteLength]

theorem byteLength_toList (text : String) : Text.byteLength text.toList = text.utf8ByteSize := by
  rw [← utf8ByteSize_ofList, String.ofList_toList]

/-- A place between two characters of the text, or at one of its ends. -/
def IsBoundary (text : String) (place : Nat) : Prop :=
  ∃ before after, text = before ++ after ∧ place = before.utf8ByteSize

theorem isBoundary_of_append {text : String} {before after : List Char}
    (whole : text.toList = before ++ after) : IsBoundary text (Text.byteLength before) := by
  refine ⟨String.ofList before, String.ofList after, ?_, (utf8ByteSize_ofList before).symm⟩
  rw [← String.ofList_append, ← whole, String.ofList_toList]

theorem writtenText_eq_trim {src before s text : List Char} {taken rest : List Item}
    (whole : src = before ++ s ++ text) (covers : Covers src s text taken) :
    writtenText src (taken ++ rest) rest = String.ofList (Text.trim s) := by
  obtain ⟨first, last, head, tail, start, stop⟩ := covers
  have some : (taken ++ rest).take ((taken ++ rest).length - rest.length) = taken := by
    rw [List.length_append, Nat.add_sub_cancel, List.take_left]
  rw [whole] at start stop
  have from' : first.start = Text.byteLength before := by
    rw [List.append_assoc, Text.byteLength_append before] at start
    omega
  have until' : last.stop = Text.byteLength (before ++ s) := by
    rw [Text.byteLength_append (before ++ s)] at stop
    omega
  simp only [writtenText, some, head, tail, from', until', whole, Text.slice_append]

theorem writtenText_append {src before s text : List Char} {taken rest : List Item}
    (whole : src = before ++ s ++ text) (covers : Covers src s text taken)
    (tidy : Text.trim s = s) : writtenText src (taken ++ rest) rest = String.ofList s := by
  rw [writtenText_eq_trim whole covers, tidy]

theorem writtenText_of_spans {src s text : List Char} {docs : List String} {ts rest : List Item}
    (laid : Laid src docs (s ++ text) ts) (spans : Spans src s text ts rest)
    (tidy : Text.trim s = s) : writtenText src ts rest = String.ofList s := by
  obtain ⟨before, _, whole, _⟩ := laid
  obtain ⟨taken, rfl, covers, _⟩ := spans
  rw [← List.append_assoc] at whole
  exact writtenText_append whole covers tidy

end Host
end Ambient
