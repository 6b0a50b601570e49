import Ambient.Proofs.Source.Scans
import Ambient.Proofs.Source.Seams

/-!
# String literals

A string literal has several forms. Each of them spells out a string with quotation marks around it
and has its own way to tell those within it from the one at the end. The lexer reads the string
again from every form, unless one more quotation mark follows.
-/
namespace Ambient

/-- How a string literal is written: with escapes, verbatim, either of them with a dollar sign
in front, or raw. -/
inductive LiteralForm where
  | quoted | interpolated | verbatim | interpolatedVerbatim | raw
  deriving DecidableEq, Repr

/-- A quotation mark is written twice. -/
def doubleQuote (c : Char) : List Char := if c = '"' then ['"', '"'] else [c]

namespace LiteralForm

def opening : LiteralForm → List Char
  | quoted => ['"']
  | interpolated => ['$', '"']
  | verbatim => ['@', '"']
  | interpolatedVerbatim => ['$', '@', '"']
  | raw => ['"', '"', '"']

def spelling : LiteralForm → Char → List Char
  | quoted | interpolated => escapeChar
  | verbatim | interpolatedVerbatim => doubleQuote
  | raw => fun c => [c]

def closing : LiteralForm → List Char
  | raw => ['"', '"', '"']
  | _ => ['"']

def spell (form : LiteralForm) (s : String) : String :=
  String.ofList (form.opening ++ s.toList.flatMap form.spelling ++ form.closing)

/-- A raw literal ends with the first row of three quotation marks and takes the
marks that follow it. -/
def Admits : LiteralForm → String → Prop
  | raw, s => ¬ ['"', '"', '"'] <:+: s.toList ∧ s.toList.getLast? ≠ some '"'
  | _, _ => True

end LiteralForm

namespace Lexeme
variable {value text : List Char}

theorem readVerbatim_doubled (apart : text.head? ≠ some '"') :
    readVerbatim (value.flatMap doubleQuote ++ '"' :: text) = (value, text) := by
  induction value with
  | nil => rw [List.flatMap_nil, List.nil_append, readVerbatim_cons fun _ => apart, if_pos rfl]
  | cons c value ih =>
    rw [List.flatMap_cons, List.append_assoc]
    by_cases quote : c = '"'
    · subst quote
      rw [doubleQuote, if_pos rfl, List.cons_append, List.singleton_append, readVerbatim, ih]
    · rw [doubleQuote, if_neg quote, List.singleton_append,
        readVerbatim_cons fun same => absurd same quote, if_neg quote, ih]

/-- No row of three quotation marks begins within a text that has none and does not end with one. -/
theorem not_closing_append {w : List Char} (filled : w ≠ []) (none : ¬ ['"', '"', '"'] <:+: w)
    (last : w.getLast? ≠ some '"') (z : List Char) : ¬ Closing (w ++ z) := by
  intro closing
  rcases List.prefix_or_prefix_of_prefix closing (List.prefix_append w z) with inside | short
  · exact none inside.isInfix
  · have mark : w.getLast filled ∈ ['"', '"', '"'] := short.subset (List.getLast_mem filled)
    refine last ?_
    rw [List.getLast?_eq_some_getLast filled]
    simpa using mark

theorem readRaw_closed (none : ¬ ['"', '"', '"'] <:+: value) (last : value.getLast? ≠ some '"')
    (apart : text.head? ≠ some '"') :
    readRaw (value ++ '"' :: '"' :: '"' :: text) = (value, text) := by
  induction value with
  | nil =>
    have left : text.dropWhile (· == '"') = text := by
      cases text with
      | nil => rfl
      | cons c text => exact List.dropWhile_cons_of_neg (by simpa using apart)
    rw [List.nil_append, readRaw, left]
  | cons c value ih =>
    have goesOn : ¬ Closing (c :: (value ++ '"' :: '"' :: '"' :: text)) :=
      not_closing_append (List.cons_ne_nil c value) none last _
    rw [List.cons_append, readRaw_cons goesOn, ih]
    · exact fun inside => none (inside.trans (List.infix_cons (List.infix_refl value)))
    · intro same
      rw [List.getLast?_cons, same] at last
      exact last rfl

/-- Every form begins with a mark from which the whole literal is read. -/
theorem exists_read_spell (form : LiteralForm) {s : String} (admits : form.Admits s)
    (apart : text.head? ≠ some '"') : ∃ c v, (form.spell s).toList = c :: v ∧ IsSolid c ∧
      read true c (v ++ text) = (some (.token (.text s)), text) := by
  have piece : ∀ {found : List Char × List Char}, found = (s.toList, text) →
      textPiece found = (some (.token (.text s)), text) := by
    rintro _ rfl
    rw [textPiece, String.ofList_toList]
  cases form with
  | quoted =>
    refine ⟨'"', s.toList.flatMap escapeChar ++ ['"'], String.toList_ofList, by decide, ?_⟩
    show readQuote (s.toList.flatMap escapeChar ++ ['"'] ++ text) = _
    rw [List.append_assoc, List.singleton_append, readQuote_escaped s.toList apart,
      String.ofList_toList]
  | interpolated =>
    refine ⟨'$', '"' :: (s.toList.flatMap escapeChar ++ ['"']),
      String.toList_ofList, by decide, ?_⟩
    show textPiece (readQuoted (s.toList.flatMap escapeChar ++ ['"'] ++ text)) = _
    rw [List.append_assoc]
    exact piece (readQuoted_escaped s.toList text)
  | verbatim =>
    refine ⟨'@', '"' :: (s.toList.flatMap doubleQuote ++ ['"']),
      String.toList_ofList, by decide, ?_⟩
    show textPiece (readVerbatim (s.toList.flatMap doubleQuote ++ ['"'] ++ text)) = _
    rw [List.append_assoc]
    exact piece (readVerbatim_doubled apart)
  | interpolatedVerbatim =>
    refine ⟨'$', '@' :: '"' :: (s.toList.flatMap doubleQuote ++ ['"']), String.toList_ofList,
      by decide, ?_⟩
    show textPiece (readVerbatim (s.toList.flatMap doubleQuote ++ ['"'] ++ text)) = _
    rw [List.append_assoc]
    exact piece (readVerbatim_doubled apart)
  | raw =>
    refine ⟨'"', '"' :: '"' :: (s.toList ++ ['"', '"', '"']), ?_, by decide, ?_⟩
    · rw [LiteralForm.spell, String.toList_ofList]
      simp [LiteralForm.opening, LiteralForm.spelling, LiteralForm.closing]
    · show textPiece (readRaw (s.toList ++ ['"', '"', '"'] ++ text)) = _
      rw [List.append_assoc]
      exact piece (readRaw_closed admits.1 admits.2 apart)

end Lexeme

open Lexeme

/-- A string literal is the first token of a text that begins with it. -/
theorem tokenize_literal (form : LiteralForm) {s rest : String} (admits : form.Admits s)
    (apart : rest.toList.head? ≠ some '"') : (tokenize (form.spell s ++ rest)).head? =
      some (.lexeme ⟨.token (.text s), 0, (form.spell s).utf8ByteSize⟩) := by
  obtain ⟨c, v, spelled, solid, reads⟩ := exists_read_spell form admits apart
  rw [tokenize_eq, Lexeme.ofText, String.toList_append, spelled, scan_some solid reads, ← spelled,
    Nat.zero_add, Host.byteLength_toList]
  rfl

theorem tokenize_literal_raw :
    LiteralForm.raw.Admits "\"\"a\nb" ∧ ";".toList.head? ≠ some '"' ∧
    (tokenize (LiteralForm.raw.spell "\"\"a\nb" ++ ";")).head? =
      some (.lexeme ⟨.token (.text "\"\"a\nb"), 0, 11⟩) :=
  have admits : LiteralForm.raw.Admits "\"\"a\nb" := ⟨by decide, by decide⟩
  ⟨admits, by decide, tokenize_literal .raw admits (by decide)⟩

end Ambient
