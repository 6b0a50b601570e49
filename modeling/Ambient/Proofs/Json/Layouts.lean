import Ambient.Json.Decode
import Ambient.Proofs.Json.Documents

/-!
# The two layouts

A value is written on one line, or with one entry a line. Both ways put the same white space
before every entry and, if there has been an entry, some before the closing bracket; so both are
texts of the value.

What a decoder gives depends on the value that a document shows and not on how it is written. A
record takes the fields of an object one after another into its draft, so the draft at the end is
that of all the fields, and the fields that are left out keep what the draft began with.
-/
namespace Ambient.Json

/-- What follows an opening bracket: `gap` before each entry, and `last` before the closing bracket
if there are entries. -/
def laid (gap last closing : List Char) : Bool → List String → List Char
  | true, [] => closing
  | false, [] => last ++ closing
  | first, e :: more =>
    (if first then [] else [',']) ++ gap ++ (e.toList ++ laid gap last closing false more)

variable {gap last closing : List Char} {entries : List String} {indent : String} {first : Bool}

theorem lead_of_blank (blank : Blank gap) (first : Bool) :
    Lead first ((if first then [] else [',']) ++ gap) := by
  cases first with
  | true => exact .first blank
  | false => exact .later .nil blank

theorem exists_laid_nil (blank : Blank last) (first : Bool) :
    ∃ front, Blank front ∧ laid gap last closing first [] = front ++ closing := by
  cases first with
  | true => exact ⟨[], .nil, rfl⟩
  | false => exact ⟨last, blank, rfl⟩

theorem spellsItems_laid {vs : List Value} (gaps : Blank gap) (lasts : Blank last)
    (spelled : List.Forall₂ (fun v e => Spells v e.toList) vs entries) :
    SpellsItems first vs (laid gap last [']'] first entries) := by
  induction spelled generalizing first with
  | nil =>
    obtain ⟨front, blank, whole⟩ := @exists_laid_nil gap last [']'] lasts first
    rw [whole]
    exact .nil blank
  | cons here _ ih =>
    rw [laid]
    exact .cons (lead_of_blank gaps first) here ih

/-- An entry of an object: the key, a colon right after it, and the value. -/
def SpellsField (f : String × Value) (e : String) : Prop :=
  ∃ back cs, Blank back ∧ Spells f.2 cs ∧ e.toList = (quote f.1).toList ++ ':' :: (back ++ cs)

theorem spellsFields_laid {fs : List (String × Value)} (gaps : Blank gap) (lasts : Blank last)
    (spelled : List.Forall₂ SpellsField fs entries) :
    SpellsFields first fs (laid gap last ['\x7d'] first entries) := by
  induction spelled generalizing first with
  | nil =>
    obtain ⟨front, blank, whole⟩ := @exists_laid_nil gap last ['\x7d'] lasts first
    rw [whole]
    exact .nil blank
  | @cons f e fs entries here _ ih =>
    obtain ⟨back, cs, blank, value, whole⟩ := here
    have same : laid gap last ['\x7d'] first (e :: entries) =
        ((if first then [] else [',']) ++ gap) ++ ((quote f.1).toList ++
          ([] ++ ':' :: (back ++ (cs ++ laid gap last ['\x7d'] false entries)))) := by
      simp [laid, whole]
    rw [same]
    exact .cons (lead_of_blank gaps first) .nil blank value ih

/-- Entries put together with commas between them are laid out after the first gap. -/
theorem toList_intercalate {sep lead : String} {front : List Char}
    (comma : sep.toList = ',' :: front)
    (last closing : List Char) (e : String) (more : List String) :
    (sep.intercalate ((e :: more).map (lead ++ ·))).toList ++ (last ++ closing) =
      lead.toList ++ (e.toList ++ laid (front ++ lead.toList) last closing false more) := by
  induction more generalizing e with
  | nil => simp [laid, String.intercalate_singleton]
  | cons f more ih =>
    have next := ih f
    rw [List.map_cons] at next
    rw [List.map_cons, List.map_cons, String.intercalate_cons_cons]
    simp only [String.toList_append, comma, List.append_assoc, next, laid, Bool.false_eq_true,
      if_false, List.cons_append, List.nil_append]

theorem toList_enclosed (opening closing indent : String) (entries : List String) :
    (Value.enclosed opening closing indent entries).toList =
      opening.toList ++ laid ('\n' :: (indent ++ "  ").toList) ('\n' :: indent.toList)
        closing.toList true entries := by
  cases entries with
  | nil => simp [Value.enclosed, laid]
  | cons e more =>
    have newline : "\n".toList = ['\n'] := rfl
    have lines := @toList_intercalate ",\n" (indent ++ "  ") ['\n'] rfl
      ('\n' :: indent.toList) closing.toList e more
    rw [Value.enclosed]
    simp only [List.isEmpty_cons, Bool.false_eq_true, if_false, String.toList_append, newline,
      List.append_assoc, List.cons_append, List.nil_append] at lines ⊢
    rw [lines]
    simp [laid]

theorem blank_line (blank : Blank indent.toList) : Blank ('\n' :: indent.toList) := by
  rintro c (_ | ⟨_, later⟩)
  · rfl
  · exact blank c later

theorem blank_deeper (blank : Blank indent.toList) : Blank (indent ++ "  ").toList := by
  have spaces : Blank "  ".toList := by
    intro c hc
    have space : c = ' ' := by simpa using hc
    rw [space]
    rfl
  intro c hc
  rw [String.toList_append] at hc
  exact (List.mem_append.mp hc).elim (blank c) (spaces c)

mutual
theorem spells_prettyAt {indent : String} (blank : Blank indent.toList) :
    (v : Value) → Spells v (v.prettyAt indent).toList
  | .null => by
    rw [Value.prettyAt]
    exact .null
  | .bool b => by
    rw [Value.prettyAt]
    exact .bool b
  | .text s => by
    rw [Value.prettyAt]
    exact .text s
  | .array vs => by
    have items := spells_prettyItems (blank_deeper blank) vs
    rw [Value.prettyAt, toList_enclosed]
    exact .array (spellsItems_laid (blank_line (blank_deeper blank)) (blank_line blank) items)
  | .object fs => by
    have fields := spells_prettyFields (blank_deeper blank) fs
    rw [Value.prettyAt, toList_enclosed]
    exact .object (spellsFields_laid (blank_line (blank_deeper blank)) (blank_line blank) fields)

theorem spells_prettyItems {indent : String} (blank : Blank indent.toList) :
    (vs : List Value) →
      List.Forall₂ (fun v e => Spells v e.toList) vs (Value.prettyItems indent vs)
  | [] => by
    rw [Value.prettyItems]
    exact .nil
  | v :: vs => by
    rw [Value.prettyItems]
    exact .cons (spells_prettyAt blank v) (spells_prettyItems blank vs)

theorem spells_prettyFields {indent : String} (blank : Blank indent.toList) :
    (fs : List (String × Value)) →
      List.Forall₂ SpellsField fs (Value.prettyFields indent fs)
  | [] => by
    rw [Value.prettyFields]
    exact .nil
  | (key, v) :: fs => by
    rw [Value.prettyFields]
    refine .cons ⟨[' '], _, .singleton rfl, spells_prettyAt blank v, ?_⟩
      (spells_prettyFields blank fs)
    simp
end

theorem toList_commas (closing : List Char) (entries : List String) :
    (",".intercalate entries).toList ++ closing = laid [] [] closing true entries := by
  cases entries with
  | nil => simp [laid]
  | cons e more =>
    have line := @toList_intercalate "," "" [] rfl [] closing e more
    have same : (e :: more).map ("" ++ ·) = e :: more := by simp
    rw [same] at line
    exact line

mutual
theorem spells_compact : (v : Value) → Spells v v.compact.toList
  | .null => by
    rw [Value.compact]
    exact .null
  | .bool b => by
    rw [Value.compact]
    exact .bool b
  | .text s => by
    rw [Value.compact]
    exact .text s
  | .array vs => by
    have brackets : ("[" ++ ",".intercalate (Value.compactItems vs) ++ "]").toList =
        '[' :: laid [] [] [']'] true (Value.compactItems vs) := by
      rw [← toList_commas, String.append_assoc, String.toList_append, String.toList_append]
      rfl
    rw [Value.compact, brackets]
    exact .array (spellsItems_laid .nil .nil (spells_compactItems vs))
  | .object fs => by
    have braces : ("\x7b" ++ ",".intercalate (Value.compactFields fs) ++ "\x7d").toList =
        '\x7b' :: laid [] [] ['\x7d'] true (Value.compactFields fs) := by
      rw [← toList_commas, String.append_assoc, String.toList_append, String.toList_append]
      rfl
    rw [Value.compact, braces]
    exact .object (spellsFields_laid .nil .nil (spells_compactFields fs))

theorem spells_compactItems : (vs : List Value) →
    List.Forall₂ (fun v e => Spells v e.toList) vs (Value.compactItems vs)
  | [] => by
    rw [Value.compactItems]
    exact .nil
  | v :: vs => by
    rw [Value.compactItems]
    exact .cons (spells_compact v) (spells_compactItems vs)

theorem spells_compactFields : (fs : List (String × Value)) →
    List.Forall₂ SpellsField fs (Value.compactFields fs)
  | [] => by
    rw [Value.compactFields]
    exact .nil
  | (key, v) :: fs => by
    rw [Value.compactFields]
    refine .cons ⟨[], _, .nil, spells_compact v, ?_⟩ (spells_compactFields fs)
    simp
end

theorem Spells.isWrittenAs {v : Value} {text : String} (spells : Spells v text.toList) :
    v.IsWrittenAs text :=
  ⟨[], text.toList, [], .nil, spells, .nil, by simp⟩

theorem isWrittenAs_pretty (v : Value) : v.IsWrittenAs v.pretty :=
  (spells_prettyAt (by simp [Blank]) v).isWrittenAs

theorem isWrittenAs_compact (v : Value) : v.IsWrittenAs v.compact :=
  (spells_compact v).isWrittenAs

end Ambient.Json

namespace Ambient.Json
variable {α β σ : Type}

/-- The decoder gives `x` for every tree that shows the value. -/
def Reads (decoder : Node → Decoded α) (v : Value) (x : α) : Prop :=
  ∀ n, Shows v n → decoder n = .ok x

theorem Reads.decodeText {decoder : Node → Decoded α} {v : Value} {x : α} {text : String}
    (reads : Reads decoder v x) (written : v.IsWrittenAs text) :
    decodeText decoder text = .ok x := by
  obtain ⟨shows, nothing⟩ := read_isWrittenAs written
  simp only [Json.decodeText, reads _ shows, nothing, Except.bind]

namespace Node

theorem reads_asTextOf (wanted s : String) : Reads (asTextOf wanted) (.text s) s := by
  intro n shows
  obtain ⟨i, j, rfl⟩ := shows_text shows
  rfl

theorem reads_asText (s : String) : Reads asText (.text s) s := reads_asTextOf _ s

theorem reads_asOptionalText (s : Option String) : Reads asOptionalText (.ofOption s) s := by
  intro n shows
  cases s with
  | none =>
    obtain ⟨i, j, rfl⟩ := shows_null shows
    rfl
  | some s =>
    obtain ⟨i, j, rfl⟩ := shows_text shows
    rfl

theorem reads_asList {item : Node → Decoded α} {toValue : α → Value} {xs : List α}
    (depth : Nat) (reads : ∀ x ∈ xs, Reads item (toValue x) x) :
    Reads (asList (depth + 1) item) (.array (xs.map toValue)) xs := by
  intro n shows
  obtain ⟨start, items, stop, rfl, all⟩ := shows_array shows
  have read : items.mapM item = .ok xs := by
    clear shows
    induction xs generalizing items with
    | nil =>
      rw [showsItems_nil all]
      rfl
    | cons x more ih =>
      obtain ⟨n, rest, rfl, first, others⟩ := showsItems_cons all
      have later := ih (fun y hy => reads y (List.mem_cons_of_mem x hy)) rest others
      rw [List.mapM_cons, reads x List.mem_cons_self n first, later]
      rfl
  simp [asList, read, Ending.used, Except.bind, Except.map]

end Node

theorem showsFields_append {fs gs : List (String × Value)} {fields : List Field}
    (shows : ShowsFields (fs ++ gs) fields) :
    ∃ a b, fields = a ++ b ∧ ShowsFields fs a ∧ ShowsFields gs b := by
  induction fs generalizing fields with
  | nil => exact ⟨[], fields, rfl, by simp [ShowsFields], shows⟩
  | cons f fs ih =>
    obtain ⟨key, v⟩ := f
    obtain ⟨next, n, more, rfl, value, rest⟩ := showsFields_cons shows
    obtain ⟨a, b, rfl, front, back⟩ := ih rest
    exact ⟨⟨.ok key, next, n⟩ :: a, b,
      rfl, by simpa [ShowsFields] using ⟨value, front⟩, back⟩

namespace RecordShape
variable {r : RecordShape σ α} {a b c : σ} {fs gs : List (String × Value)}

/-- The fields take a draft from `a` to `b`. -/
def Takes (r : RecordShape σ α) (fs : List (String × Value)) (a b : σ) : Prop :=
  ∀ fields, ShowsFields fs fields → r.readFields a fields = .ok b

theorem Takes.nil : r.Takes [] a a := by
  intro fields shows
  rw [showsFields_nil shows, readFields]

theorem readFields_append (front back : List Field) :
    r.readFields a (front ++ back) = (r.readFields a front).bind fun b => r.readFields b back := by
  induction front generalizing a with
  | nil => rfl
  | cons f front ih =>
    obtain ⟨key, next, value⟩ := f
    cases key with
    | error fault => rfl
    | ok key =>
      simp only [List.cons_append, readFields, Except.bind]
      cases r.field? key with
      | none =>
        cases value.pass with
        | error fault => rfl
        | ok _ => exact ih
      | some field =>
        by_cases set : field.isSet a = true
        · simp only [set, if_true]
        · simp only [set, Bool.false_eq_true, if_false]
          cases field.read value a with
          | error fault => rfl
          | ok b => exact ih

theorem Takes.append (first : r.Takes fs a b) (next : r.Takes gs b c) : r.Takes (fs ++ gs) a c := by
  intro fields shows
  obtain ⟨front, back, rfl, one, two⟩ := showsFields_append shows
  rw [readFields_append, first front one]
  exact next back two

/-- A field that is not set yet takes the value of its key. -/
theorem takes_field {key name : String} {others : List String} {get : σ → Option β}
    {set : σ → β → σ} {value : Node → Decoded β} {v : Value} {x : β}
    (known : r.field? key = some (.make name others get set value)) (fresh : get a = none)
    (reads : Reads value v x) (becomes : set a x = b) : r.Takes [(key, v)] a b := by
  intro fields shows
  obtain ⟨next, n, more, rfl, one, rest⟩ := showsFields_cons shows
  rw [showsFields_nil rest, readFields]
  simp [known, RecordField.make, fresh, reads n one, becomes, readFields, Except.bind, Except.map]

/-- An object whose fields fill the draft reads as what the draft comes to. -/
theorem Takes.reads {x : α} (takes : r.Takes fs r.draft b) (finish : r.finish b = .ok x)
    (depth : Nat) : Reads (r.decode (depth + 1)) (.object fs) x := by
  intro n shows
  obtain ⟨start, fields, stop, rfl, all⟩ := shows_object shows
  simp [decode, ofObject, takes fields all, Ending.used, finish, Except.bind]

end RecordShape

end Ambient.Json
