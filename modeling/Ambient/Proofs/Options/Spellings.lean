import Ambient.Options.Json
import Ambient.Proofs.Json.Grammar
import Ambient.Proofs.Json.Layouts

/-!
# Options in any spelling

The key of an option is made of words, and these are put together in three ways. An object of
options may use any of them for each key, in any order and among keys that are no options. What it
leaves out has its default. A key that comes again, in whatever spelling, is a fault.
-/
namespace Ambient.Options

open Json

inductive Key where
  | camelCaseEnumerationValues
  | camelCasePropertyNames
  | camelCaseTypeNames
  | defaultModuleName
  | classInsteadOfInterface
  | globalScope
  | assumeExternalType
  | keepReferencesUnchanged
  | includeOriginalExtension
  | generatedFileExtension
  deriving DecidableEq, Repr

namespace Key

def all : List Key :=
  [camelCaseEnumerationValues, camelCasePropertyNames, camelCaseTypeNames, defaultModuleName,
    classInsteadOfInterface, globalScope, assumeExternalType, keepReferencesUnchanged,
    includeOriginalExtension, generatedFileExtension]

def words : Key → List String
  | camelCaseEnumerationValues => ["camel", "case", "enumeration", "values"]
  | camelCasePropertyNames => ["camel", "case", "property", "names"]
  | camelCaseTypeNames => ["camel", "case", "type", "names"]
  | defaultModuleName => ["default", "module", "name"]
  | classInsteadOfInterface => ["class", "instead", "of", "interface"]
  | globalScope => ["global", "scope"]
  | assumeExternalType => ["assume", "external", "type"]
  | keepReferencesUnchanged => ["keep", "references", "unchanged"]
  | includeOriginalExtension => ["include", "original", "extension"]
  | generatedFileExtension => ["generated", "file", "extension"]

def pascal (k : Key) : String := String.join (k.words.map String.capitalize)

def camel (k : Key) : String := k.pascal.decapitalize

def snake (k : Key) : String := "_".intercalate k.words

def spellings (k : Key) : List String := [k.pascal, k.camel, k.snake]

theorem fields_spelled : fields.map (fun f => f.name :: f.otherNames) = all.map spellings := by
  decide

/-- A text behind its opening quote that spells the key, with any escapes. -/
def Spells (k : Key) (cs : List Char) : Prop := ∃ s ∈ k.spellings, Quotes s.toList cs

end Key

/-- A string that is no key of an option. -/
def IsUnknown (s : String) : Prop := ∀ k : Key, s ∉ k.spellings

def value (o : Options) : Key → Value
  | .camelCaseEnumerationValues => .bool o.camelCaseEnumerationValues
  | .camelCasePropertyNames => .bool o.camelCasePropertyNames
  | .camelCaseTypeNames => .bool o.camelCaseTypeNames
  | .defaultModuleName => .text o.defaultModuleName
  | .classInsteadOfInterface => .bool o.classInsteadOfInterface
  | .globalScope => .bool o.globalScope
  | .assumeExternalType => .bool o.assumeExternalType
  | .keepReferencesUnchanged => .bool o.keepReferencesUnchanged
  | .includeOriginalExtension => .bool o.includeSourceExtension
  | .generatedFileExtension => .text o.generatedFileExtension

/-- The options that have the say at a key: these if it is given, and the defaults if it is not. -/
def giver (o : Options) (keys : List Key) (k : Key) : Options := if k ∈ keys then o else default

/-- These options at the given keys and the defaults at the others. -/
def keeping (o : Options) (keys : List Key) : Options where
  camelCaseEnumerationValues :=
    (o.giver keys .camelCaseEnumerationValues).camelCaseEnumerationValues
  camelCasePropertyNames := (o.giver keys .camelCasePropertyNames).camelCasePropertyNames
  camelCaseTypeNames := (o.giver keys .camelCaseTypeNames).camelCaseTypeNames
  defaultModuleName := (o.giver keys .defaultModuleName).defaultModuleName
  classInsteadOfInterface := (o.giver keys .classInsteadOfInterface).classInsteadOfInterface
  globalScope := (o.giver keys .globalScope).globalScope
  assumeExternalType := (o.giver keys .assumeExternalType).assumeExternalType
  keepReferencesUnchanged := (o.giver keys .keepReferencesUnchanged).keepReferencesUnchanged
  includeSourceExtension := (o.giver keys .includeOriginalExtension).includeSourceExtension
  generatedFileExtension := (o.giver keys .generatedFileExtension).generatedFileExtension

theorem value_keeping (o : Options) (keys : List Key) (k : Key) :
    (o.keeping keys).value k = (o.giver keys k).value k := by
  cases k <;> rfl

theorem eq_of_value {o p : Options} (same : ∀ k, o.value k = p.value k) : o = p := by
  cases o
  cases p
  simp only [Options.mk.injEq]
  exact ⟨Value.bool.inj (same .camelCaseEnumerationValues),
    Value.bool.inj (same .camelCasePropertyNames),
    Value.bool.inj (same .camelCaseTypeNames), Value.text.inj (same .defaultModuleName),
    Value.bool.inj (same .classInsteadOfInterface), Value.bool.inj (same .globalScope),
    Value.bool.inj (same .assumeExternalType), Value.bool.inj (same .keepReferencesUnchanged),
    Value.bool.inj (same .includeOriginalExtension),
    Value.text.inj (same .generatedFileExtension)⟩

namespace Draft

def value? (d : Draft) : Key → Option Value
  | .camelCaseEnumerationValues => d.camelCaseEnumerationValues.map .bool
  | .camelCasePropertyNames => d.camelCasePropertyNames.map .bool
  | .camelCaseTypeNames => d.camelCaseTypeNames.map .bool
  | .defaultModuleName => d.defaultModuleName.map .text
  | .classInsteadOfInterface => d.classInsteadOfInterface.map .bool
  | .globalScope => d.globalScope.map .bool
  | .assumeExternalType => d.assumeExternalType.map .bool
  | .keepReferencesUnchanged => d.keepReferencesUnchanged.map .bool
  | .includeOriginalExtension => d.includeSourceExtension.map .bool
  | .generatedFileExtension => d.generatedFileExtension.map .text

theorem value?_empty (k : Key) : empty.value? k = none := by
  cases k <;> rfl

/-- What a draft lacks has its default. -/
theorem value_options (d : Draft) (k : Key) :
    d.options.value k = (d.value? k).getD (default.value k) := by
  cases k <;> exact (Option.getD_map ..).symm

end Draft

theorem field?_of_unknown {s : String} (unknown : IsUnknown s) : shape.field? s = none := by
  refine List.find?_eq_none.mpr fun f hf accepted => ?_
  have listed : f.name :: f.otherNames ∈ Key.all.map Key.spellings := by
    rw [← Key.fields_spelled]
    exact List.mem_map_of_mem hf
  obtain ⟨k, -, same⟩ := List.mem_map.mp listed
  refine unknown k (same ▸ ?_)
  simpa [RecordField.accepts] using accepted

/-- What the field of a key does: it is set as soon as the draft has a value for the key, and it
takes the value of these options. -/
structure Serves (f : RecordField Draft) (k : Key) : Prop where
  name : f.name = k.pascal
  isSet : ∀ d, f.isSet d = (d.value? k).isSome
  read : ∀ (o : Options) (d : Draft) (n : Node), Shows (o.value k) n →
    ∃ e, f.read n d = .ok e ∧ ∀ l, e.value? l = if l = k then some (o.value k) else d.value? l

theorem serves_make {β : Type} {name : String} {others : List String} {get : Draft → Option β}
    {set : Draft → β → Draft} {read : Node → Decoded β} {k : Key} {wrap : β → Value}
    {own : Options → β}
    (named : name = k.pascal) (gets : ∀ d, d.value? k = (get d).map wrap)
    (holds : ∀ o, o.value k = wrap (own o)) (reads : ∀ b, Reads read (wrap b) b)
    (sets : ∀ d b l, (set d b).value? l = if l = k then some (wrap b) else d.value? l) :
    Serves (.make name others get set read) k where
  name := named
  isSet d := by
    rw [gets, Option.isSome_map]
    rfl
  read o d n shows := by
    rw [holds] at shows ⊢
    refine ⟨set d (own o), ?_, sets d (own o)⟩
    show (read n).map (set d) = _
    rw [reads _ n shows]
    rfl

theorem reads_asBool (b : Bool) : Reads Node.asBool (.bool b) b := by
  intro n shows
  obtain ⟨i, j, rfl⟩ := shows_bool shows
  rfl

/-- The field of a key, which stands at the place of the key. -/
def Key.field (k : Key) : RecordField Draft :=
  fields.get ⟨Key.all.idxOf k, by cases k <;> decide⟩

theorem serves_field (k : Key) : Serves k.field k := by
  cases k with
  | defaultModuleName | generatedFileExtension =>
    exact @serves_make String _ _ _ _ _ _ .text _ (by decide) (fun _ => rfl) (fun _ => rfl)
      Node.reads_asText (fun d b l => by cases l <;> rfl)
  | _ =>
    exact @serves_make Bool _ _ _ _ _ _ .bool _ (by decide) (fun _ => rfl) (fun _ => rfl)
      reads_asBool (fun d b l => by cases l <;> rfl)

theorem field?_of_spelling {k : Key} {s : String} (spelled : s ∈ k.spellings) :
    shape.field? s = some k.field := by
  simp only [Key.spellings, List.mem_cons, List.not_mem_nil, or_false] at spelled
  cases k <;> rcases spelled with rfl | rfl | rfl <;> rfl

/-- `Entries o first keys cs`: the text `cs` has an entry with the value of `o` for each
of the keys, in this order, among entries that are no options. The flag says whether none
has been before. -/
inductive Entries (o : Options) : Bool → List Key → List Char → Prop
  | nil {first : Bool} : Entries o first [] []
  | known {first : Bool} {k : Key} {keys : List Key} {lead key front back cs more : List Char} :
    Lead first lead → k.Spells key → Blank front → Blank back →
      SpellsScalar (o.value k) cs → Entries o false keys more →
    Entries o first (k :: keys) (lead ++ '"' :: (key ++ (front ++ ':' :: (back ++ (cs ++ more)))))
  | unknown {first : Bool} {s : String} {keys : List Key}
    {lead key front back cs more : List Char} :
    Lead first lead → Quotes s.toList key → IsUnknown s → Blank front → Blank back →
      IsValue cs → Entries o false keys more →
    Entries o first keys (lead ++ '"' :: (key ++ (front ++ ':' :: (back ++ (cs ++ more)))))

/-- The fields of such entries. -/
inductive Given (o : Options) : List Key → List Field → Prop
  | nil : Given o [] []
  | known {k : Key} {keys : List Key} {s : String} {next : Nat} {n : Node} {fields : List Field} :
    s ∈ k.spellings → Shows (o.value k) n → Given o keys fields →
    Given o (k :: keys) (⟨.ok s, next, n⟩ :: fields)
  | unknown {keys : List Key} {s : String} {next : Nat} {n : Node} {fields : List Field} :
    IsUnknown s → n.Passes → Given o keys fields →
      Given o keys (⟨.ok s, next, n⟩ :: fields)

variable {o : Options} {keys : List Key} {first : Bool} {cs rest : List Char}

theorem Entries.stops (entries : Entries o false keys cs) (stops : Stops rest) :
    Stops (cs ++ rest) := by
  cases entries with
  | nil => exact stops
  | known leads _ _ _ _ _ =>
    rw [List.append_assoc]
    exact stops_of_lead leads _
  | unknown leads _ _ _ _ _ _ =>
    rw [List.append_assoc]
    exact stops_of_lead leads _

/-- The reader meets the entries one after another and then reads on, as it did at the beginning
only if there has been none. -/
theorem readFields_entries (entries : Entries o first keys cs) (stops : Stops rest) (index : Nat) :
    ∃ fields going j, Given o keys fields ∧ (going = true → first = true ∧ keys = []) ∧
      (readFields first index (cs ++ rest)).Continues fields (readFields going j rest) := by
  induction entries generalizing index with
  | @nil first => exact ⟨[], first, index, .nil, fun same => ⟨same, rfl⟩, rfl, rfl⟩
  | @known first k keys lead key front back cs more leads spelled before after value entries ih =>
    obtain ⟨s, spelling, quotes⟩ := spelled
    obtain ⟨text, next, node, l, named, shows, one⟩ :=
      readFields_entry (Q := (· = .ok s)) leads before
      (readKey_quotes quotes) (readValue_spellsScalar value after (more ++ rest)) index
    obtain ⟨fields, going, j, given, begun, others⟩ := ih l
    refine ⟨⟨text, next, node⟩ :: fields, going, j, ?_, fun same => ?_, one.trans others⟩
    · rw [named]
      exact .known spelling shows given
    · cases (begun same).1
  | @unknown first s keys lead key front back cs more leads quotes unknown before after value
      entries ih =>
    obtain ⟨text, next, node, l, named, passes, one⟩ :=
      readFields_entry (Q := (· = .ok s)) leads before
      (readKey_quotes quotes) (readValue_isValue value after (entries.stops stops)) index
    obtain ⟨fields, going, j, given, begun, others⟩ := ih l
    refine ⟨⟨text, next, node⟩ :: fields, going, j, ?_, fun same => ?_, one.trans others⟩
    · rw [named]
      exact .unknown unknown passes given
    · cases (begun same).1

/-- The fields of entries with distinct keys are taken, each for its key. -/
theorem readFields_given {fields : List Field} (given : Given o keys fields) (distinct : keys.Nodup)
    (d : Draft) (fresh : ∀ k ∈ keys, d.value? k = none) :
    ∃ e, shape.readFields d fields = .ok e ∧
      ∀ k, e.value? k = if k ∈ keys then some (o.value k) else d.value? k := by
  induction given generalizing d with
  | nil => exact ⟨d, rfl, fun k => by simp⟩
  | @known k keys s next n fields spelled shows given ih =>
    obtain ⟨own, others⟩ := List.nodup_cons.mp distinct
    have serves := serves_field k
    have unset : k.field.isSet d = false := by
      rw [serves.isSet, fresh k List.mem_cons_self]
      rfl
    obtain ⟨e, read, values⟩ := serves.read o d n shows
    obtain ⟨e', later, final⟩ := ih others e fun l hl => by
      have other : l ≠ k := fun same => own (same ▸ hl)
      rw [values, if_neg other, fresh l (List.mem_cons_of_mem k hl)]
    refine ⟨e', ?_, fun l => ?_⟩
    · rw [RecordShape.readFields, Except.bind]
      simp only [field?_of_spelling spelled, unset, Bool.false_eq_true, if_false, read, Except.bind]
      exact later
    · rw [final, values]
      by_cases same : l = k <;> simp [same]
  | @unknown keys s next n fields unknown passes given ih =>
    obtain ⟨e, later, final⟩ := ih distinct d fresh
    refine ⟨e, ?_, final⟩
    rw [RecordShape.readFields, Except.bind]
    simp only [field?_of_unknown unknown]
    rw [passes, Except.bind]
    exact later

/-- A key is met whatever follows it. -/
theorem exists_field_of_key {lead key : List Char} {s : String} (leads : Lead first lead)
    (quotes : Quotes s.toList key) (rest : List Char) (index : Nat) :
    ∃ next node more, (readFields first index (lead ++ '"' :: (key ++ rest))).value.fields =
      ⟨.ok s, next, node⟩ :: more := by
  obtain ⟨j, h, turn⟩ := nextKey_entry leads index (key ++ rest)
  obtain ⟨ends, named⟩ := readKey_quotes quotes rest (j + 1)
  obtain ⟨next, i, hi, found⟩ := readKey_of_ends ends
  rw [named] at found
  rw [readFields, turn]
  simp only [found]
  split
  · exact ⟨next, _, [], rfl⟩
  · split
    · exact ⟨next, _, [], rfl⟩
    · exact ⟨next, _, _, rfl⟩

theorem decode_given {fields : List Field} (given : Given o keys fields) (distinct : keys.Nodup)
    (start stop : Nat) :
    shape.decode maxDepth (.object start fields (.closed stop)) = .ok (o.keeping keys) := by
  obtain ⟨e, read, values⟩ :=
    readFields_given given distinct .empty fun k _ => Draft.value?_empty k
  have same : e.options = o.keeping keys := eq_of_value fun k => by
    rw [Draft.value_options, values, value_keeping, Draft.value?_empty, giver]
    split <;> rfl
  have taken : shape.readFields shape.draft fields = .ok e := read
  rw [RecordShape.decode, if_neg (by decide), RecordShape.ofObject, taken, ← same]
  rfl

theorem decode_again {fields more : List Field} {k : Key} {s : String} {n : Node} {ending : Ending}
    (given : Given o keys fields) (distinct : keys.Nodup) (known : k ∈ keys)
    (spelled : s ∈ k.spellings) (start next : Nat) :
    shape.decode maxDepth (.object start (fields ++ ⟨.ok s, next, n⟩ :: more) ending) =
      .error ⟨.duplicateField k.pascal, next⟩ := by
  obtain ⟨e, read, values⟩ :=
    readFields_given given distinct .empty fun k _ => Draft.value?_empty k
  have taken : shape.readFields shape.draft fields = .ok e := read
  have set : k.field.isSet e = true := by
    rw [(serves_field k).isSet, values, if_pos known]
    rfl
  rw [RecordShape.decode, if_neg (by decide), RecordShape.ofObject,
    RecordShape.readFields_append, taken, Except.bind, RecordShape.readFields, Except.bind]
  simp only [field?_of_spelling spelled, set, if_true, (serves_field k).name]
  rfl

/-- An object of entries is read as the values it gives, with the defaults for the others. A key
that comes once more is a fault, whatever follows it. -/
theorem parseJson_entries {before : List Char} (blank : Blank before)
    (entries : Entries o true keys cs) (distinct : keys.Nodup) :
    (∀ text inner behind, Blank inner → Blank behind →
      String.toList text = before ++ '\x7b' :: (cs ++ (inner ++ '\x7d' :: behind)) →
      parseJson text = .ok (o.keeping keys)) ∧
    ∀ text k lead key rest, k ∈ keys → Lead false lead → k.Spells key →
      String.toList text = before ++ '\x7b' :: (cs ++ (lead ++ '"' :: (key ++ rest))) →
      ∃ index, parseJson text = .error ⟨.duplicateField k.pascal, index⟩ := by
  constructor
  · intro text inner behind within after whole
    have stops : Stops (inner ++ '\x7d' :: behind) := stops_of_blank within (stops_cons (by decide))
    obtain ⟨start, tree, next⟩ := readValue_object blank (cs ++ (inner ++ '\x7d' :: behind)) 0
    obtain ⟨fields, going, j, given, -, continues⟩ :=
      readFields_entries entries stops (start + 1)
    have inside := continues.gives (readFields_close within going j behind)
    obtain ⟨v, ⟨stop, rfl⟩, read⟩ := inside.1
    have gives : (readValue 0 text.toList).Gives
        (fun n => shape.decode maxDepth n = .ok (o.keeping keys)) behind := by
      rw [whole]
      refine inside.of_next next ?_
      rw [tree, read, List.append_nil]
      exact decode_given given distinct start stop
    exact decodeText_of_gives gives after
  · intro text k lead key rest known leads spelled whole
    obtain ⟨s, spelling, quotes⟩ := spelled
    obtain ⟨start, tree, -⟩ := readValue_object blank (cs ++ (lead ++ '"' :: (key ++ rest))) 0
    obtain ⟨fields, going, j, given, begun, value, -⟩ :=
      readFields_entries entries (stops_of_lead leads ('"' :: (key ++ rest))) (start + 1)
    have later : going = false := by
      cases going with
      | false => rfl
      | true =>
        rw [(begun rfl).2] at known
        cases known
    subst later
    obtain ⟨next, node, more, met⟩ := exists_field_of_key leads quotes rest j
    refine ⟨next, decodeText_of_error ?_⟩
    rw [whole, tree, value, met]
    exact decode_again given distinct known spelling start next

/-- An escape in a key, a nested value with half of a surrogate pair, and a key that comes again
before something that is no JSON. -/
theorem parseJson_of_escapes :
    parseJson ("\x7b\"global\\u005fscope\":true, \"x\":" ++
        "[\x7b\"GlobalScope\":-0.5e+3\x7d,\"\\ud800\"]\x7d") =
      .ok { default with globalScope := true } ∧
    ∃ index, parseJson ("\x7b\"global\\u005fscope\":true, \"x\":" ++
        "[\x7b\"GlobalScope\":-0.5e+3\x7d,\"\\ud800\"],\"GlobalScope\"?") =
      .error ⟨.duplicateField "GlobalScope", index⟩ := by
  have key : Key.Spells .globalScope "global\\u005fscope\"".toList := by
    refine ⟨"global_scope", by decide, ?_⟩
    have back : Quotes "scope".toList "scope\"".toList := quotes_of_plain (by decide)
    have middle : Quotes "_scope".toList "\\u005fscope\"".toList :=
      .code (n := 0x5f) rfl rfl rfl back
    iterate 6 refine .plain (by decide) (by decide) (by decide) ?_
    exact middle
  have number : IsNumber "-0.5e+3".toList :=
    .negative .zero (@IsFraction.point ['5'] ⟨by decide, by simp⟩)
      (@IsExponent.power 'e' ['+'] ['3'] (by decide) (by decide) ⟨by decide, by simp⟩)
  have name : IsQuoted "GlobalScope\"".toList := by
    iterate 11 refine .plain (by decide) (by decide) (by decide) ?_
    exact .close
  have object : IsValue "\x7b\"GlobalScope\":-0.5e+3\x7d".toList :=
    .object (.cons (.first .nil) name .nil .nil (.number number) (.nil .nil))
  have half : IsValue "\"\\ud800\"".toList := .text (.code (n := 0xd800) rfl .close)
  have list :=
    IsValue.array (.cons (.first .nil) object (.cons (.later .nil .nil) half (.nil .nil)))
  have unknown : IsUnknown "x" := fun k => by cases k <;> decide
  have later : Entries { default with globalScope := true } false [] _ :=
    .unknown (.later .nil (.singleton (c := ' ') rfl))
      (quotes_of_plain (by decide)) unknown .nil .nil list .nil
  have entries : Entries { default with globalScope := true } true [.globalScope] _ :=
    .known (.first .nil) key .nil .nil (.bool true) later
  obtain ⟨parses, repeats⟩ := parseJson_entries .nil entries (by decide)
  have again : Key.Spells .globalScope "GlobalScope\"".toList :=
    ⟨"GlobalScope", by decide, quotes_of_plain (by decide)⟩
  exact ⟨parses _ [] [] .nil .nil rfl,
    repeats _ .globalScope [','] _ ['?'] (by decide) (.later .nil .nil) again rfl⟩

end Ambient.Options
