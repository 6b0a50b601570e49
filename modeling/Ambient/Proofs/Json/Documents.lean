import Ambient.Json.Reader
import Ambient.Json.Value
import Ambient.Proofs.Json.Strings
import Mathlib.Data.String.Basic

/-!
# Written documents read back

A value can be written with any white space between its tokens. Every such text is read as a tree
that shows the value, and nothing of the text is left. The reader meets an entry of a list or object
wherever the text has one.
-/
namespace Ambient.Json

mutual
/-- The tree of a document shows this value. -/
def Shows : Value → Node → Prop
  | .null, .null _ _ => True
  | .bool b, .bool _ _ c => c = b
  | .text s, .text _ _ value => value = .ok s
  | .array vs, .array _ items ending => ShowsItems vs items ∧ ∃ stop, ending = .closed stop
  | .object fs, .object _ fields ending => ShowsFields fs fields ∧ ∃ stop, ending = .closed stop
  | _, _ => False

def ShowsItems : List Value → List Node → Prop
  | [], [] => True
  | v :: vs, n :: ns => Shows v n ∧ ShowsItems vs ns
  | _, _ => False

def ShowsFields : List (String × Value) → List Field → Prop
  | [], [] => True
  | (key, v) :: fs, f :: more => f.key = .ok key ∧ Shows v f.value ∧ ShowsFields fs more
  | _, _ => False
end

theorem shows_text {s : String} {n : Node} (h : Shows (.text s) n) :
    ∃ i j, n = .text i j (.ok s) := by
  cases n <;> simp_all [Shows]

theorem shows_bool {b : Bool} {n : Node} (h : Shows (.bool b) n) : ∃ i j, n = .bool i j b := by
  cases n <;> simp_all [Shows]

theorem shows_null {n : Node} (h : Shows .null n) : ∃ i j, n = .null i j := by
  cases n <;> simp_all [Shows]

theorem shows_array {vs : List Value} {n : Node} (h : Shows (.array vs) n) :
    ∃ start items stop, n = .array start items (.closed stop) ∧ ShowsItems vs items := by
  cases n with
  | array start items ending =>
    rw [Shows] at h
    obtain ⟨items, stop, rfl⟩ := h
    exact ⟨start, _, stop, rfl, items⟩
  | _ => simp [Shows] at h

theorem shows_object {fs : List (String × Value)} {n : Node} (h : Shows (.object fs) n) :
    ∃ start fields stop, n = .object start fields (.closed stop) ∧ ShowsFields fs fields := by
  cases n with
  | object start fields ending =>
    rw [Shows] at h
    obtain ⟨fields, stop, rfl⟩ := h
    exact ⟨start, _, stop, rfl, fields⟩
  | _ => simp [Shows] at h

theorem showsItems_cons {v : Value} {vs : List Value} {ns : List Node}
    (h : ShowsItems (v :: vs) ns) :
    ∃ n more, ns = n :: more ∧ Shows v n ∧ ShowsItems vs more := by
  cases ns with
  | nil => simp [ShowsItems] at h
  | cons n more =>
    rw [ShowsItems] at h
    exact ⟨n, more, rfl, h⟩

theorem showsItems_nil {ns : List Node} (h : ShowsItems [] ns) : ns = [] := by
  cases ns with
  | nil => rfl
  | cons n more => simp [ShowsItems] at h

theorem showsFields_cons {key : String} {v : Value} {fs : List (String × Value)}
    {fields : List Field} (h : ShowsFields ((key, v) :: fs) fields) :
    ∃ next n more, fields = ⟨.ok key, next, n⟩ :: more ∧ Shows v n ∧
      ShowsFields fs more := by
  cases fields with
  | nil => simp [ShowsFields] at h
  | cons f more =>
    obtain ⟨name, next, n⟩ := f
    rw [ShowsFields] at h
    obtain ⟨rfl, shows, rest⟩ := h
    exact ⟨next, n, more, rfl, shows, rest⟩

theorem showsFields_nil {fields : List Field} (h : ShowsFields [] fields) : fields = [] := by
  cases fields with
  | nil => rfl
  | cons f more => simp [ShowsFields] at h

/-- What a reader gives that meets a value with the property `P` and goes on with `rest`. -/
def Reading.Gives {α : Type} {cs : List Char} (r : Reading α cs) (P : α → Prop)
    (rest : List Char) : Prop :=
  P r.value ∧ ∃ index h, r.next = some ⟨⟨index, rest⟩, h⟩

section
variable {α : Type} {cs ds rest : List Char} {P : α → Prop} {r : Reading α cs}

theorem Reading.Gives.widen (g : r.Gives P rest) (h : cs.length ≤ ds.length) :
    (r.widen h).Gives P rest := by
  obtain ⟨value, index, short, next⟩ := g
  refine ⟨value, index, Nat.lt_of_lt_of_le short h, ?_⟩
  rw [Reading.widen, next]
  rfl

theorem Reading.Gives.imp {Q : α → Prop} (g : r.Gives P rest) (holds : ∀ x, P x → Q x) :
    r.Gives Q rest :=
  ⟨holds _ g.1, g.2⟩

/-- Readings that go on at the same place. -/
theorem Reading.Gives.of_next {β : Type} {s : Reading β ds} {Q : β → Prop} (g : r.Gives P rest)
    (same : s.next.map Subtype.val = r.next.map Subtype.val) (holds : Q s.value) :
    s.Gives Q rest := by
  obtain ⟨-, index, short, next⟩ := g
  rw [next] at same
  obtain ⟨⟨cursor, short'⟩, found, rfl⟩ := Option.map_eq_some_iff.mp same
  exact ⟨holds, index, short', found⟩

theorem Reading.Gives.eq (g : r.Gives P rest) :
    ∃ value index h, P value ∧ r = ⟨value, some ⟨⟨index, rest⟩, h⟩⟩ := by
  obtain ⟨value, next⟩ := r
  obtain ⟨holds, index, h, rfl⟩ := g
  exact ⟨value, index, h, holds, rfl⟩

end

def Blank (cs : List Char) : Prop := ∀ c ∈ cs, isSpace c = true

/-- What stands before an entry: white space, in which there is a comma unless the entry is the
first. -/
inductive Lead : Bool → List Char → Prop
  | first {front : List Char} : Blank front → Lead true front
  | later {front back : List Char} : Blank front → Blank back →
    Lead false (front ++ ',' :: back)

mutual
/-- `Spells v cs`: the text `cs` is a text of the value `v`. -/
inductive Spells : Value → List Char → Prop
  | null : Spells .null ['n', 'u', 'l', 'l']
  | bool (b : Bool) : Spells (.bool b) (Value.boolText b).toList
  | text (s : String) : Spells (.text s) (quote s).toList
  | array {vs : List Value} {cs : List Char} :
    SpellsItems true vs cs → Spells (.array vs) ('[' :: cs)
  | object {fs : List (String × Value)} {cs : List Char} :
    SpellsFields true fs cs → Spells (.object fs) ('\x7b' :: cs)

/-- The items of a list and the bracket after them; the flag says whether none has been before. -/
inductive SpellsItems : Bool → List Value → List Char → Prop
  | nil {first : Bool} {front : List Char} : Blank front → SpellsItems first [] (front ++ [']'])
  | cons {first : Bool} {v : Value} {vs : List Value} {lead cs more : List Char} :
    Lead first lead → Spells v cs → SpellsItems false vs more →
    SpellsItems first (v :: vs) (lead ++ (cs ++ more))

inductive SpellsFields : Bool → List (String × Value) → List Char → Prop
  | nil {first : Bool} {front : List Char} : Blank front →
    SpellsFields first [] (front ++ ['\x7d'])
  | cons {first : Bool} {key : String} {v : Value} {fs : List (String × Value)}
    {lead front back cs more : List Char} :
    Lead first lead → Blank front → Blank back → Spells v cs →
      SpellsFields false fs more → SpellsFields first ((key, v) :: fs)
      (lead ++ ((quote key).toList ++ (front ++ ':' :: (back ++ (cs ++ more)))))
end

/-- A text with a value in it and white space around that. -/
def Value.IsWrittenAs (v : Value) (text : String) : Prop :=
  ∃ front cs back, Blank front ∧ Spells v cs ∧ Blank back ∧
    text.toList = front ++ (cs ++ back)

variable {front r rest : List Char} {c : Char} {index : Nat}

theorem Blank.nil : Blank [] := fun _ hc => absurd hc List.not_mem_nil

theorem Blank.singleton (space : isSpace c = true) : Blank [c] := by
  intro d hd
  rwa [List.mem_singleton.mp hd]

/-- The first character of a value opens no white space and closes no list. -/
theorem Spells.exists_head {v : Value} {cs : List Char} (spells : Spells v cs) :
    ∃ c r, cs = c :: r ∧ isSpace c = false ∧ c ≠ ']' := by
  cases spells with
  | null => exact ⟨'n', _, rfl, rfl, by decide⟩
  | bool b =>
    cases b with
    | false => exact ⟨'f', _, rfl, rfl, by decide⟩
    | true => exact ⟨'t', _, rfl, rfl, by decide⟩
  | text s =>
    rw [toList_quote]
    exact ⟨'"', _, rfl, rfl, by decide⟩
  | array _ => exact ⟨'[', _, rfl, rfl, by decide⟩
  | object _ => exact ⟨'\x7b', _, rfl, rfl, by decide⟩

theorem skipSpace_append (blank : Blank front) (solid : isSpace c = false) (index : Nat)
    (r : List Char) : ∃ j, skipSpace index (front ++ c :: r) = ⟨j, c :: r⟩ := by
  induction front generalizing index with
  | nil =>
    rw [List.nil_append, skipSpace, solid]
    exact ⟨index, rfl⟩
  | cons d more ih =>
    rw [List.cons_append, skipSpace, if_pos (blank d List.mem_cons_self)]
    exact ih (fun e he => blank e (List.mem_cons_of_mem d he)) (index + 1)

theorem skipSpace_blank (blank : Blank front) (index : Nat) :
    ∃ j, skipSpace index front = ⟨j, []⟩ := by
  induction front generalizing index with
  | nil => exact ⟨index, rfl⟩
  | cons d more ih =>
    rw [skipSpace, if_pos (blank d List.mem_cons_self)]
    exact ih (fun e he => blank e (List.mem_cons_of_mem d he)) (index + 1)

theorem skipBlanks_append (blank : Blank front) (solid : isSpace c = false) (index : Nat)
    (r : List Char) : ∃ j h, skipBlanks index (front ++ c :: r) = ⟨⟨j, c :: r⟩, h⟩ := by
  obtain ⟨j, skipped⟩ := skipSpace_append blank solid index r
  have short : (c :: r).length ≤ (front ++ c :: r).length := by simp
  exact ⟨j, short, Subtype.ext skipped⟩

theorem nextItem_entry {first : Bool} {lead : List Char} (leads : Lead first lead)
    (solid : isSpace c = false) (notEnd : c ≠ ']') (index : Nat) (r : List Char) :
    ∃ j h, nextItem first index (lead ++ c :: r) = .entry ⟨j, c :: r⟩ h := by
  cases leads with
  | first blank =>
    obtain ⟨j, h, skipped⟩ := skipBlanks_append blank solid index r
    refine ⟨j, h, ?_⟩
    rw [nextItem, skipped]
    simp [notEnd]
  | @later front back before after =>
    obtain ⟨i, short, comma⟩ := skipBlanks_append before (c := ',') rfl index (back ++ c :: r)
    obtain ⟨j, h, skipped⟩ := skipBlanks_append after solid (i + 1) r
    have whole : (front ++ ',' :: back) ++ c :: r = front ++ ',' :: (back ++ c :: r) := by simp
    rw [whole]
    refine ⟨j, Nat.le_trans (Nat.le_succ_of_le h) short, ?_⟩
    rw [nextItem, comma]
    simp [afterListComma, skipped, notEnd, Turn.widen]

theorem nextItem_end (blank : Blank front) (first : Bool) (index : Nat) (r : List Char) :
    ∃ j h, nextItem first index (front ++ ']' :: r) = .finished ⟨j, r⟩ h := by
  obtain ⟨j, h, skipped⟩ := skipBlanks_append blank (c := ']') rfl index r
  refine ⟨j + 1, h, ?_⟩
  rw [nextItem, skipped]
  simp

theorem nextKey_entry {first : Bool} {lead : List Char} (leads : Lead first lead) (index : Nat)
    (r : List Char) : ∃ j h, nextKey first index (lead ++ '"' :: r) =
      .entry ⟨j, '"' :: r⟩ h := by
  cases leads with
  | first blank =>
    obtain ⟨j, h, skipped⟩ := skipBlanks_append blank (c := '"') rfl index r
    refine ⟨j, h, ?_⟩
    rw [nextKey, skipped]
    simp
  | @later front back before after =>
    obtain ⟨i, short, comma⟩ := skipBlanks_append before (c := ',') rfl index (back ++ '"' :: r)
    obtain ⟨j, h, skipped⟩ := skipBlanks_append after (c := '"') rfl (i + 1) r
    have whole : (front ++ ',' :: back) ++ '"' :: r = front ++ ',' :: (back ++ '"' :: r) := by simp
    rw [whole]
    refine ⟨j, Nat.le_trans (Nat.le_succ_of_le h) short, ?_⟩
    rw [nextKey, comma]
    simp [afterObjectComma, skipped, Turn.widen]

theorem nextKey_end (blank : Blank front) (first : Bool) (index : Nat) (r : List Char) :
    ∃ j h, nextKey first index (front ++ '\x7d' :: r) = .finished ⟨j, r⟩ h := by
  obtain ⟨j, h, skipped⟩ := skipBlanks_append blank (c := '\x7d') rfl index r
  refine ⟨j + 1, h, ?_⟩
  rw [nextKey, skipped]
  simp

theorem readKey_of_ends (ends : (readString (index + 1) r).Ends rest) :
    ∃ next j h, readKey index ('"' :: r) =
      .ok ⟨(readString (index + 1) r).text.map String.ofList, next, ⟨j, rest⟩, h⟩ := by
  obtain ⟨j, next⟩ := ends
  have shorter := readString_length_lt next
  unfold readKey
  simp only
  split
  · rename_i d found
    rw [next] at found
    obtain rfl := Except.ok.inj found
    exact ⟨_, j, by simp at shorter ⊢; omega, rfl⟩
  · rename_i f found
    rw [next] at found
    cases found

theorem afterColon_colon (blank : Blank front) (index : Nat) (r : List Char) :
    ∃ j h, afterColon index (front ++ ':' :: r) = .ok ⟨⟨j, r⟩, h⟩ := by
  obtain ⟨j, h, skipped⟩ := skipBlanks_append blank (c := ':') rfl index r
  refine ⟨j + 1, h, ?_⟩
  rw [afterColon, skipped]
  simp

theorem readLetters_append (ls rest : List Char) (index : Nat) :
    ∃ j, readLetters index ls (ls ++ rest) = .ok ⟨j, rest⟩ := by
  induction ls generalizing index with
  | nil => exact ⟨index, rfl⟩
  | cons l ls ih =>
    rw [List.cons_append, readLetters, if_pos rfl]
    exact ih (index + 1)

theorem readLiteral_gives {node : Nat → Nat → Node} {P : Node → Prop}
    (holds : ∀ i j, P (node i j)) (letters rest : List Char) (index : Nat) (first : Char) :
    (readLiteral node letters index first (letters ++ rest)).Gives P rest := by
  obtain ⟨j, read⟩ := readLetters_append letters rest (index + 1)
  unfold readLiteral
  split
  · rename_i d found
    rw [read] at found
    obtain rfl := Except.ok.inj found
    exact ⟨holds _ _, j, _, rfl⟩
  · rename_i f found
    rw [read] at found
    cases found

theorem readText_of_ends {q : Char} (ends : (readString (index + 1) r).Ends rest) :
    (@readText q index r).Gives (fun n => ∃ i j, n =
      .text i j ((readString (index + 1) r).text.map String.ofList)) rest := by
  obtain ⟨j, next⟩ := ends
  unfold readText
  simp only
  split
  · rename_i d found
    rw [next] at found
    obtain rfl := Except.ok.inj found
    exact ⟨⟨index, j, rfl⟩, j, _, rfl⟩
  · rename_i f found
    rw [next] at found
    cases found

theorem readText_of_gives {q : Char} {s : String}
    (gives : (readString (index + 1) r).Gives s.toList rest) :
    (@readText q index r).Gives (Shows (.text s)) rest := by
  obtain ⟨⟨i, j, tree⟩, next⟩ := readText_of_ends (q := q) gives.ends
  refine ⟨?_, next⟩
  rw [tree, gives.1]
  simp [Shows, Except.map]

theorem toList_quote_append (s : String) (rest : List Char) :
    (quote s).toList ++ rest = '"' :: (s.toList.flatMap quoteChar ++ '"' :: rest) := by
  rw [toList_quote, List.cons_append, List.append_assoc, List.singleton_append]

/-- The reading has these fields and then goes on as another. -/
def Reading.Continues {cs ds : List Char} (r : Reading Fields cs) (fields : List Field)
    (s : Reading Fields ds) : Prop :=
  r.value = ⟨fields ++ s.value.fields, s.value.ending⟩ ∧
    r.next.map Subtype.val = s.next.map Subtype.val

theorem Reading.Continues.gives {cs ds : List Char} {r : Reading Fields cs} {fields : List Field}
    {s : Reading Fields ds} {P : Fields → Prop} (h : r.Continues fields s)
    (gives : s.Gives P rest) :
    r.Gives (fun v => ∃ w, P w ∧ v = ⟨fields ++ w.fields, w.ending⟩) rest :=
  gives.of_next h.2 ⟨s.value, gives.1, h.1⟩

theorem Reading.Continues.trans {as cs ds : List Char} {r : Reading Fields as}
    {s : Reading Fields cs}
    {t : Reading Fields ds} {fields others : List Field} (one : r.Continues fields s)
    (two : s.Continues others t) : r.Continues (fields ++ others) t := by
  refine ⟨?_, one.2.trans two.2⟩
  rw [one.1, two.1, List.append_assoc]

theorem readFields_close {front : List Char} (blank : Blank front) (first : Bool) (index : Nat)
    (r : List Char) : (readFields first index (front ++ '\x7d' :: r)).Gives
      (fun v => ∃ stop, v = ⟨[], .closed stop⟩) r := by
  obtain ⟨j, h, turn⟩ := nextKey_end blank first index r
  rw [readFields, turn]
  exact ⟨⟨j, rfl⟩, j, h, rfl⟩

/-- One field: a key, a colon and a value. -/
theorem readFields_field {first : Bool} {lead behind : List Char} {P : Node → Prop}
    {Q : Except Fault String → Prop} (leads : Lead first lead) (blank : Blank front)
    (name : ∀ i, (readString i r).Ends (front ++ ':' :: behind) ∧
      Q ((readString i r).text.map String.ofList))
    (value : ∀ k, (readValue k behind).Gives P rest) (index : Nat) :
    ∃ key next node l, Q key ∧ P node ∧
      (readFields first index (lead ++ '"' :: r)).Continues [⟨key, next, node⟩]
        (readFields false l rest) := by
  obtain ⟨j, h, turn⟩ := nextKey_entry leads index r
  obtain ⟨ends, named⟩ := name (j + 1)
  obtain ⟨next, i, hi, found⟩ := readKey_of_ends ends
  obtain ⟨k, hk, colon⟩ := afterColon_colon blank i behind
  obtain ⟨node, l, hl, holds, read⟩ := (value k).eq
  refine ⟨_, next, node, l, named, holds, ?_⟩
  rw [readFields, turn]
  simp only [found, colon, read]
  refine ⟨rfl, ?_⟩
  simp only [Reading.widen, Option.map_map]
  rfl

mutual
theorem readValue_spells {v : Value} {cs : List Char} (spells : Spells v cs) {front : List Char}
    (blank : Blank front) (rest : List Char) (index : Nat) :
    (readValue index (front ++ (cs ++ rest))).Gives (Shows v) rest := by
  cases spells with
  | null =>
    obtain ⟨start, hs, skipped⟩ := skipBlanks_append blank (c := 'n') rfl index
      (['u', 'l', 'l'] ++ rest)
    show (readValue index (front ++ 'n' :: (['u', 'l', 'l'] ++ rest))).Gives _ _
    rw [readValue, skipped]
    exact (readLiteral_gives (fun _ _ => by simp [Shows]) ['u', 'l', 'l'] rest start 'n').widen hs
  | bool b =>
    cases b with
    | true =>
      obtain ⟨start, hs, skipped⟩ := skipBlanks_append blank (c := 't') rfl index
        (['r', 'u', 'e'] ++ rest)
      show (readValue index (front ++ 't' :: (['r', 'u', 'e'] ++ rest))).Gives _ _
      rw [readValue, skipped]
      exact (readLiteral_gives (fun _ _ => by simp [Shows]) ['r', 'u', 'e'] rest start 't').widen hs
    | false =>
      obtain ⟨start, hs, skipped⟩ := skipBlanks_append blank (c := 'f') rfl index
        (['a', 'l', 's', 'e'] ++ rest)
      show (readValue index (front ++ 'f' :: (['a', 'l', 's', 'e'] ++ rest))).Gives _ _
      rw [readValue, skipped]
      exact (readLiteral_gives (fun _ _ => by simp [Shows]) ['a', 'l', 's', 'e'] rest start
        'f').widen hs
  | text s =>
    obtain ⟨start, hs, skipped⟩ := skipBlanks_append blank (c := '"') rfl index
      (s.toList.flatMap quoteChar ++ '"' :: rest)
    rw [toList_quote_append, readValue, skipped]
    exact (readText_of_gives (readString_quoted s.toList rest (start + 1))).widen hs
  | @array vs cs items =>
    obtain ⟨start, hs, skipped⟩ := skipBlanks_append blank (c := '[') rfl index (cs ++ rest)
    have inner := readItems_spells items rest (start + 1)
    obtain ⟨_, next⟩ := inner.widen (Nat.le_of_lt hs)
    rw [List.cons_append, readValue, skipped]
    exact ⟨by simpa [Shows] using inner.1, next⟩
  | @object fs cs fields =>
    obtain ⟨start, hs, skipped⟩ := skipBlanks_append blank (c := '\x7b') rfl index (cs ++ rest)
    have inner := readFields_spells fields rest (start + 1)
    obtain ⟨_, next⟩ := inner.widen (Nat.le_of_lt hs)
    rw [List.cons_append, readValue, skipped]
    exact ⟨by simpa [Shows] using inner.1, next⟩

theorem readItems_spells {first : Bool} {vs : List Value} {cs : List Char}
    (spells : SpellsItems first vs cs) (rest : List Char) (index : Nat) :
    (readItems first index (cs ++ rest)).Gives
      (fun r => ShowsItems vs r.items ∧ ∃ stop, r.ending = .closed stop) rest := by
  cases spells with
  | @nil _ front blank =>
    obtain ⟨j, h, turn⟩ := nextItem_end blank first index rest
    rw [List.append_assoc, List.singleton_append, readItems, turn]
    exact ⟨⟨by simp [ShowsItems], j, rfl⟩, j, h, rfl⟩
  | @cons _ v vs lead cs more leads value others =>
    obtain ⟨c, r, rfl, solid, notEnd⟩ := value.exists_head
    obtain ⟨j, h, turn⟩ := nextItem_entry leads solid notEnd index (r ++ (more ++ rest))
    have whole : lead ++ (c :: r ++ more) ++ rest = lead ++ c :: (r ++ (more ++ rest)) := by simp
    have here : (readValue j (c :: (r ++ (more ++ rest)))).Gives (Shows v) (more ++ rest) :=
      readValue_spells value .nil (more ++ rest) j
    obtain ⟨node, k, hk, shows, read⟩ := here.eq
    obtain ⟨⟨items, closed⟩, next⟩ := (readItems_spells others rest k).widen
      (show _ ≤ (lead ++ c :: (r ++ (more ++ rest))).length by
        dsimp only at hk h
        omega)
    rw [whole, readItems, turn]
    simp only [read]
    exact ⟨⟨by simpa [ShowsItems] using ⟨shows, items⟩, closed⟩, next⟩

theorem readFields_spells {first : Bool} {fs : List (String × Value)} {cs : List Char}
    (spells : SpellsFields first fs cs) (rest : List Char) (index : Nat) :
    (readFields first index (cs ++ rest)).Gives
      (fun r => ShowsFields fs r.fields ∧ ∃ stop, r.ending = .closed stop) rest := by
  cases spells with
  | @nil _ front blank =>
    rw [List.append_assoc, List.singleton_append]
    refine (readFields_close blank first index rest).imp fun v closed => ?_
    obtain ⟨stop, rfl⟩ := closed
    exact ⟨by simp [ShowsFields], stop, rfl⟩
  | @cons _ key v fs lead front back cs more leads before after value others =>
    let behind := back ++ (cs ++ (more ++ rest))
    have whole : lead ++ ((quote key).toList ++ (front ++ ':' :: (back ++ (cs ++ more)))) ++ rest =
        lead ++ '"' :: (key.toList.flatMap quoteChar ++ '"' :: (front ++ ':' :: behind)) := by
      simp [toList_quote, behind]
    have name (i : Nat) : (readString i (key.toList.flatMap quoteChar ++ '"' ::
          (front ++ ':' :: behind))).Ends (front ++ ':' :: behind) ∧
        (readString i (key.toList.flatMap quoteChar ++ '"' ::
          (front ++ ':' :: behind))).text.map String.ofList = .ok key := by
      have quoted := readString_quoted key.toList (front ++ ':' :: behind) i
      exact ⟨quoted.ends, by rw [quoted.1]; simp [Except.map]⟩
    obtain ⟨text, next, node, l, named, shows, continues⟩ :=
      readFields_field (Q := (· = .ok key))
      leads before name (readValue_spells value after (more ++ rest)) index
    obtain ⟨⟨w, ⟨fields, closed⟩, read⟩, follows⟩ :=
      continues.gives (readFields_spells others rest l)
    rw [whole]
    refine ⟨?_, follows⟩
    rw [read, named]
    exact ⟨by simpa [ShowsFields] using ⟨shows, fields⟩, closed⟩
end

/-- A document is read whole if nothing but white space follows its value. -/
theorem Document.exists_read_eq {P : Node → Prop} {text : String} {back : List Char}
    (gives : (readValue 0 text.toList).Gives P back) (blank : Blank back) :
    ∃ node, P node ∧ Document.read text = ⟨node, none⟩ := by
  obtain ⟨node, j, h, holds, read⟩ := gives.eq
  obtain ⟨stop, nothing⟩ := skipSpace_blank blank j
  exact ⟨node, holds, by simp only [Document.read, read, nothing]⟩

/-- A written document is read back whole. -/
theorem read_isWrittenAs {v : Value} {text : String} (written : v.IsWrittenAs text) :
    Shows v (Document.read text).value ∧ (Document.read text).trailing = none := by
  obtain ⟨front, cs, back, before, spells, after, whole⟩ := written
  have value : (readValue 0 text.toList).Gives (Shows v) back := by
    rw [whole]
    exact readValue_spells spells before back 0
  obtain ⟨node, shows, document⟩ := Document.exists_read_eq value after
  rw [document]
  exact ⟨shows, rfl⟩

end Ambient.Json
