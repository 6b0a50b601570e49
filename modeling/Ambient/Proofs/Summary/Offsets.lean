import Ambient.Proofs.Source.Laid
import Ambient.Summary

/-!
# Summaries by offsets

What is found in a text is found at a byte offset, and parts of the text are cut out between two
offsets. There is no such part if the offsets are in the wrong order, beyond the end or within a
character. The offsets by which a summary is cut out of its documentation never are, whatever
the markup is like.
-/
namespace Ambient

namespace Text
variable {p : Char → Bool} {needle cs a b : List Char} {start stop n : Nat}

/-- The offset lies between two characters, or at one of the ends. -/
def isBoundary : List Char → Nat → Bool
  | _, 0 => true
  | [], _ + 1 => false
  | c :: r, n + 1 => c.utf8Size ≤ n + 1 && isBoundary r (n + 1 - c.utf8Size)

theorem isBoundary_iff : isBoundary cs n = true ↔ ∃ a b, cs = a ++ b ∧ n = byteLength a := by
  fun_induction isBoundary cs n with
  | case1 cs => exact ⟨fun _ => ⟨[], cs, rfl, rfl⟩, fun _ => rfl⟩
  | case2 n =>
    refine ⟨nofun, ?_⟩
    rintro ⟨a, b, whole, size⟩
    rw [(List.append_eq_nil_iff.mp whole.symm).1] at size
    cases size
  | case3 c r n ih =>
    rw [Bool.and_eq_true, decide_eq_true_eq, ih]
    constructor
    · rintro ⟨fits, a, b, rest, size⟩
      have whole : n + 1 = byteLength (c :: a) := by
        rw [byteLength]
        omega
      exact ⟨c :: a, b, by rw [rest, List.cons_append], whole⟩
    · rintro ⟨a, b, whole, size⟩
      cases a with
      | nil => cases size
      | cons d a =>
        obtain ⟨rfl, rest⟩ := List.cons.inj whole
        rw [byteLength] at size
        exact ⟨by omega, a, b, rest, by omega⟩

/-- The part between two offsets, if they are in order and both are boundaries. -/
def slice? (cs : List Char) (start stop : Nat) : Option (List Char) :=
  if start ≤ stop ∧ isBoundary cs start ∧ isBoundary cs stop then some (slice cs start stop)
  else none

theorem slice?_append (a b c : List Char) :
    slice? (a ++ b ++ c) (byteLength a) (byteLength (a ++ b)) = some b := by
  have first : isBoundary (a ++ b ++ c) (byteLength a) = true :=
    isBoundary_iff.mpr ⟨a, b ++ c, List.append_assoc a b c, rfl⟩
  have last : isBoundary (a ++ b ++ c) (byteLength (a ++ b)) = true :=
    isBoundary_iff.mpr ⟨a ++ b, c, rfl, rfl⟩
  have order : byteLength a ≤ byteLength (a ++ b) := by
    rw [byteLength_append]
    omega
  rw [slice?, if_pos ⟨order, first, last⟩, slice_append]

theorem slice?_eq_some_iff :
    slice? cs start stop = some b ↔
      ∃ a c, cs = a ++ b ++ c ∧ start = byteLength a ∧ stop = byteLength (a ++ b) := by
  constructor
  · intro sliced
    unfold slice? at sliced
    split at sliced
    · rename_i holds
      obtain ⟨order, first, last⟩ := holds
      obtain ⟨a, rest, whole, rfl⟩ := isBoundary_iff.mp first
      obtain ⟨front, c, whole', rfl⟩ := isBoundary_iff.mp last
      obtain ⟨e, rfl⟩ := exists_append_of_byteLength_le (whole.symm.trans whole') order
      rw [whole', slice_append] at sliced
      cases sliced
      exact ⟨a, c, whole', rfl, rfl⟩
    · cases sliced
  · rintro ⟨a, c, rfl, rfl, rfl⟩
    exact slice?_append a b c

theorem slice?_length_lt (h : slice? cs (start + 1) stop = some b) : b.length < cs.length := by
  obtain ⟨a, c, rfl, size, -⟩ := slice?_eq_some_iff.mp h
  cases a with
  | nil => cases size
  | cons d r =>
    simp only [List.length_append, List.length_cons]
    omega

/-- The part in front of an offset. -/
theorem slice?_front (a b : List Char) : slice? (a ++ b) 0 (byteLength a) = some a :=
  slice?_append [] a b

/-- The part behind an offset. -/
theorem slice?_back (a b : List Char) :
    slice? (a ++ b) (byteLength a) (byteLength (a ++ b)) = some b := by
  have part := slice?_append a b []
  rwa [List.append_nil] at part

/-- The offset of the first occurrence. -/
def find? (needle cs : List Char) : Option Nat :=
  (cut? needle cs).map fun (before, _) => byteLength before

/-- The offset of the first character that satisfies `p`. -/
def findAt? (p : Char → Bool) (cs : List Char) : Option Nat :=
  (cutAt? p cs).map fun (before, _) => byteLength before

theorem cut?_eq_some (h : cut? needle cs = some (a, b)) : cs = a ++ needle ++ b := by
  induction cs generalizing a with
  | nil =>
    rw [cut?] at h
    split at h
    · rename_i empty
      cases h
      rw [empty]
      rfl
    · cases h
  | cons c r ih =>
    rw [cut?] at h
    split at h
    · rename_i here
      cases h
      exact List.prefix_iff_eq_append.mp (List.isPrefixOf_iff_prefix.mp here) |>.symm
    · obtain ⟨⟨before, after⟩, found, same⟩ := Option.map_eq_some_iff.mp h
      cases same
      rw [ih found, List.cons_append, List.cons_append]

theorem cut?_append_left (h : cut? needle cs = some (a, b)) (d : List Char) :
    cut? needle (cs ++ d) = some (a, b ++ d) := by
  induction cs generalizing a with
  | nil =>
    rw [cut?] at h
    split at h
    · rename_i empty
      cases h
      rw [empty]
      cases d with
      | nil => rfl
      | cons e r => rfl
    · cases h
  | cons c r ih =>
    rw [cut?] at h
    rw [List.cons_append, cut?]
    split at h
    · rename_i here
      cases h
      have start := List.isPrefixOf_iff_prefix.mp here
      have still : needle.isPrefixOf (c :: (r ++ d)) = true :=
        List.isPrefixOf_iff_prefix.mpr (start.trans (List.prefix_append (c :: r) d))
      rw [if_pos still, ← List.cons_append, List.drop_append_of_le_length start.length_le]
    · rename_i other
      obtain ⟨⟨before, after⟩, found, same⟩ := Option.map_eq_some_iff.mp h
      cases same
      have still : ¬ needle.isPrefixOf (c :: (r ++ d)) = true := by
        intro here
        have fits : needle.length ≤ (c :: r).length := by
          rw [cut?_eq_some found]
          simp only [List.length_cons, List.length_append]
          omega
        refine other (List.isPrefixOf_iff_prefix.mpr ?_)
        exact List.prefix_of_prefix_length_le (List.isPrefixOf_iff_prefix.mp here)
          (List.prefix_append (c :: r) d) fits
      rw [if_neg still, ih found]
      rfl

/-- A search goes on behind a text without an occurrence if none reaches into what follows. -/
theorem cut?_append_right {c : Char} (none : cut? needle a = none) (head : b.head? = some c)
    (apart : c ∉ needle.tail) :
    cut? needle (a ++ b) = (cut? needle b).map fun (before, after) => (a ++ before, after) := by
  induction a with
  | nil =>
    rw [List.nil_append]
    exact Option.map_id'.symm
  | cons d r ih =>
    rw [cut?] at none
    split at none
    · cases none
    · rename_i other
      have rest := ih (Option.map_eq_none_iff.mp none)
      have still : ¬ needle.isPrefixOf (d :: (r ++ b)) = true := by
        intro here
        obtain ⟨t, whole⟩ := List.isPrefixOf_iff_prefix.mp here
        rw [← List.cons_append] at whole
        rcases List.append_eq_append_iff.mp whole with ⟨e, shown, -⟩ | ⟨e, shown, behind⟩
        · exact other (List.isPrefixOf_iff_prefix.mpr ⟨e, shown.symm⟩)
        · cases e with
          | nil =>
            rw [List.append_nil] at shown
            exact other (List.isPrefixOf_iff_prefix.mpr ⟨[], by rw [shown, List.append_nil]⟩)
          | cons f e =>
            rw [behind] at head
            cases head
            refine apart ?_
            rw [shown]
            exact List.mem_append_right r List.mem_cons_self
      rw [List.cons_append, cut?, if_neg still, rest, Option.map_map]
      rfl

theorem cutAt?_eq_some (h : cutAt? p cs = some (a, b)) :
    ∃ c, cs = a ++ c :: b ∧ p c = true ∧ ∀ d ∈ a, p d = false := by
  induction cs generalizing a with
  | nil => cases h
  | cons c r ih =>
    rw [cutAt?] at h
    split at h
    · rename_i here
      cases h
      exact ⟨c, rfl, here, List.forall_mem_nil _⟩
    · rename_i other
      obtain ⟨⟨before, after⟩, found, same⟩ := Option.map_eq_some_iff.mp h
      cases same
      obtain ⟨d, rfl, at_, none⟩ := ih found
      refine ⟨d, rfl, at_, fun e he => ?_⟩
      rcases List.mem_cons.mp he with rfl | later
      · exact eq_false_of_ne_true other
      · exact none e later

theorem cutAt?_eq_none (h : cutAt? p cs = none) : ∀ c ∈ cs, p c = false := by
  induction cs with
  | nil => exact nofun
  | cons c r ih =>
    rw [cutAt?] at h
    split at h
    · cases h
    · rename_i other
      intro d hd
      rcases List.mem_cons.mp hd with rfl | later
      · exact eq_false_of_ne_true other
      · exact ih (Option.map_eq_none_iff.mp h) d later

theorem cutAt?_append_cons {c : Char} (none : ∀ d ∈ a, p d = false) (here : p c = true)
    (b : List Char) : cutAt? p (a ++ c :: b) = some (a, b) := by
  induction a with
  | nil => rw [List.nil_append, cutAt?, if_pos here]
  | cons d r ih =>
    have other : ¬ p d = true := by simp [none d List.mem_cons_self]
    rw [List.cons_append, cutAt?, if_neg other, ih fun e he => none e (List.mem_cons_of_mem d he)]
    rfl

end Text

namespace Summary
open Text

/-- `body?` by the offsets of the two tags. -/
def bodySlice? (doc : List Char) : Option (Option (List Char)) :=
  match find? "<summary>".toList doc, find? "</summary>".toList doc with
  | some opening, some closing =>
    if opening < closing then
      (slice? doc (opening + byteLength "<summary>".toList) closing).map some
    else some none
  | some _, none => some none
  | none, _ => some (if (trimStart doc).head? = some '<' then none else some doc)

/-- No closing tag begins in an opening one. -/
theorem cut?_closing (after : List Char) :
    cut? "</summary>".toList ("<summary>".toList ++ after) =
      (cut? "</summary>".toList after).map fun (x, y) => ("<summary>".toList ++ x, y) := by
  have opening : "<summary>".toList = ['<', 's', 'u', 'm', 'm', 'a', 'r', 'y', '>'] := rfl
  have closing : "</summary>".toList = ['<', '/', 's', 'u', 'm', 'm', 'a', 'r', 'y', '>'] := rfl
  simp [opening, closing, cut?, Option.map_map, Function.comp_def]

theorem bodySlice?_eq (doc : List Char) : bodySlice? doc = some (body? doc) := by
  unfold bodySlice? body? find?
  cases opening : cut? "<summary>".toList doc with
  | none =>
    simp only [Option.map_none]
  | some found =>
    obtain ⟨before, after⟩ := found
    have whole := cut?_eq_some opening
    cases early : cut? "</summary>".toList before with
    | some found =>
      obtain ⟨x, y⟩ := found
      have first : cut? "</summary>".toList doc = some (x, y ++ ("<summary>".toList ++ after)) := by
        rw [whole, List.append_assoc]
        exact cut?_append_left early _
      have order : ¬ byteLength before < byteLength x := by
        rw [cut?_eq_some early, byteLength_append, byteLength_append]
        omega
      simp only [early, first, Option.map_some, if_neg order, Option.isSome_some, if_true]
    | none =>
      have first : cut? "</summary>".toList doc =
          (cut? "</summary>".toList after).map fun (x, y) =>
          (before ++ ("<summary>".toList ++ x), y) := by
        rw [whole, List.append_assoc, cut?_append_right early rfl (by decide), cut?_closing,
          Option.map_map]
        rfl
      cases later : cut? "</summary>".toList after with
      | none =>
        simp only [early, first, later, Option.map_none, Option.map_some, Option.isSome_none,
          Bool.false_eq_true, if_false]
      | some found =>
        obtain ⟨x, y⟩ := found
        have body : doc = before ++ "<summary>".toList ++ x ++ ("</summary>".toList ++ y) := by
          rw [whole, cut?_eq_some later]
          simp only [List.append_assoc]
        have order : byteLength before < byteLength (before ++ ("<summary>".toList ++ x)) := by
          have size : byteLength "<summary>".toList = 9 := by decide
          rw [byteLength_append, byteLength_append, size]
          omega
        have part := slice?_append (before ++ "<summary>".toList) x ("</summary>".toList ++ y)
        rw [← body, byteLength_append, List.append_assoc] at part
        simp only [early, first, later, Option.map_some, if_pos order, part, Option.isSome_none,
          Bool.false_eq_true, if_false]

/-- What a tag refers to by the key, between the offsets of the quotes around it. -/
def namedSlice? (tag : List Char) (start : Nat) : Option (Option (List Char)) := do
  let keyed ← slice? tag start (byteLength tag)
  match findAt? (· == '"') keyed with
  | none => some none
  | some quote =>
    let value ← slice? tag (quote + start + 1) (byteLength tag)
    match findAt? (· == '"') value with
    | none => some none
    | some stop =>
      let name ← slice? value 0 stop
      some (some (lastPiece (fun c => c == '.' || c == ':') name))

/-- `reference` by offsets; a tag without one leaves nothing. -/
def referenceSlice? (tag : List Char) : Option (List Char) :=
  match (find? "cref=\"".toList tag).or (find? "langword=\"".toList tag) with
  | none => some []
  | some start => (namedSlice? tag start).map (·.getD [])

/-- The first quote behind the start of a key is the one that the key ends in. -/
theorem namedSlice?_eq {key tag before value : List Char}
    (plain : ∀ c ∈ key, (c == '"') = false)
    (found : cut? (key ++ ['"']) tag = some (before, value)) :
    namedSlice? tag (byteLength before) =
      some ((cutAt? (· == '"') value).map fun (name, _) =>
        lastPiece (fun c => c == '.' || c == ':') name) := by
  have whole : tag = before ++ (key ++ '"' :: value) := by
    rw [cut?_eq_some found]
    simp
  have quote : findAt? (· == '"') (key ++ '"' :: value) = some (byteLength key) := by
    rw [findAt?, cutAt?_append_cons plain rfl]
    rfl
  have keyed : slice? tag (byteLength before) (byteLength tag) = some (key ++ '"' :: value) := by
    rw [whole]
    exact slice?_back before _
  have behind : slice? tag (byteLength key + byteLength before + 1) (byteLength tag) =
      some value := by
    have apart : tag = before ++ key ++ ['"'] ++ value := by
      rw [whole]
      simp
    have size : byteLength (before ++ key ++ ['"']) = byteLength key + byteLength before + 1 := by
      have one : byteLength ['"'] = 1 := by decide
      rw [byteLength_append, byteLength_append, one]
      omega
    rw [← size, apart]
    exact slice?_back _ value
  simp only [namedSlice?, keyed, quote, behind, Option.bind_eq_bind, Option.bind_some]
  cases last : cutAt? (· == '"') value with
  | none => simp only [findAt?, last, Option.map_none]
  | some split =>
    obtain ⟨name, rest⟩ := split
    obtain ⟨c, spelled, -, -⟩ := cutAt?_eq_some last
    have front : slice? value 0 (byteLength name) = some name := by
      rw [spelled]
      exact slice?_front name _
    simp only [findAt?, last, Option.map_some, front, Option.bind_some]

theorem referenceSlice?_eq (tag : List Char) : referenceSlice? tag = some (reference tag) := by
  have cref : "cref=\"".toList = ['c', 'r', 'e', 'f', '='] ++ ['"'] := rfl
  have langword : "langword=\"".toList =
      ['l', 'a', 'n', 'g', 'w', 'o', 'r', 'd', '='] ++ ['"'] := rfl
  unfold referenceSlice? reference referenceIn find?
  cases first : cut? "cref=\"".toList tag with
  | some found =>
    obtain ⟨before, value⟩ := found
    rw [cref] at first
    have named := namedSlice?_eq (by simp) first
    simp only [Option.map_some, Option.some_or, named]
  | none =>
    cases second : cut? "langword=\"".toList tag with
    | some found =>
      obtain ⟨before, value⟩ := found
      rw [langword] at second
      have named := namedSlice?_eq (by simp) second
      simp only [Option.map_none, Option.map_some, Option.none_or, named, Option.bind_some, id]
    | none => rfl

/-- `stripTags` by offsets into what is left, which gets shorter with each tag. -/
def stripSlices? (rest : List Char) : Option (List Char) :=
  match findAt? (· == '<') rest with
  | none => some rest
  | some opening =>
    match slice? rest 0 opening, slice? rest opening (byteLength rest) with
    | some text, some tagged =>
      match findAt? (· == '>') tagged with
      | none => some (text ++ tagged)
      | some closing =>
        match slice? rest (opening + 1) (opening + closing),
            h : slice? rest (opening + closing + 1) (byteLength rest) with
        | some tag, some behind =>
          have := slice?_length_lt h
          match referenceSlice? tag, stripSlices? behind with
          | some name, some more => some (text ++ name ++ more)
          | _, _ => none
        | _, _ => none
    | _, _ => none
termination_by rest.length

theorem stripTags_append {a : List Char} (plain : ∀ c ∈ a, (c == '<') = false) (b : List Char) :
    stripTags (a ++ b) = a ++ stripTags b := by
  induction a with
  | nil => rfl
  | cons c r ih =>
    have other : ¬ c = '<' := by simpa using plain c List.mem_cons_self
    rw [List.cons_append, stripTags, if_neg other,
      ih fun d hd => plain d (List.mem_cons_of_mem c hd)]
    rfl

theorem stripTags_unclosed {cs : List Char} (h : cutAt? (· == '>') cs = none) :
    stripTags ('<' :: cs) = '<' :: cs := by
  rw [stripTags, if_pos rfl]
  split
  · rfl
  · rename_i found
    cases h.symm.trans found

theorem stripTags_closed {cs tag behind : List Char}
    (h : cutAt? (· == '>') cs = some (tag, behind)) :
    stripTags ('<' :: cs) = reference tag ++ stripTags behind := by
  rw [stripTags, if_pos rfl]
  split
  · rename_i none
    cases h.symm.trans none
  · rename_i found
    cases h.symm.trans found
    rfl

/-- A text in front of a tag, the tag and the text behind it, by their offsets. -/
theorem slices_of_tag (text tag behind : List Char) :
    let rest := text ++ '<' :: (tag ++ '>' :: behind)
    let opening := byteLength text
    let closing := byteLength ('<' :: tag)
    slice? rest 0 opening = some text ∧
      slice? rest opening (byteLength rest) = some ('<' :: (tag ++ '>' :: behind)) ∧
      slice? rest (opening + 1) (opening + closing) = some tag ∧
      slice? rest (opening + closing + 1) (byteLength rest) = some behind := by
  intro rest opening closing
  have open_ : byteLength ['<'] = 1 := by decide
  have close : byteLength ['>'] = 1 := by decide
  have first : opening + 1 = byteLength (text ++ ['<']) := by
    rw [byteLength_append, open_]
  have last : opening + closing = byteLength (text ++ ['<'] ++ tag) := by
    rw [List.append_assoc, byteLength_append]
    rfl
  have after : opening + closing + 1 = byteLength (text ++ ['<'] ++ tag ++ ['>']) := by
    rw [byteLength_append _ ['>'], close, last]
  have whole : rest = text ++ ['<'] ++ tag ++ ('>' :: behind) := by
    simp only [rest, List.append_assoc, List.cons_append, List.nil_append]
  have whole' : rest = text ++ ['<'] ++ tag ++ ['>'] ++ behind := by
    rw [whole]
    simp only [List.append_assoc, List.cons_append, List.nil_append]
  refine ⟨slice?_front text _, slice?_back text _, ?_, ?_⟩
  · rw [first, last, whole]
    exact slice?_append _ tag _
  · rw [after, whole']
    exact slice?_back _ behind

theorem stripSlices?_eq (rest : List Char) : stripSlices? rest = some (stripTags rest) := by
  induction size : rest.length using Nat.strongRecOn generalizing rest with
  | _ n ih =>
    rw [stripSlices?]
    cases opened : cutAt? (· == '<') rest with
    | none =>
      have plain := cutAt?_eq_none opened
      have same := stripTags_append plain []
      rw [List.append_nil, stripTags, List.append_nil] at same
      simp only [findAt?, opened, Option.map_none, same]
    | some found =>
      obtain ⟨text, tagged⟩ := found
      obtain ⟨c, whole, angle, plain⟩ := cutAt?_eq_some opened
      obtain rfl : c = '<' := by simpa using angle
      have opening : findAt? (· == '<') rest = some (byteLength text) := by
        rw [findAt?, opened]
        rfl
      cases closed : cutAt? (· == '>') tagged with
      | none =>
        have open_ : findAt? (· == '>') ('<' :: tagged) = none := by
          rw [findAt?, cutAt?, if_neg (by decide), closed]
          rfl
        have front : slice? rest 0 (byteLength text) = some text := whole ▸ slice?_front text _
        have back : slice? rest (byteLength text) (byteLength rest) = some ('<' :: tagged) :=
          whole ▸ slice?_back text _
        have stripped : stripTags rest = text ++ '<' :: tagged := by
          rw [whole, stripTags_append plain, stripTags_unclosed closed]
        simp only [opening, front, back, open_, stripped]
      | some found =>
        obtain ⟨tag, behind⟩ := found
        obtain ⟨d, inner, close, bare⟩ := cutAt?_eq_some closed
        obtain rfl : d = '>' := by simpa using close
        have closing : findAt? (· == '>') ('<' :: (tag ++ '>' :: behind)) =
            some (byteLength ('<' :: tag)) := by
          rw [findAt?, ← List.cons_append, cutAt?_append_cons _ rfl]
          · rfl
          · intro e he
            rcases List.mem_cons.mp he with rfl | later
            · decide
            · exact bare e later
        have shorter : behind.length < n := by
          rw [← size, whole, inner]
          simp only [List.length_append, List.length_cons]
          omega
        have stripped : stripTags rest = text ++ reference tag ++ stripTags behind := by
          rw [whole, stripTags_append plain, stripTags_closed closed, List.append_assoc]
        obtain ⟨front, back, between, after⟩ := slices_of_tag text tag behind
        rw [← inner, ← whole] at front back between after
        rw [inner] at back
        simp only [opening, front, back, closing, between]
        split
        · rename_i part more found later
          cases found
          cases later.symm.trans after
          rw [referenceSlice?_eq, ih _ shorter behind rfl, stripped]
        · rename_i none
          exact absurd after (none tag behind rfl)

/-- `ofDocs` by offsets. -/
def ofDocsSlice? (docs : List String) : Option (Option String) :=
  if docs.isEmpty then some none
  else do
    let some body ← bodySlice? (joinWith ['\n'] (docs.map (·.toList))) | some none
    let text ← stripSlices? body
    let kept := tidyLines (decodeEntities text)
    some (if kept.isEmpty then none else some (String.ofList (joinWith ['\n'] kept)))

/-- Every offset at which a summary is cut is a boundary of the text that is cut. -/
theorem ofDocsSlice?_eq (docs : List String) : ofDocsSlice? docs = some (ofDocs docs) := by
  unfold ofDocsSlice? ofDocs
  split
  · rfl
  · rw [bodySlice?_eq]
    cases body? (joinWith ['\n'] (docs.map (·.toList))) with
    | none => rfl
    | some body => simp only [Option.bind_eq_bind, Option.bind_some, stripSlices?_eq]

end Summary
end Ambient
