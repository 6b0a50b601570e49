import Ambient.Proofs.Insertion.Untranslated

/-!
# Members without a trace

A source is read to the same file when a member that adds nothing is put into the body of a class,
and when the block of such a member is exchanged for another one.
-/
namespace Ambient.Host
open Lexeme Text Token
variable {source source' owner : String} {front back back' : List Item} {stage : Stage}
  {file : File} {path : Path}

/-- A file is read alike if its source is read alike from a place on. -/
theorem parse_of_gate {O : Overlap} {p : Pairing} (carries : p.Carries O.spelling)
    (first : O.source = source.toList) (second : O.source' = source'.toList)
    (shared : ∀ i ∈ front, O.shared i) (whole : Item.ofText source = front ++ back)
    (reaches : Reaches source.toList ⟨.parts "" false, Item.ofText source⟩ ⟨stage, back⟩)
    (whole' : Item.ofText source' = front ++ back') (gate : Gate O p stage back back')
    (h : File.parse path source = .ok file) : File.parse path source' = .ok file := by
  rw [← first] at reaches
  obtain ⟨taken, split, opened⟩ := opened_of_reaches carries reaches
  obtain rfl : front = taken := List.append_cancel_right (whole.symm.trans split)
  have mirrors := (opened shared back' gate).mirrors
  rw [File.parse_eq] at h ⊢
  obtain ⟨parts, read, rfl⟩ := map_eq_ok h
  obtain ⟨rest', -, read'⟩ := mirrors parts.value parts.rest ⟨parts.short, first ▸ read⟩
  rw [second, ← whole'] at read'
  obtain ⟨_, read'⟩ := read'
  rw [read']
  rfl

/-- What stands in front of the place is cut out of both sources alike. -/
theorem slice_front {before x y : List Char} {i j : Item}
    (whole : Item.ofLexemes [] (scan true 0 (before ++ x)) = front ++ back)
    (inside : ∀ i ∈ front, i.stop ≤ byteLength before) (hi : i ∈ front) (hj : j ∈ front) :
    slice (before ++ x) i.start j.stop = slice (before ++ y) i.start j.stop := by
  have ends : ∀ i ∈ front, ∃ u v, u <+: before ∧ v <+: before ∧ i.start = byteLength u ∧
      i.stop = byteLength v := by
    intro i hi
    obtain ⟨u, a, w, v, _, same, starts, stops, -⟩ :=
      exists_of_mem_scan (whole ▸ List.mem_append_left back hi)
    rw [Nat.zero_add] at starts stops
    obtain ⟨r, split⟩ := exists_append_of_byteLength_le same.symm (stops ▸ inside i hi)
    exact ⟨u, u ++ a :: w, ⟨a :: w ++ r, by rw [split, List.append_assoc]⟩,
      ⟨r, split.symm⟩, starts, stops⟩
  obtain ⟨u, _, first, -, starts, -⟩ := ends i hi
  obtain ⟨_, v, -, second, -, stops⟩ := ends j hj
  rw [starts, stops]
  exact slice_prefix x y first second

/-- Two sources that begin with the same text, of which they share the items `front`. -/
def Overlap.ofFront (before x y : List Char) (front back : List Item)
    (whole : Item.ofLexemes [] (scan true 0 (before ++ x)) = front ++ back)
    (inside : ∀ i ∈ front, i.stop ≤ byteLength before) : Overlap :=
  ⟨before ++ x, before ++ y, (· ∈ front), slice_front whole inside⟩

/-- The items behind the place, in a text that goes on behind `u` with `after`. -/
theorem items_behind (u after : List Char) (n : Nat) (h : n = byteLength u) :
    Item.ofLexemes [] (scan false n after) =
      (Item.ofLexemes [] (scan false 0 after)).map (Item.shift (byteLength u)) := by
  subst h
  exact @ofLexemes_shift (byteLength u) false 0 after []

theorem carries_behind {O : Overlap} {u v after : List Char} (first : O.source = u ++ after)
    (second : O.source' = v ++ after) (ts : List Item) :
    (Pairing.shifted (byteLength u) (byteLength v) ts).Carries O.spelling := by
  refine Pairing.carries_shifted fun i _ j _ => ?_
  rw [first, second, slice_behind, slice_behind]

/-- Items in front of a place and behind it, where one of them ends there. -/
theorem parts_of_last {place : Nat} {last : Item} (ordered : Item.Ordered 0 (front ++ back))
    (tail : front.getLast? = some last) (ends : last.stop = place) :
    Item.Parts place front back := by
  obtain ⟨more, rfl⟩ := List.getLast?_eq_some_iff.mp tail
  obtain ⟨inner, outer, across⟩ := List.pairwise_append.mp ordered.2
  refine ⟨fun i hi => ?_, fun i hi => ?_, .inl ⟨last, by simp, ends⟩⟩
  · rcases List.mem_append.mp hi with hi | hi
    · have := (List.pairwise_append.mp inner).2.2 i hi last (by simp)
      have := (ordered.1 last (by simp)).2
      omega
    · obtain rfl := List.mem_singleton.mp hi
      exact Nat.le_of_eq ends
  · exact ends ▸ across last (by simp) i hi

/-- Items in front of a place and behind it, where one of them starts there. -/
theorem parts_of_first {place : Nat} {first : Item} (ordered : Item.Ordered 0 (front ++ back))
    (head : back.head? = some first) (starts : first.start = place) :
    Item.Parts place front back := by
  obtain ⟨more, rfl⟩ := List.head?_eq_some_iff.mp head
  obtain ⟨-, outer, across⟩ := List.pairwise_append.mp ordered.2
  refine ⟨fun i hi => ?_, fun i hi => ?_, .inr ⟨first, by simp, starts⟩⟩
  · exact starts ▸ across i hi first (by simp)
  · rcases List.mem_cons.mp hi with rfl | hi
    · exact Nat.le_of_eq starts.symm
    · have := List.rel_of_pairwise_cons outer hi
      have := (ordered.1 first (by simp)).2
      omega

theorem scan_space (fresh : Bool) (start : Nat) (r : List Char) :
    scan fresh start (' ' :: r) = scan fresh (start + 1) r := by
  rw [scan, if_neg (by decide), if_pos (by decide)]
  rfl

/-- Between `before` and `after` a token ends and the reader of the source stands in the body
of the class `owner`: at its opening brace or behind one of its members. What closes the body
is still to come. -/
def StandsIn (owner before after : String) : Prop :=
  ∃ front back last stage, Item.ofText (before ++ after) = front ++ back ∧ after ≠ "" ∧
    front.getLast? = some last ∧ last.stop = byteLength before.toList ∧ stage.In owner ∧
    Reaches (before ++ after).toList ⟨.parts "" false, Item.ofText (before ++ after)⟩
      ⟨stage, back⟩

theorem parse_insert {before after d : String} (place : StandsIn owner before after)
    (stands : Stands d) (untranslated : Untranslated owner ((Item.ofText d).map (·.token)))
    (h : File.parse path (before ++ after) = .ok file) :
    File.parse path (before ++ " " ++ d ++ " " ++ after) = .ok file := by
  obtain ⟨front, back, last, stage, whole, more, tail, ends, inside, reaches⟩ := place
  have whole₁ : Item.ofLexemes [] (scan true 0 (before.toList ++ after.toList)) =
      front ++ back := by
    rw [← String.toList_append]
    exact whole
  have parts := parts_of_last (whole₁ ▸ Item.ordered_scan []) tail ends
  have size : byteLength before.toList = 0 + byteLength before.toList := (Nat.zero_add _).symm
  obtain ⟨fresh, docs, new, behind, sewn⟩ :=
    exists_sewn (fun none => more (String.toList_eq_nil_iff.mp none)) whole₁ (size ▸ parts)
  obtain ⟨rfl, rfl⟩ := new ⟨last, List.mem_of_getLast? tail, ends.trans size⟩
  -- The text between what stands in front of the place and what stands behind it, with the spaces.
  let between := before.toList ++ ' ' :: (d.toList ++ [' '])
  have spelled : (before ++ " " ++ d ++ " " ++ after).toList = between ++ after.toList := by
    simp [between]
  obtain ⟨taken, tokens, read⟩ :=
    stands.exists_items false (0 + byteLength before.toList + 1) [] (' ' :: after.toList)
  have whole₂ : Item.ofText (before ++ " " ++ d ++ " " ++ after) = front ++ (taken ++
      (Item.ofLexemes [] (scan false 0 after.toList)).map (Item.shift (byteLength between))) := by
    have passed : 0 + byteLength before.toList + 1 + byteLength d.toList + 1 =
        byteLength between := by
      have one : ' '.utf8Size = 1 := by decide
      simp only [between, byteLength_append, byteLength, one]
      omega
    rw [Item.ofText, Lexeme.ofText, spelled, List.append_assoc, List.cons_append, List.append_assoc,
      List.singleton_append, sewn ' ' _ (.inl rfl), scan_space, read, scan_space,
      items_behind between _ _ passed]
  let O :=
    Overlap.ofFront before.toList after.toList (' ' :: (d.toList ++ ' ' :: after.toList)) front back
    whole₁ parts.inside
  have second : O.source' = between ++ after.toList := by simp [O, Overlap.ofFront, between]
  rw [items_behind before.toList _ _ (Nat.zero_add _)] at behind
  have carries := carries_behind (O := O) rfl second (Item.ofLexemes [] (scan false 0 after.toList))
  have gate := gate_of_untranslated carries inside (.inl rfl) (tokens ▸ untranslated)
    (Pairing.at_shifted _ _ _)
  rw [List.nil_append, ← behind] at gate
  exact parse_of_gate carries (String.toList_append).symm (second.trans spelled.symm)
    (fun _ hi => hi) whole reaches whole₂ gate h

/-- A text in braces. -/
def block (b : String) : String := "\x7b" ++ b ++ "\x7d"

theorem toList_block (b : String) : (block b).toList = '\x7b' :: (b.toList ++ ['\x7d']) := by
  simp [block]

/-- In braces the text is a block, with all its braces balanced. -/
def IsBlock (b : String) : Prop :=
  Stands (block b) ∧ ∃ inside, Braced inside ∧
    (Item.ofText (block b)).map (·.token) = .mark .openBrace :: (inside ++ [.mark .closeBrace])

/-- Behind `before` a member that adds nothing comes to its block, and the reader of the source
stands in front of that member in the body of the class `owner`. -/
def ComesToBlock (owner before rest : String) : Prop :=
  ∃ front head back first stage, Item.ofText (before ++ rest) = front ++ (head ++ back) ∧
    back.head? = some first ∧ first.start = byteLength before.toList ∧
    IsFront owner (head.map (·.token)) ∧ stage.In owner ∧
    Reaches (before ++ rest).toList ⟨.parts "" false, Item.ofText (before ++ rest)⟩
      ⟨stage, head ++ back⟩

theorem parse_exchange {before b b' after : String}
    (place : ComesToBlock owner before (block b ++ after)) (old : IsBlock b) (new : IsBlock b')
    (h : File.parse path (before ++ (block b ++ after)) = .ok file) :
    File.parse path (before ++ (block b' ++ after)) = .ok file := by
  obtain ⟨front, head, back, first, stage, whole, begins, starts, named, inside, reaches⟩ :=
    place
  obtain ⟨stands, content, braced, tokens⟩ := old
  obtain ⟨stands', content', braced', tokens'⟩ := new
  have whole₁ : Item.ofLexemes []
      (scan true 0 (before.toList ++ ((block b).toList ++ after.toList))) =
      front ++ head ++ back := by
    rw [← String.toList_append, ← String.toList_append, List.append_assoc]
    exact whole
  have parts := parts_of_first (whole₁ ▸ Item.ordered_scan []) begins starts
  have size : byteLength before.toList = 0 + byteLength before.toList := (Nat.zero_add _).symm
  obtain ⟨fresh, docs, -, behind, sewn⟩ :=
    exists_sewn (by simp [toList_block]) whole₁ (size ▸ parts)
  obtain ⟨taken, spelled, read⟩ :=
    stands.exists_items fresh (0 + byteLength before.toList) docs after.toList
  obtain ⟨taken', spelled', read'⟩ :=
    stands'.exists_items fresh (0 + byteLength before.toList) docs after.toList
  rw [read, items_behind (before.toList ++ (block b).toList) _ _
    (by rw [byteLength_append, Nat.zero_add])] at behind
  rw [items_behind (before.toList ++ (block b').toList) _ _
    (by rw [byteLength_append, Nat.zero_add])]
    at read'
  have whole₂ : Item.ofText (before ++ (block b' ++ after)) = front ++ (head ++ taken' ++
      (Item.ofLexemes [] (scan false 0 after.toList)).map
        (Item.shift (byteLength (before.toList ++ (block b').toList)))) := by
    rw [Item.ofText, Lexeme.ofText, String.toList_append, String.toList_append]
    rw [toList_block, List.cons_append] at read' ⊢
    rw [sewn '\x7b' _ (.inr (.inl rfl)), read']
    simp only [List.append_assoc]
  let O := Overlap.ofFront before.toList _ ((block b').toList ++ after.toList)
    (front ++ head) back whole₁ parts.inside
  have carries :=
    carries_behind (O := O) (List.append_assoc _ _ _).symm (List.append_assoc _ _ _).symm
    (Item.ofLexemes [] (scan false 0 after.toList))
  have untranslated : ∀ {taken : List Item} {text : String} {content : List Token},
      Braced content → taken.map (·.token) = (Item.ofText text).map (·.token) →
      (Item.ofText text).map (·.token) = .mark .openBrace :: (content ++ [.mark .closeBrace]) →
        Untranslated owner ((head ++ taken).map (·.token)) := by
    intro taken text content braced spelled tokens
    rw [List.map_append, spelled, tokens]
    exact .mk named (.block braced)
  have gate := gate_of_untranslated carries inside (.inr (untranslated braced spelled tokens))
    (untranslated braced' spelled' tokens') (Pairing.at_shifted _ _ _)
  rw [List.append_assoc, ← behind] at gate
  exact parse_of_gate carries (by simp [O, Overlap.ofFront]) (by simp [O, Overlap.ofFront])
    (fun _ hi => List.mem_append_left head hi) whole reaches whole₂ gate h

/-- A member that adds nothing to its class leaves no trace in the file, and its block does not
count: in any body of any source that is read, a method, a constructor, a destructor, an operator,
an indexer, an event or a delegate is put behind a member or behind the opening brace, or its block
is exchanged for another one. -/
theorem untranslated_leaves_no_trace (path : Path) (owner : String) :
    (∀ before after d file, StandsIn owner before after → Stands d →
      Untranslated owner ((Item.ofText d).map (·.token)) →
        File.parse path (before ++ after) = .ok file →
          File.parse path (before ++ " " ++ d ++ " " ++ after) = .ok file) ∧
    (∀ before b b' after file, ComesToBlock owner before (block b ++ after) → IsBlock b →
      IsBlock b' → File.parse path (before ++ (block b ++ after)) = .ok file →
        File.parse path (before ++ (block b' ++ after)) = .ok file) :=
  ⟨fun _ _ _ _ place stands untranslated read => parse_insert place stands untranslated read,
    fun _ _ _ _ _ place old new read => parse_exchange place old new read⟩

/-- A method with neither modifiers nor parameters. -/
theorem isFront_method (owner type name : String) :
    IsFront owner [.ident type, .ident name, .mark .openParen, .mark .closeParen] :=
  @IsFront.mk owner [] _ (fun _ => nofun) nofun
    (.method (.named (.bare .nil) .nil) (by decide) (.group .parens (.inr (by decide)) .nil .nil))

/-- A method is put in front of a field, and its block is exchanged. -/
theorem method_leaves_no_trace : ∃ file : File,
    File.parse ⟨"P.cs"⟩ "class P \x7b public int A; \x7d" = .ok file ∧
      File.parse ⟨"P.cs"⟩ "class P \x7b void M() \x7b \x7d  public int A; \x7d" = .ok file ∧
      File.parse ⟨"P.cs"⟩ "class P \x7b void M() \x7b x; \x7d  public int A; \x7d" =
        .ok file := by
  have blank : IsBlock " " :=
    ⟨⟨_, _, by with_unfolding_all rfl, by with_unfolding_all rfl, rfl, rfl, .inr rfl⟩, [],
      .nil, by with_unfolding_all rfl⟩
  have filled : IsBlock " x; " :=
    ⟨⟨_, _, by with_unfolding_all rfl, by with_unfolding_all rfl, rfl, rfl, .inr rfl⟩,
      [.ident "x", .mark .semicolon], .other nofun nofun (.other nofun (by decide) .nil),
      by with_unfolding_all rfl⟩
  have method : Untranslated "P" ((Item.ofText "void M() \x7b \x7d").map (·.token)) := by
    have tokens : (Item.ofText "void M() \x7b \x7d").map (·.token) =
        [.ident "void", .ident "M", .mark .openParen, .mark .closeParen] ++
          (.mark .openBrace :: ([] ++ [.mark .closeBrace])) := by with_unfolding_all rfl
    rw [tokens]
    exact .mk (isFront_method "P" "void" "M") (.block .nil)
  have stands : Stands "void M() \x7b \x7d" :=
    ⟨_, _, by with_unfolding_all rfl, by with_unfolding_all rfl, rfl, rfl, .inr rfl⟩
  have place : StandsIn "P" "class P \x7b" " public int A; \x7d" := by
    have whole : Item.ofText ("class P \x7b" ++ " public int A; \x7d") =
        [⟨.keyword .classKw, [], 0, 5⟩, ⟨.ident "P", [], 6, 7⟩, ⟨.mark .openBrace, [], 8, 9⟩] ++
          [⟨.keyword .publicKw, [], 10, 16⟩, ⟨.ident "int", [], 17, 20⟩, ⟨.ident "A", [], 21, 22⟩,
            ⟨.mark .semicolon, [], 22, 23⟩, ⟨.mark .closeBrace, [], 24, 25⟩] := by
      with_unfolding_all rfl
    refine ⟨_, _, _, .members "P" "", whole, by decide, rfl, rfl, rfl, ?_⟩
    rw [whole]
    exact .single (goes_class _ rfl rfl rfl)
  have comes : ComesToBlock "P" "class P \x7b void M() " (block " " ++ "  public int A; \x7d") := by
    have whole : Item.ofText ("class P \x7b void M() " ++ (block " " ++ "  public int A; \x7d")) =
        [⟨.keyword .classKw, [], 0, 5⟩, ⟨.ident "P", [], 6, 7⟩, ⟨.mark .openBrace, [], 8, 9⟩] ++
          ([⟨.ident "void", [], 10, 14⟩, ⟨.ident "M", [], 15, 16⟩,
            ⟨.mark .openParen, [], 16, 17⟩, ⟨.mark .closeParen, [], 17, 18⟩] ++
          [⟨.mark .openBrace, [], 19, 20⟩, ⟨.mark .closeBrace, [], 21, 22⟩,
            ⟨.keyword .publicKw, [], 24, 30⟩, ⟨.ident "int", [], 31, 34⟩, ⟨.ident "A", [], 35, 36⟩,
            ⟨.mark .semicolon, [], 36, 37⟩, ⟨.mark .closeBrace, [], 38, 39⟩]) := by
      with_unfolding_all rfl
    refine ⟨_, _, _, _, .members "P" "", whole, rfl, rfl, isFront_method "P" "void" "M", rfl, ?_⟩
    rw [whole]
    exact .single (goes_class _ rfl rfl rfl)
  obtain ⟨insert, exchange⟩ := untranslated_leaves_no_trace ⟨"P.cs"⟩ "P"
  have read : File.parse ⟨"P.cs"⟩ ("class P \x7b" ++ " public int A; \x7d") =
      .ok ⟨⟨"P.cs"⟩, [],
        [⟨"P", "", .classKind, [], none, [⟨"A", "int", none, none, []⟩], [], []⟩], []⟩ := by
    with_unfolding_all rfl
  have inserted := insert _ _ _ _ place stands method read
  exact ⟨_, read, inserted, exchange _ _ _ _ _ comes blank filled inserted⟩

/-- A type may begin with `global::`, but not the name of the interface in front of the member that
implements it. -/
example : ∃ fault,
    File.parse ⟨"P.cs"⟩ "class P \x7b void global::App.I.M() \x7b \x7d public int A; \x7d" =
      .error fault :=
  ⟨_, by with_unfolding_all rfl⟩

/-- In front of a tuple `partial` is the name of a method. -/
example : ∃ fault,
    File.parse ⟨"P.cs"⟩ "class P \x7b public partial (int, int) M(); public int A; \x7d" =
      .error fault :=
  ⟨_, by with_unfolding_all rfl⟩

end Ambient.Host
