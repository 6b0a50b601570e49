import Ambient.Proofs.Source.Grammar

/-!
# The reader accepts the grammar

The reader goes on greedily. It still takes a phrase whole, wherever nothing behind the phrase could
carry it on, so a text is read as a type if and only if its tokens are a type of the grammar.
-/
namespace Ambient

/-- Documentation is no token. -/
def Piece.token? : Piece → Option Token
  | .token t => some t
  | .doc _ => none

/-- The tokens of a text, without its documentation. -/
def Lexeme.tokens (text : String) : List Token := (ofText text).filterMap (·.piece.token?)

theorem Item.map_token_ofLexemes (docs : List String) (ls : List Lexeme) :
    (Item.ofLexemes docs ls).map (·.token) = ls.filterMap (·.piece.token?) := by
  induction ls generalizing docs with
  | nil => rfl
  | cons l more ih =>
    obtain ⟨piece, start, stop⟩ := l
    cases piece with
    | doc line => exact ih (docs ++ [line])
    | token t => exact congrArg (t :: ·) (ih [])

namespace TypeSyntax
variable {taken rest ts us after : List Item} {core value : TypeSyntax}

theorem exists_parted {m : Mark} {first others : List Token}
    (spelled : taken.map (·.token) = first ++ .mark m :: others) :
    ∃ front t more, taken = front ++ t :: more ∧ front.map (·.token) = first ∧
      t.token = .mark m ∧ more.map (·.token) = others := by
  obtain ⟨front, behind, rfl, before, last⟩ := List.map_eq_append_iff.mp spelled
  obtain ⟨t, more, rfl, marked, listed⟩ := List.map_eq_cons_iff.mp last
  exact ⟨front, t, more, rfl, before, marked, listed⟩

theorem exists_enclosed {m m' : Mark} {inside : List Token}
    (spelled : taken.map (·.token) = .mark m :: (inside ++ [.mark m'])) :
    ∃ t front u, taken = t :: (front ++ [u]) ∧ t.token = .mark m ∧
      front.map (·.token) = inside ∧ u.token = .mark m' := by
  obtain ⟨t, _, rfl, opens, behind⟩ := List.map_eq_cons_iff.mp spelled
  obtain ⟨front, u, _, rfl, listed, closes, none⟩ := exists_parted behind
  cases List.map_eq_nil_iff.mp none
  exact ⟨t, front, u, rfl, opens, listed, closes⟩

theorem single_of_admitted {suffixes : List Suffix}
    (h : Suffix.Admitted (Suffix.last core ++ .question :: suffixes)) :
    core.isNullable = false := by
  refine eq_false_of_ne_true fun nullable => ?_
  rw [Suffix.last, if_pos nullable] at h
  simp [Suffix.Admitted] at h

theorem exists_readSuffixes {suffixes : List Suffix} (ends : EndsType rest) :
    ∀ (taken : List Item) (core : TypeSyntax),
      taken.map (·.token) = suffixes.flatMap Suffix.tokens →
      Suffix.Admitted (Suffix.last core ++ suffixes) →
      ∃ value, Passes (readSuffixes core (taken ++ rest)) value rest := by
  induction suffixes with
  | nil =>
    intro taken core spelled _
    rw [List.map_eq_nil_iff.mp spelled]
    exact ⟨core, ends.passes_readSuffixes⟩
  | cons suffix others ih =>
    intro taken core spelled admitted
    rw [List.flatMap_cons] at spelled
    cases suffix with
    | question =>
      obtain ⟨t, more, rfl, question, later⟩ := List.map_eq_cons_iff.mp spelled
      have single := single_of_admitted admitted
      obtain ⟨value, suffixes⟩ :=
        ih more (nullable core) later ((Suffix.admitted_question single).mp admitted)
      exact ⟨value, passes_readSuffixes_question question single suffixes⟩
    | star =>
      obtain ⟨t, more, rfl, star, later⟩ := List.map_eq_cons_iff.mp spelled
      obtain ⟨value, suffixes⟩ := ih more core later (Suffix.admitted_star.mp admitted)
      exact ⟨value, passes_readSuffixes_star star suffixes⟩
    | rank count =>
      rw [Suffix.tokens, List.cons_append, List.append_assoc] at spelled
      obtain ⟨t, inside, rfl, opens, later⟩ := List.map_eq_cons_iff.mp spelled
      obtain ⟨commas, u, more, rfl, listed, closes, spelled⟩ := exists_parted later
      have all : ∀ i ∈ commas, i.token = .mark .comma := by
        intro i hi
        exact List.eq_of_mem_replicate (listed ▸ List.mem_map_of_mem hi)
      obtain ⟨value, suffixes⟩ :=
        ih more (array core) spelled (Suffix.admitted_rank.mp admitted)
      refine ⟨value, ?_⟩
      rw [List.cons_append, List.append_assoc]
      exact passes_readSuffixes_commas opens all closes suffixes

/-- Every suffix ends a name. -/
theorem endsName_suffixes {suffixes : List Suffix} (ends : EndsType rest)
    (spelled : taken.map (·.token) = suffixes.flatMap Suffix.tokens) :
    EndsName (taken ++ rest) := by
  cases suffixes with
  | nil =>
    rw [List.map_eq_nil_iff.mp spelled]
    exact ends.1
  | cons suffix others =>
    cases suffix <;>
    · obtain ⟨t, more, rfl, marked, -⟩ := List.map_eq_cons_iff.mp spelled
      exact endsName_mark _ marked (by decide)

/-- These are further segments of a name with `rest` behind them. -/
structure ReadsSegments (taken rest : List Item) : Prop where
  apart : Item.isMark .openAngle (taken ++ rest) = false
  goes {ts : List Item} {args args' : List TypeSyntax} (name : String) :
    Passes (readArguments? args ts) args' (taken ++ rest) →
    ∃ core, Passes (readSegments name args ts) core rest
  /-- Behind a first double colon a name may begin anew. -/
  anew {t : Item} {behind : List Item} : taken = t :: behind → t.token = .mark .doubleColon →
    ∃ i us name core, behind = i :: us ∧ nameOf? i.token = some name ∧
      Passes (readSegments name [] (us ++ rest)) core rest

/-- The reader takes the items as such a phrase, if `rest` ends it. -/
def Reads : Phrase → List Item → List Item → Prop
  | .type, taken, rest => EndsType rest → ∃ ty, Takes (read (taken ++ rest)) ty rest
  | .core, taken, rest => EndsName rest → ∃ core, core.isNullable = false ∧
    ∀ {ty after}, Passes (readSuffixes core rest) ty after →
      Takes (read (taken ++ rest)) ty after
  | .elements, taken, rest => ∀ {t after}, rest = t :: after → t.token = .mark .closeParen →
    ∃ tys, Takes (readTuple (taken ++ rest)) tys after
  | .element, taken, rest => EndsType rest → dropElementName rest = rest →
    ∃ ty us, Takes (read (taken ++ rest)) ty us ∧ dropElementName us = rest
  | .name, taken, rest => EndsName rest → ∃ core, Takes (readNamed (taken ++ rest)) core rest
  | .segments, taken, rest => EndsName rest → ReadsSegments taken rest
  | .arguments?, taken, rest => Item.isMark .openAngle rest = false →
    ∀ args, ∃ args', Passes (readArguments? args (taken ++ rest)) args' rest
  | .types, taken, rest => ∀ {t after}, rest = t :: after → t.token = .mark .closeAngle →
    ∃ tys, Takes (readArguments (taken ++ rest)) tys after

theorem takes_read_of_name (name : Takes (readNamed ts) core us)
    (suffixes : Passes (readSuffixes core us) value after) : Takes (read ts) value after := by
  obtain ⟨shorter, read⟩ := name
  obtain ⟨t, r, rfl, other⟩ := exists_of_readNamed read
  exact takes_read_named other ⟨shorter, read⟩ suffixes

namespace ReadsSegments

theorem nil (ends : EndsName rest) : ReadsSegments [] rest where
  apart := ends _ (by decide)
  goes _ arguments :=
    ⟨_, passes_readSegments_end arguments (ends _ (by decide)) (ends _ (by decide))⟩
  anew := nofun

variable {i : Item} {front more : List Item}

theorem dot {segment : String} (marked : t.token = .mark .dot) (named : i.token = .ident segment)
    (args : ∀ args, ∃ args',
      Passes (readArguments? args (front ++ (more ++ rest))) args' (more ++ rest))
    (segments : ReadsSegments more rest) : ReadsSegments (t :: i :: (front ++ more)) rest where
  apart := isMark_of_mark marked (by decide)
  goes name arguments := by
    obtain ⟨args', read⟩ := args []
    obtain ⟨core, again⟩ := segments.goes (name ++ "." ++ segment) read
    rw [← List.append_assoc] at again
    exact ⟨core, passes_readSegments_dotted arguments marked named again⟩
  anew := by
    rintro u behind same double
    cases same
    cases marked.symm.trans double

theorem double {segment : String} (marked : t.token = .mark .doubleColon)
    (named : nameOf? i.token = some segment)
    (args : ∀ args, ∃ args',
      Passes (readArguments? args (front ++ (more ++ rest))) args' (more ++ rest))
    (segments : ReadsSegments more rest) : ReadsSegments (t :: i :: (front ++ more)) rest where
  apart := isMark_of_mark marked (by decide)
  goes {ts as as'} name arguments := by
    obtain ⟨args', read⟩ := args as'
    obtain ⟨core, again⟩ := segments.goes (name ++ "." ++ segment) read
    rw [← List.append_assoc] at again
    exact ⟨core, passes_readSegments_double arguments marked named again⟩
  anew := by
    rintro u behind same _
    cases same
    obtain ⟨args', read⟩ := args []
    obtain ⟨core, again⟩ := segments.goes segment read
    rw [← List.append_assoc] at again
    exact ⟨i, front ++ more, segment, core, rfl, named, again⟩

end ReadsSegments

/-- A qualifier that is dropped is a first segment without arguments. -/
theorem exists_readNamed {i : Item} {name : String} {front more : List Item}
    (named : nameOf? i.token = some name)
    (args : ∃ args, Passes (readArguments? [] (front ++ (more ++ rest))) args (more ++ rest))
    (bare : Item.isMark .doubleColon (front ++ (more ++ rest)) = true → front = [])
    (ends : EndsName rest) (segments : ReadsSegments more rest) :
    ∃ core, Takes (readNamed (i :: (front ++ (more ++ rest)))) core rest := by
  by_cases global : i.token = .ident "global" ∧
      Item.isMark .doubleColon (front ++ (more ++ rest)) = true
  · -- `more` begins with the double colon that is dropped, so the name begins behind it
    obtain ⟨global, double⟩ := global
    cases bare double
    obtain ⟨t, whole, marked⟩ := exists_of_isMark double
    cases more with
    | nil => cases double.symm.trans (ends .doubleColon (by decide))
    | cons u behind =>
      obtain ⟨rfl, -⟩ := List.cons.inj whole
      obtain ⟨j, us, segment, core, rfl, named, read⟩ := segments.anew rfl marked
      exact ⟨core, takes_readNamed (dropGlobal_drop global marked) named read⟩
  · obtain ⟨args, read⟩ := args
    obtain ⟨core, again⟩ := segments.goes name read
    exact ⟨core, takes_readNamed (dropGlobal_keep global) named again⟩

/-- What stands behind the name of an element does not carry its type on. -/
theorem reads_named {i : Item} {name : String} (type : ∀ rest, Reads .type taken rest)
    (named : i.token = .ident name) : Reads .element (taken ++ [i]) rest := by
  intro _ _
  obtain ⟨ty, read⟩ := type (i :: rest) (endsType_ident named)
  refine ⟨ty, i :: rest, ?_, ?_⟩
  · rwa [List.append_assoc]
  · simp [dropElementName, Item.token?, named]

theorem bare_of_arguments {args : List Token} (h : Derives .arguments? args)
    {front : List Item} (spelled : front.map (·.token) = args)
    (double : Item.isMark .doubleColon (front ++ ts) = true) : front = [] := by
  cases h with
  | noArguments => exact List.map_eq_nil_iff.mp spelled
  | arguments types =>
    obtain ⟨t, more, rfl, opens, -⟩ := List.map_eq_cons_iff.mp spelled
    cases double.symm.trans (isMark_of_mark opens (by decide))

/-- Induction on how the tokens are derived. A form is read because its parts are, one
behind the other. -/
theorem reads {p : Phrase} {tokens : List Token} (derives : Derives p tokens) :
    ∀ taken : List Item, taken.map (·.token) = tokens → ∀ rest, Reads p taken rest := by
  induction derives with
  | type _ admitted core =>
    -- whatever the suffixes are, they end a name: so the core is read up to them
    intro taken spelled rest ends
    obtain ⟨front, behind, rfl, first, last⟩ := List.map_eq_append_iff.mp spelled
    obtain ⟨core, single, whole⟩ :=
      core front first (behind ++ rest) (endsName_suffixes ends last)
    obtain ⟨ty, suffixes⟩ :=
      exists_readSuffixes ends behind core last (by rwa [Suffix.last_of_single single])
    rw [List.append_assoc]
    exact ⟨ty, whole suffixes⟩
  | tuple _ elements =>
    intro taken spelled rest _
    obtain ⟨t, front, u, rfl, opens, listed, closes⟩ := exists_enclosed spelled
    obtain ⟨tys, read⟩ := elements front listed (u :: rest) rfl closes
    refine ⟨tuple tys, rfl, fun suffixes => ?_⟩
    rw [List.cons_append, List.append_assoc]
    exact takes_read_tuple opens read suffixes
  | plain _ name =>
    intro taken spelled rest ends
    obtain ⟨core, shorter, read⟩ := name taken spelled rest ends
    exact ⟨core, single_of_readNamed read, takes_read_of_name ⟨shorter, read⟩⟩
  | lastElement _ element =>
    intro taken spelled rest t after same closes
    subst same
    obtain ⟨ty, us, read, dropped⟩ := element taken spelled (t :: after)
      (endsType_mark after closes (by decide)) (dropElementName_mark closes)
    exact ⟨[ty], ListForm.elements_readBy.takes_last read dropped closes⟩
  | moreElements _ _ element others =>
    intro taken spelled rest u after same closes
    obtain ⟨front, t, more, rfl, first, comma, listed⟩ := exists_parted spelled
    obtain ⟨ty, us, read, dropped⟩ := element front first (t :: (more ++ rest))
      (endsType_mark _ comma (by decide)) (dropElementName_mark comma)
    obtain ⟨tys, again⟩ := others more listed rest same closes
    rw [List.append_assoc]
    exact ⟨ty :: tys, ListForm.elements_readBy.takes_more read dropped comma again⟩
  | unnamed _ type =>
    intro taken spelled rest ends dropped
    obtain ⟨ty, read⟩ := type taken spelled rest ends
    exact ⟨ty, rest, read, dropped⟩
  | named name _ type =>
    intro taken spelled rest
    obtain ⟨front, last, rfl, first, label⟩ := List.map_eq_append_iff.mp spelled
    obtain ⟨i, _, rfl, named, none⟩ := List.map_eq_cons_iff.mp label
    cases List.map_eq_nil_iff.mp none
    exact reads_named (type front first) named
  | name id derives _ args segments =>
    intro taken spelled rest ends
    obtain ⟨i, _, rfl, rfl, others⟩ := List.map_eq_cons_iff.mp spelled
    obtain ⟨front, more, rfl, first, last⟩ := List.map_eq_append_iff.mp others
    obtain ⟨name, named⟩ := Token.isId_iff.mp id
    have segments := segments more last rest ends
    rw [List.cons_append, List.append_assoc]
    exact exists_readNamed named (args front first (more ++ rest) segments.apart [])
      (bare_of_arguments derives first) ends segments
  | lastSegment =>
    intro taken spelled rest ends
    cases List.map_eq_nil_iff.mp spelled
    exact .nil ends
  | dot name _ _ args segments =>
    intro taken spelled rest ends
    obtain ⟨t, _, rfl, marked, later⟩ := List.map_eq_cons_iff.mp spelled
    obtain ⟨i, _, rfl, named, others⟩ := List.map_eq_cons_iff.mp later
    obtain ⟨front, more, rfl, first, last⟩ := List.map_eq_append_iff.mp others
    have segments := segments more last rest ends
    exact .dot marked named (args front first (more ++ rest) segments.apart) segments
  | double id _ _ args segments =>
    intro taken spelled rest ends
    obtain ⟨t, _, rfl, marked, later⟩ := List.map_eq_cons_iff.mp spelled
    obtain ⟨i, _, rfl, rfl, others⟩ := List.map_eq_cons_iff.mp later
    obtain ⟨front, more, rfl, first, last⟩ := List.map_eq_append_iff.mp others
    obtain ⟨name, named⟩ := Token.isId_iff.mp id
    have segments := segments more last rest ends
    exact .double marked named (args front first (more ++ rest) segments.apart) segments
  | noArguments =>
    intro taken spelled rest angle args
    cases List.map_eq_nil_iff.mp spelled
    exact ⟨args, passes_readArguments?_keep angle⟩
  | arguments _ types =>
    intro taken spelled rest _ args
    obtain ⟨t, front, u, rfl, opens, listed, closes⟩ := exists_enclosed spelled
    obtain ⟨tys, read⟩ := types front listed (u :: rest) rfl closes
    refine ⟨tys, ?_⟩
    rw [List.cons_append, List.append_assoc]
    exact passes_readArguments?_open opens read
  | lastType _ type =>
    intro taken spelled rest t after same closes
    subst same
    obtain ⟨ty, read⟩ :=
      type taken spelled (t :: after) (endsType_mark after closes (by decide))
    exact ⟨[ty], ListForm.arguments_readBy.takes_last read rfl closes⟩
  | moreTypes _ _ type others =>
    intro taken spelled rest u after same closes
    obtain ⟨front, t, more, rfl, first, comma, listed⟩ := exists_parted spelled
    obtain ⟨ty, read⟩ :=
      type front first (t :: (more ++ rest)) (endsType_mark _ comma (by decide))
    obtain ⟨tys, again⟩ := others more listed rest same closes
    rw [List.append_assoc]
    exact ⟨ty :: tys, ListForm.arguments_readBy.takes_more read rfl comma again⟩

theorem endsType_nil : EndsType [] := ⟨fun _ _ => rfl, fun _ _ => rfl⟩

theorem exists_read_iff {items : List Item} :
    (∃ ty, Takes (read items) ty []) ↔ Derives .type (items.map (·.token)) := by
  constructor
  · rintro ⟨ty, shorter, read⟩
    obtain ⟨taken, whole, derives⟩ := consumes_read read
    have whole : items = taken := whole.trans (List.append_nil taken)
    rwa [whole]
  · intro derives
    obtain ⟨ty, read⟩ := reads derives items rfl [] endsType_nil
    rw [List.append_nil] at read
    exact ⟨ty, read⟩

theorem parse_eq_ok_iff {text : String} {ty : TypeSyntax} :
    parse text = .ok ty ↔ Takes (read (Item.ofText text)) ty [] := by
  rw [takes_iff, parse]
  cases read (Item.ofText text) with
  | error e => exact ⟨nofun, nofun⟩
  | ok s =>
    obtain ⟨value, left, shorter⟩ := s
    cases left <;> simp [outcome, faultAt, Except.map]

/-- A text is read as a type if and only if its tokens are a type of the grammar. -/
theorem exists_parse_iff_derives (text : String) :
    (∃ ty, parse text = .ok ty) ↔ Derives .type (Lexeme.tokens text) := by
  have tokens : (Item.ofText text).map (·.token) = Lexeme.tokens text :=
    Item.map_token_ofLexemes [] (Lexeme.ofText text)
  rw [← tokens, ← exists_read_iff]
  simp only [parse_eq_ok_iff]

end TypeSyntax
end Ambient
