import Ambient.Proofs.Source.Steps
import Ambient.TypeSyntax.Reader

/-!
# Steps of reading a type

The reader takes the core of a type, then the suffixes one after another; a name goes on segment by
segment, and a list type by type. So each rule says how the reading goes on behind what was taken.
-/
namespace Ambient.TypeSyntax

theorem not_token {m : Mark} {t : Item} {r : List Item} (h : Item.isMark m (t :: r) = false) :
    t.token ≠ .mark m := by
  intro same
  simp [Item.isMark, Item.token?, same] at h

theorem exists_of_isMark {m : Mark} {ts : List Item} (h : Item.isMark m ts = true) :
    ∃ t, ts = t :: ts.tail ∧ t.token = .mark m := by
  cases ts with
  | nil => cases h
  | cons t r => exact ⟨t, rfl, by simpa [Item.isMark, Item.token?] using h⟩

theorem exists_of_dotted? {ts : List Item} {s : Step String ts} (h : dotted? ts = some s) :
    ∃ t u, ts = t :: u :: s.rest ∧ t.token = .mark .dot ∧ u.token = .ident s.value := by
  unfold dotted? at h
  split at h
  · rename_i t u r
    split at h
    · rename_i dot named
      cases h
      exact ⟨t, u, rfl, dot, named⟩
    · cases h
  · cases h

theorem dotted?_eq_none {ts : List Item} (h : Item.isMark .dot ts = false) : dotted? ts = none := by
  match ts with
  | [] => rfl
  | [_] => rfl
  | t :: u :: r =>
    rw [dotted?]
    split
    · exact absurd ‹_› (not_token h)
    · rfl

theorem isMark_of_mark {t : Item} {m n : Mark} {rest : List Item} (marked : t.token = .mark m)
    (other : m ≠ n) : Item.isMark n (t :: rest) = false := by
  simpa [Item.isMark, Item.token?, marked] using other

section Steps
variable {ts us rest after : List Item} {value core : TypeSyntax} {args : List TypeSyntax}
  {name : String} {t : Item}

theorem passes_readSuffixes_keep (question : Item.isMark .question ts = false)
    (star : Item.isMark .star ts = false) (bracket : Item.isMark .openBracket ts = false) :
    Passes (readSuffixes core ts) core ts := by
  refine ⟨short_self ts, ?_⟩
  cases ts with
  | nil =>
    rw [readSuffixes]
    rfl
  | cons t r =>
    rw [readSuffixes]
    split
    · exact absurd ‹_› (not_token question)
    · exact absurd ‹_› (not_token star)
    · exact absurd ‹_› (not_token bracket)
    · rfl

theorem passes_readSuffixes_question (question : t.token = .mark .question)
    (single : core.isNullable = false)
    (more : Passes (readSuffixes (nullable core) ts) value after) :
    Passes (readSuffixes core (t :: ts)) value after := by
  obtain ⟨_, again⟩ := more
  rw [readSuffixes, question]
  simp only [single, Bool.false_eq_true, if_false, again]
  exact ⟨_, rfl⟩

theorem passes_readSuffixes_star (star : t.token = .mark .star)
    (more : Passes (readSuffixes core ts) value after) :
    Passes (readSuffixes core (t :: ts)) value after := by
  obtain ⟨_, again⟩ := more
  rw [readSuffixes, star]
  simp only [again]
  exact ⟨_, rfl⟩

theorem dropCommas_append {commas : List Item} (all : ∀ i ∈ commas, i.token = .mark .comma)
    (ends : Item.isMark .comma rest = false) : dropCommas (commas ++ rest) = rest := by
  rw [dropCommas, List.dropWhile_append_of_pos fun i hi => by simp [all i hi]]
  cases rest with
  | nil => rfl
  | cons t r =>
    refine List.dropWhile_cons_of_neg ?_
    simpa [Item.isMark, Item.token?] using ends

theorem passes_readSuffixes_commas {u : Item} {commas : List Item}
    (opens : t.token = .mark .openBracket)
    (all : ∀ i ∈ commas, i.token = .mark .comma) (closes : u.token = .mark .closeBracket)
    (more : Passes (readSuffixes (array core) ts) value after) :
    Passes (readSuffixes core (t :: (commas ++ u :: ts))) value after := by
  obtain ⟨_, again⟩ := more
  have here :
      (Item.isMark .closeBracket (commas ++ u :: ts) || Item.isMark .comma (commas ++ u :: ts)) =
      true := by
    cases commas with
    | nil => simp [Item.isMark, Item.token?, closes]
    | cons i r => simp [Item.isMark, Item.token?, all i List.mem_cons_self]
  have plain : dropCommas (commas ++ u :: ts) = u :: ts :=
    dropCommas_append all (by simp [Item.isMark, Item.token?, closes])
  obtain ⟨_, closed⟩ : Takes (readMark .closeBracket (dropCommas (commas ++ u :: ts))) () ts :=
    takes_readMark plain closes
  rw [readSuffixes, opens]
  simp only [here, if_true, closed, again]
  exact ⟨_, rfl⟩

theorem passes_readSuffixes_rank {u : Item} (opens : t.token = .mark .openBracket)
    (closes : u.token = .mark .closeBracket)
    (more : Passes (readSuffixes (array core) ts) value after) :
    Passes (readSuffixes core (t :: u :: ts)) value after :=
  @passes_readSuffixes_commas _ _ _ _ _ _ [] opens nofun closes more

theorem passes_readArguments?_keep (h : Item.isMark .openAngle ts = false) :
    Passes (readArguments? args ts) args ts := by
  refine ⟨short_self ts, ?_⟩
  cases ts with
  | nil =>
    rw [readArguments?]
    rfl
  | cons t r =>
    rw [readArguments?, if_neg (not_token h)]
    rfl

theorem passes_readArguments?_open {args' : List TypeSyntax} (opens : t.token = .mark .openAngle)
    (h : Takes (readArguments ts) args' rest) :
    Passes (readArguments? args (t :: ts)) args' rest := by
  obtain ⟨_, read⟩ := h
  rw [readArguments?, if_pos opens, read]
  exact ⟨_, rfl⟩

theorem passes_readSegments_end {args' : List TypeSyntax}
    (arguments : Passes (readArguments? args ts) args' rest) (dot : Item.isMark .dot rest = false)
    (double : Item.isMark .doubleColon rest = false) :
    Passes (readSegments name args ts) (named name args') rest := by
  obtain ⟨_, read⟩ := arguments
  rw [readSegments, read]
  simp only [dotted?_eq_none dot, double, Bool.false_eq_true, if_false]
  exact ⟨_, rfl⟩

theorem passes_readSegments_dotted {args' : List TypeSyntax} {i : Item} {segment : String}
    (arguments : Passes (readArguments? args ts) args' (t :: i :: us)) (dot : t.token = .mark .dot)
    (named : i.token = .ident segment)
    (more : Passes (readSegments (name ++ "." ++ segment) [] us) value after) :
    Passes (readSegments name args ts) value after := by
  obtain ⟨_, arguments⟩ := arguments
  obtain ⟨_, again⟩ := more
  have found : dotted? (t :: i :: us) = some ((Step.one segment i us).behind t) := by
    rw [dotted?, dot, named]
  rw [readSegments, arguments]
  simp only [found]
  show Passes ((readSegments (name ++ "." ++ segment) [] us).map _) value after
  rw [again]
  exact ⟨_, rfl⟩

theorem passes_readSegments_dot {i : Item} {segment : String} (dot : t.token = .mark .dot)
    (named : i.token = .ident segment)
    (more : Passes (readSegments (name ++ "." ++ segment) [] ts) value after) :
    Passes (readSegments name args (t :: i :: ts)) value after :=
  passes_readSegments_dotted
    (passes_readArguments?_keep (by simp [Item.isMark, Item.token?, dot])) dot named more

theorem passes_readSegments_double {args' : List TypeSyntax} {i : Item} {segment : String}
    (arguments : Passes (readArguments? args ts) args' (t :: i :: us))
    (double : t.token = .mark .doubleColon) (named : nameOf? i.token = some segment)
    (more : Passes (readSegments (name ++ "." ++ segment) args' us) value after) :
    Passes (readSegments name args ts) value after := by
  obtain ⟨_, arguments⟩ := arguments
  obtain ⟨_, again⟩ := more
  obtain ⟨_, first⟩ : Takes (readName (t :: i :: us).tail) segment us := takes_readName_of named
  have here : Item.isMark .doubleColon (t :: i :: us) = true := by
    simp [Item.isMark, Item.token?, double]
  rw [readSegments, arguments]
  simp only [dotted?_eq_none (isMark_of_mark double (by decide)), here, if_true, first, again]
  exact ⟨_, rfl⟩

theorem dropGlobal_keep {i : Item}
    (h : ¬ (i.token = .ident "global" ∧ Item.isMark .doubleColon us = true)) :
    dropGlobal (i :: us) = i :: us := by
  refine if_neg fun global => h ?_
  simpa [isGlobalQualifier, Item.token?, Item.ahead, Item.isMark] using global

theorem dropGlobal_drop {i : Item} (global : i.token = .ident "global")
    (double : t.token = .mark .doubleColon) :
    dropGlobal (i :: t :: us) = us := by
  refine if_pos ?_
  simp [isGlobalQualifier, Item.token?, Item.ahead, global, double]

theorem takes_readNamed {i : Item} (dropped : dropGlobal ts = i :: us)
    (named : nameOf? i.token = some name)
    (segments : Passes (readSegments name [] us) core rest) : Takes (readNamed ts) core rest := by
  obtain ⟨_, first⟩ : Takes (readName (dropGlobal ts)) name us :=
    dropped ▸ takes_readName_of named
  obtain ⟨_, again⟩ := segments
  rw [readNamed]
  simp only [first, again]
  exact ⟨_, rfl⟩

/-- A name does not begin with a parenthesis. -/
theorem exists_of_readNamed {s : Step TypeSyntax ts} (h : readNamed ts = .ok s) :
    ∃ t r, ts = t :: r ∧ t.token ≠ .mark .openParen := by
  rw [readNamed] at h
  split at h
  · cases h
  · rename_i name after shorter first
    obtain ⟨i, whole, named⟩ := exists_of_readName first
    cases ts with
    | nil => cases whole
    | cons t r =>
      refine ⟨t, r, rfl, fun opens => ?_⟩
      have keep : dropGlobal (t :: r) = t :: r := by
        rw [dropGlobal, if_neg]
        simp [isGlobalQualifier, Item.token?, opens]
      obtain ⟨rfl, _⟩ := List.cons.inj (keep.symm.trans whole)
      rw [opens] at named
      cases named

theorem takes_read_named (other : t.token ≠ .mark .openParen)
    (named : Takes (readNamed (t :: ts)) core rest)
    (suffixes : Passes (readSuffixes core rest) value after) :
    Takes (read (t :: ts)) value after := by
  obtain ⟨_, named⟩ := named
  obtain ⟨_, suffixes⟩ := suffixes
  rw [read, if_neg other, named]
  simp only [suffixes]
  exact ⟨_, rfl⟩

theorem takes_read_tuple {items : List TypeSyntax} (opens : t.token = .mark .openParen)
    (elements : Takes (readTuple ts) items rest)
    (suffixes : Passes (readSuffixes (tuple items) rest) value after) :
    Takes (read (t :: ts)) value after := by
  obtain ⟨_, elements⟩ := elements
  obtain ⟨_, suffixes⟩ := suffixes
  rw [read, if_pos opens, elements]
  simp only [suffixes]
  exact ⟨_, rfl⟩

theorem dropElementName_mark {m : Mark} (marked : t.token = .mark m) :
    dropElementName (t :: rest) = t :: rest := by
  simp [dropElementName, Item.token?, marked]

end Steps

/-- A list of types: what is dropped behind each of them, and the mark that closes the list. -/
structure ListForm where
  drop : List Item → List Item
  short (ts : List Item) : Short (drop ts) ts
  close : Mark
  apart : .comma ≠ close

namespace ListForm

/-- The elements of a tuple, which may have names. -/
def elements : ListForm := ⟨dropElementName, dropElementName_short, .closeParen, by decide⟩

/-- Type arguments. -/
def arguments : ListForm := ⟨id, short_self, .closeAngle, by decide⟩

/-- One type of a list and the mark behind it; behind a comma `more` reads on. -/
def turn (f : ListForm) (more : (us : List Item) → Read (Step (List TypeSyntax) us))
    (ts : List Item) : Read (Step (List TypeSyntax) ts) :=
  match read ts with
  | .error e => .error e
  | .ok ⟨first, after, h⟩ =>
    if Item.isMark f.close (f.drop after) then
      .ok (((Left.tail [first] (f.drop after)).within (f.short after)).past h)
    else
      match readMark .comma (f.drop after) with
      | .error e => .error e
      | .ok ⟨_, next, hn⟩ =>
        (more next).map fun s => (((s.map (first :: ·)).past hn).within (f.short after)).past h

/-- The reader takes lists of this form, one type a turn. -/
def ReadBy (f : ListForm) (more : (us : List Item) → Read (Step (List TypeSyntax) us)) : Prop :=
  ∀ ts, more ts = f.turn more ts

theorem elements_readBy : elements.ReadBy readTuple := by
  intro ts
  rw [readTuple, turn]
  cases read ts with
  | error e => rfl
  | ok first =>
    by_cases closes : Item.isMark .closeParen (dropElementName first.rest) = true
    · exact (if_pos closes).trans (if_pos closes).symm
    · refine (if_neg closes).trans (.trans ?_ (if_neg closes).symm)
      dsimp only [elements]
      cases readMark .comma (dropElementName first.rest) <;> rfl

theorem arguments_readBy : arguments.ReadBy readArguments := by
  intro ts
  rw [readArguments, turn]
  cases read ts with
  | error e => rfl
  | ok first =>
    by_cases closes : Item.isMark .closeAngle first.rest = true
    · exact (if_pos closes).trans (if_pos closes).symm
    · refine (if_neg closes).trans (.trans ?_ (if_neg closes).symm)
      dsimp only [arguments, id]
      cases readMark .comma first.rest <;> rfl

namespace ReadBy
variable {f : ListForm} {more : (us : List Item) → Read (Step (List TypeSyntax) us)}
  {ts us rest after : List Item} {core : TypeSyntax} {args : List TypeSyntax} {t : Item}

theorem exists_of_ok (reads : f.ReadBy more) {s : Step (List TypeSyntax) ts}
    (h : more ts = .ok s) : ∃ first : Step TypeSyntax ts, read ts = .ok first ∧
      (Item.isMark f.close (f.drop first.rest) = true ∧ s.value = [first.value] ∧
          s.rest = (f.drop first.rest).tail ∨
        ∃ (comma : Step Unit (f.drop first.rest)) (others : Step (List TypeSyntax) comma.rest),
          readMark .comma (f.drop first.rest) = .ok comma ∧ more comma.rest = .ok others ∧
          Shorter comma.rest ts ∧ s.value = first.value :: others.value ∧
          s.rest = others.rest) := by
  rw [reads, turn] at h
  split at h
  · cases h
  · rename_i first after shorter read
    refine ⟨_, read, ?_⟩
    split at h
    · rename_i closes
      cases h
      exact .inl ⟨closes, rfl, rfl⟩
    · split at h
      · cases h
      · rename_i next shorter' comma
        obtain ⟨others, again, rfl⟩ := map_eq_ok h
        have further := (shorter'.trans_short (f.short after)).trans_short shorter.short
        exact .inr ⟨_, others, comma, again, further, rfl, rfl⟩

theorem cases_of_error (reads : f.ReadBy more) {fault : SyntaxFault} (h : more ts = .error fault) :
    read ts = .error fault ∨ ∃ first : Step TypeSyntax ts, read ts = .ok first ∧
      (readMark .comma (f.drop first.rest) = .error fault ∨
        ∃ comma : Step Unit (f.drop first.rest),
          readMark .comma (f.drop first.rest) = .ok comma ∧
          more comma.rest = .error fault ∧ Shorter comma.rest ts) := by
  rw [reads, turn] at h
  split at h
  · rename_i failed
    cases h
    exact .inl failed
  · rename_i first after shorter read
    refine .inr ⟨_, read, ?_⟩
    split at h
    · cases h
    · split at h
      · rename_i failed
        cases h
        exact .inl failed
      · rename_i next shorter' comma
        have further := (shorter'.trans_short (f.short after)).trans_short shorter.short
        exact .inr ⟨_, comma, map_eq_error h, further⟩

theorem takes_last (reads : f.ReadBy more) (first : Takes (read ts) core us)
    (dropped : f.drop us = t :: rest) (closes : t.token = .mark f.close) :
    Takes (more ts) [core] rest := by
  obtain ⟨_, read⟩ := first
  have here : Item.isMark f.close (f.drop us) = true := by
    simp [dropped, Item.isMark, Item.token?, closes]
  rw [takes_iff, reads, turn, read]
  simp only [here, if_true]
  show Except.ok ([core], (f.drop us).tail) = _
  rw [dropped, List.tail_cons]

theorem takes_more (reads : f.ReadBy more) (first : Takes (read ts) core us)
    (dropped : f.drop us = t :: rest) (comma : t.token = .mark .comma)
    (others : Takes (more rest) args after) : Takes (more ts) (core :: args) after := by
  obtain ⟨_, read⟩ := first
  obtain ⟨_, again⟩ := others
  obtain ⟨_, passed⟩ : Takes (readMark .comma (f.drop us)) () rest :=
    takes_readMark dropped comma
  have here : Item.isMark f.close (f.drop us) = false := by
    rw [dropped]
    exact isMark_of_mark comma f.apart
  rw [reads, turn, read]
  simp only [here, Bool.false_eq_true, if_false, passed, again]
  exact ⟨_, rfl⟩

/-- What holds of each type that is read holds of all types of a list. -/
theorem forall_mem (reads : f.ReadBy more) {P : TypeSyntax → Prop}
    (item : ∀ s : Step TypeSyntax ts, read ts = .ok s → P s.value)
    (list : ∀ us, Shorter us ts → ∀ s : Step (List TypeSyntax) us, more us = .ok s →
      ∀ ty ∈ s.value, P ty)
    {s : Step (List TypeSyntax) ts} (h : more ts = .ok s) : ∀ ty ∈ s.value, P ty := by
  obtain ⟨first, read, ⟨-, last, -⟩ | ⟨comma, others, -, again, shorter, value, -⟩⟩ :=
    reads.exists_of_ok h
  · rw [last]
    exact List.forall_mem_singleton.mpr (item first read)
  · rw [value]
    exact List.forall_mem_cons.mpr ⟨item first read, list _ shorter others again⟩

end ReadBy

end ListForm

/-- No mark stands here that carries a name on. -/
def EndsName (rest : List Item) : Prop :=
  ∀ m ∈ [Mark.dot, .doubleColon, .openAngle], Item.isMark m rest = false

/-- No mark stands here that carries a type on. -/
def EndsType (rest : List Item) : Prop :=
  EndsName rest ∧ ∀ m ∈ [Mark.question, .star, .openBracket], Item.isMark m rest = false

theorem endsName_mark {t : Item} {m : Mark} (rest : List Item) (marked : t.token = .mark m)
    (ends : m ∉ [Mark.dot, .doubleColon, .openAngle]) : EndsName (t :: rest) := by
  intro n hn
  refine isMark_of_mark marked ?_
  rintro rfl
  exact ends hn

theorem endsType_mark {t : Item} {m : Mark} (rest : List Item) (marked : t.token = .mark m)
    (ends : m ∉ [Mark.dot, .doubleColon, .openAngle, .question, .star, .openBracket]) :
    EndsType (t :: rest) := by
  refine ⟨endsName_mark rest marked fun h => ends (by simp_all), fun n hn => ?_⟩
  refine isMark_of_mark marked ?_
  rintro rfl
  exact ends (by simp_all)

theorem endsType_other {t : Item} {rest : List Item}
    (other : ∀ m, t.token ≠ .mark m) : EndsType (t :: rest) := by
  have apart : ∀ m, Item.isMark m (t :: rest) = false := by
    intro m
    simpa [Item.isMark, Item.token?] using other m
  exact ⟨fun m _ => apart m, fun m _ => apart m⟩

theorem endsType_ident {i : Item} {name : String} {rest : List Item}
    (named : i.token = .ident name) : EndsType (i :: rest) :=
  endsType_other fun _ marked => nomatch named.symm.trans marked

theorem EndsType.passes_readSuffixes {ty : TypeSyntax} {rest : List Item} (h : EndsType rest) :
    Passes (readSuffixes ty rest) ty rest :=
  passes_readSuffixes_keep (h.2 _ (by decide)) (h.2 _ (by decide)) (h.2 _ (by decide))

end Ambient.TypeSyntax
