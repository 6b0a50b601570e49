import Ambient.Proofs.Source.Bodies
import Ambient.Proofs.Source.Cutting

/-!
# Read alike where the text goes on in another way

Of two texts that begin alike the beginnings are read alike. How a reader goes on shows in the
next item or in the next two, so what it takes is taken in the other text too if these are the
same there. What ends with a closing mark of its own, or with the semicolon of a member, does not
even depend on them.
-/
namespace Ambient

open Host

/-- Two sources, and the items at which the same text stands in both. -/
structure Overlap where
  source : List Char
  source' : List Char
  shared : Item → Prop
  slice_eq : ∀ {i j : Item}, shared i → shared j →
    Text.slice source i.start j.stop = Text.slice source' i.start j.stop

/-- No reader that comes to this token has to see what is behind it. -/
def Token.IsQuiet (t : Token) : Prop :=
  (∀ name, t ≠ .ident name) ∧ t ≠ .keyword .partialKw ∧ t ≠ .keyword .recordKw

theorem Token.isQuiet_mark (m : Mark) : (mark m).IsQuiet := ⟨nofun, nofun, nofun⟩

/-- The items begin alike, so far as it shows how something in front of them is read. -/
inductive Near : List Item → List Item → Prop
  | one {t : Item} (r r' : List Item) : t.token.IsQuiet → Near (t :: r) (t :: r')
  | two (t u : Item) (r r' : List Item) : Near (t :: u :: r) (t :: u :: r')

/-- No semicolon and no equals sign stands in front of `us` but where one stands
in front of `ts`. -/
def Apart (ts us : List Item) : Prop :=
  ∀ m ∈ [Mark.semicolon, .equals], Item.isMark m us = true → Item.isMark m ts = true

/-- Whatever stands behind these items, what is in front of them is read alike. -/
def Firm (taken : List Item) : Prop := ∀ r r', Near (taken ++ r) (taken ++ r')

variable {ts us rest mid taken r r' : List Item} {t : Item} {P Q : List Item → List Item → Prop}

namespace Near

theorem exists_cons (h : Near ts us) : ∃ t r r', ts = t :: r ∧ us = t :: r' := by
  cases h with
  | one r r' => exact ⟨_, r, r', rfl, rfl⟩
  | two t u r r' => exact ⟨t, u :: r, u :: r', rfl, rfl⟩

theorem append (behind : List Item) (h : Near ts us) : Near (behind ++ ts) (behind ++ us) := by
  obtain ⟨t, r, r', rfl, rfl⟩ := h.exists_cons
  match behind with
  | [] => exact h
  | [u] => exact .two u t r r'
  | u :: v :: more => exact .two u v _ _

theorem token? (h : Near ts us) : Item.token? us = Item.token? ts := by
  obtain ⟨t, r, r', rfl, rfl⟩ := h.exists_cons
  rfl

theorem docsAt (h : Near ts us) : Item.docsAt us = Item.docsAt ts := by
  obtain ⟨t, r, r', rfl, rfl⟩ := h.exists_cons
  rfl

theorem isMark (h : Near ts us) (m : Mark) : Item.isMark m us = Item.isMark m ts := by
  rw [Item.isMark, Item.isMark, h.token?]

theorem apart (h : Near ts us) : Apart ts us := by
  intro m _ found
  rwa [h.isMark] at found

/-- Behind a token that is not quiet the next one is the same as well. -/
theorem exists_two (h : Near (t :: r) us) (loud : ¬ t.token.IsQuiet) :
    ∃ u q q', r = u :: q ∧ us = t :: u :: q' := by
  cases h with
  | one r r' quiet => exact absurd quiet loud
  | two t u q q' => exact ⟨u, q, q', rfl, rfl⟩

/-- A type is read alike up to there if no dot and no bracket follows it. -/
theorem cuts (h : Near ts us) (dot : Item.isMark .dot ts = false)
    (bracket : Item.isMark .openBracket ts = false) : Cuts ts us := by
  obtain ⟨t, r, r', rfl, rfl⟩ := h.exists_cons
  exact .head r r' (TypeSyntax.not_token dot) (TypeSyntax.not_token bracket)

end Near

namespace Firm

theorem item (quiet : t.token.IsQuiet) : Firm [t] := fun r r' => .one r r' quiet

theorem cons (t : Item) (h : taken ≠ []) : Firm (t :: taken) := by
  obtain ⟨u, more, rfl⟩ := List.exists_cons_of_ne_nil h
  exact fun r r' => .two t u _ _

theorem ne_nil (h : Firm taken) : taken ≠ [] := by
  rintro rfl
  cases h [] []

theorem behind (front : List Item) (h : Firm taken) : Firm (front ++ taken) := by
  intro r r'
  rw [List.append_assoc, List.append_assoc]
  exact (h r r').append front

end Firm

section
variable (O : Overlap)

/-- What `P` says of `ts` and the items `rest` left of it holds as well of the text in the other
source where `rest` goes on in another way. -/
def Keeps (P : List Item → List Item → Prop) (ts rest : List Item) : Prop :=
  ∃ taken, ts = taken ++ rest ∧
    ((∀ i ∈ taken, O.shared i) → ∀ us, Near rest us → P (taken ++ us) us)

/-- What `P` says does not depend on the items `rest` at all. -/
def Seals (P : List Item → List Item → Prop) (ts rest : List Item) : Prop :=
  ∃ taken, ts = taken ++ rest ∧ Firm taken ∧
    ((∀ i ∈ taken, O.shared i) → ∀ us, P (taken ++ us) us)

/-- What `P` says does not depend on the items `rest`, unless a semicolon or an equals sign follows
that does not follow here, or only a closing brace ends the member in front of them. -/
def Stops (P : List Item → List Item → Prop) (ts rest : List Item) : Prop :=
  ∃ taken, ts = taken ++ rest ∧ Firm taken ∧ ((∀ i ∈ taken, O.shared i) →
    (∀ us, Apart rest us → P (taken ++ us) us) ∨
      Item.isMark .closeBrace rest = true ∧ ∀ us, P (taken ++ us) (Skip.wholeMember us))

end

variable {O : Overlap}

theorem wholeMember_closeBrace (h : Item.isMark .closeBrace us = true) :
    Skip.wholeMember us = us := by
  cases us with
  | nil => rfl
  | cons t r =>
    have token : t.token = .mark .closeBrace := by simpa [Item.isMark, Item.token?] using h
    rw [Skip.wholeMember, Skip.member, token]
    rfl

namespace Keeps

theorem keep (h : ∀ us, Near ts us → P us us) : Keeps O P ts ts := ⟨[], rfl, fun _ => h⟩

/-- Nothing is said where the text ends. -/
theorem of_nil (ts : List Item) : Keeps O P ts [] :=
  ⟨ts, (List.append_nil ts).symm, fun _ _ near => nomatch near.exists_cons⟩

theorem nil : Keeps O P [] [] := of_nil []

theorem keep_cons (h : ∀ q, Near (t :: r) (t :: q) → P (t :: q) (t :: q)) :
    Keeps O P (t :: r) (t :: r) := by
  refine .keep fun us near => ?_
  obtain ⟨_, _, q, begin, rfl⟩ := near.exists_cons
  cases begin
  exact h q near

theorem first (t : Item) (r : List Item) : Keeps O (fun ts us => ts = t :: us) (t :: r) r :=
  ⟨[t], rfl, fun _ _ _ => rfl⟩

theorem imp (h : Keeps O P ts rest) (through : ∀ ts us, P ts us → Q ts us) :
    Keeps O Q ts rest := by
  obtain ⟨taken, whole, again⟩ := h
  exact ⟨taken, whole, fun shared us near => through _ _ (again shared us near)⟩

/-- What is read begins like the items it was read from. -/
theorem near (h : Keeps O P ts rest) :
    Keeps O (fun us rest => Near ts us ∧ P us rest) ts rest := by
  obtain ⟨taken, rfl, again⟩ := h
  exact ⟨taken, rfl, fun shared us near => ⟨near.append taken, again shared us near⟩⟩

/-- An item in front, which is taken first. -/
theorem behind (t : Item) (h : Keeps O P ts rest) :
    Keeps O (fun us rest => ∃ r, us = t :: r ∧ P r rest) (t :: ts) rest := by
  obtain ⟨taken, rfl, again⟩ := h
  exact ⟨t :: taken, rfl, fun shared us near =>
    ⟨taken ++ us, rfl, again (fun i hi => shared i (List.mem_cons_of_mem t hi)) us near⟩⟩

theorem trans (h : Keeps O P ts mid) (h' : Keeps O Q mid rest) :
    Keeps O (fun ts us => ∃ mid, P ts mid ∧ Q mid us) ts rest := by
  obtain ⟨front, rfl, first⟩ := h
  obtain ⟨behind, rfl, second⟩ := h'
  refine ⟨front ++ behind, (List.append_assoc front behind rest).symm, fun shared us near => ?_⟩
  rw [List.forall_mem_append] at shared
  rw [List.append_assoc]
  exact ⟨behind ++ us, first shared.1 _ (near.append behind), second shared.2 us near⟩

theorem seals (h : Keeps O P ts mid) (h' : Seals O Q mid rest) :
    Seals O (fun ts us => ∃ mid, P ts mid ∧ Q mid us) ts rest := by
  obtain ⟨front, rfl, first⟩ := h
  obtain ⟨behind, rfl, firm, second⟩ := h'
  refine ⟨front ++ behind, (List.append_assoc front behind rest).symm, firm.behind front,
    fun shared us => ?_⟩
  rw [List.forall_mem_append] at shared
  rw [List.append_assoc]
  exact ⟨behind ++ us, first shared.1 _ (firm rest us), second shared.2 us⟩

theorem stops (h : Keeps O P ts mid) (h' : Stops O Q mid rest) :
    Stops O (fun ts us => ∃ mid, P ts mid ∧ Q mid us) ts rest := by
  obtain ⟨front, rfl, first⟩ := h
  obtain ⟨behind, rfl, firm, second⟩ := h'
  refine ⟨front ++ behind, (List.append_assoc front behind rest).symm, firm.behind front,
    fun shared => ?_⟩
  rw [List.forall_mem_append] at shared
  have begins : ∀ us, P (front ++ (behind ++ us)) (behind ++ us) :=
    fun us => first shared.1 _ (firm rest us)
  rcases second shared.2 with closed | ⟨brace, opened⟩
  · refine .inl fun us apart => ?_
    rw [List.append_assoc]
    exact ⟨behind ++ us, begins us, closed us apart⟩
  · refine .inr ⟨brace, fun us => ?_⟩
    rw [List.append_assoc]
    exact ⟨behind ++ us, begins us, opened us⟩

end Keeps

namespace Seals

theorem imp (h : Seals O P ts rest) (through : ∀ ts us, P ts us → Q ts us) :
    Seals O Q ts rest := by
  obtain ⟨taken, whole, firm, again⟩ := h
  exact ⟨taken, whole, firm, fun shared us => through _ _ (again shared us)⟩

theorem near (h : Seals O P ts rest) :
    Seals O (fun us rest => Near ts us ∧ P us rest) ts rest := by
  obtain ⟨taken, rfl, firm, again⟩ := h
  exact ⟨taken, rfl, firm, fun shared us => ⟨firm rest us, again shared us⟩⟩

theorem ne_nil (h : Seals O P ts rest) : ts ≠ [] := by
  obtain ⟨taken, rfl, firm, -⟩ := h
  exact List.append_ne_nil_of_left_ne_nil firm.ne_nil rest

theorem first (quiet : t.token.IsQuiet) (r : List Item) :
    Seals O (fun ts us => ts = t :: us) (t :: r) r :=
  ⟨[t], rfl, .item quiet, fun _ _ => rfl⟩

theorem stops (h : Seals O P ts rest) : Stops O P ts rest := by
  obtain ⟨taken, whole, firm, again⟩ := h
  exact ⟨taken, whole, firm, fun shared => .inl fun us _ => again shared us⟩

end Seals

namespace Stops

theorem imp (h : Stops O P ts rest) (through : ∀ ts us, P ts us → Q ts us) :
    Stops O Q ts rest := by
  obtain ⟨taken, whole, firm, again⟩ := h
  refine ⟨taken, whole, firm, fun shared => (again shared).imp ?_ ?_⟩
  · exact fun closed us apart => through _ _ (closed us apart)
  · exact fun ⟨brace, opened⟩ => ⟨brace, fun us => through _ _ (opened us)⟩

theorem near (h : Stops O P ts rest) :
    Stops O (fun us rest => Near ts us ∧ P us rest) ts rest := by
  obtain ⟨taken, rfl, firm, again⟩ := h
  refine ⟨taken, rfl, firm, fun shared => (again shared).imp ?_ ?_⟩
  · exact fun closed us apart => ⟨firm rest us, closed us apart⟩
  · exact fun ⟨brace, opened⟩ => ⟨brace, fun us => ⟨firm rest us, opened us⟩⟩

theorem keeps (h : Stops O P ts rest) : Keeps O P ts rest := by
  obtain ⟨taken, whole, -, again⟩ := h
  refine ⟨taken, whole, fun shared us near => ?_⟩
  rcases again shared with closed | ⟨brace, opened⟩
  · exact closed us near.apart
  · have same := opened us
    rwa [wholeMember_closeBrace ((near.isMark _).trans brace)] at same

end Stops

theorem Seals.keeps (h : Seals O P ts rest) : Keeps O P ts rest := h.stops.keeps

/-- The text of shared items is the same in both sources. -/
theorem Overlap.writtenText_eq (shared : ∀ i ∈ taken, O.shared i) (rest us : List Item) :
    writtenText O.source' (taken ++ us) us = writtenText O.source (taken ++ rest) rest := by
  have here : ∀ behind, (taken ++ behind).take
      ((taken ++ behind).length - behind.length) = taken := by
    intro behind
    rw [List.length_append, Nat.add_sub_cancel, List.take_left]
  simp only [writtenText, here]
  cases head : taken.head? with
  | none => rfl
  | some first =>
    cases tail : taken.getLast? with
    | none => rfl
    | some last =>
      have same := O.slice_eq (shared first (List.mem_of_head? head))
        (shared last (List.mem_of_getLast? tail))
      exact congrArg (fun cs => String.ofList (Text.trim cs)) same.symm

theorem exists_of_takes_readName {name : String} (h : Takes (readName ts) name rest) :
    ∃ t, ts = t :: rest ∧ nameOf? t.token = some name := by
  obtain ⟨_, read⟩ := h
  exact exists_of_readName read

theorem exists_of_isKeyword {k : Keyword} (h : Item.isKeyword k ts = true) :
    ∃ t r, ts = t :: r ∧ t.token = .keyword k := by
  cases ts with
  | nil => cases h
  | cons t r => exact ⟨t, r, rfl, by simpa [Item.isKeyword, Item.token?] using h⟩

theorem keeps_readName {s : Step String ts} (h : readName ts = .ok s) :
    Keeps O (fun ts us => Takes (readName ts) s.value us) ts s.rest := by
  obtain ⟨t, whole, named⟩ := exists_of_readName h
  exact ⟨[t], whole, fun _ us _ => takes_readName_of named⟩

theorem seals_readMark {m : Mark} {s : Step Unit ts} (h : readMark m ts = .ok s) :
    Seals O (fun ts us => Item.isMark m ts = true ∧ Takes (readMark m ts) () us) ts s.rest := by
  obtain ⟨t, whole, marked⟩ := exists_of_readMark h
  refine ⟨[t], whole, .item (marked ▸ Token.isQuiet_mark m),
    fun _ us => ⟨?_, takes_readMark rfl marked⟩⟩
  simp [Item.isMark, Item.token?, marked]

/-- A mark at the front is taken whatever stands behind it. -/
theorem seals_tail {m : Mark} (h : Item.isMark m ts = true) :
    Seals O (fun ts us => Item.isMark m ts = true ∧ us = ts.tail) ts ts.tail := by
  cases ts with
  | nil => cases h
  | cons t r =>
    have marked : t.token = .mark m := by simpa [Item.isMark, Item.token?] using h
    refine (Seals.first (marked ▸ Token.isQuiet_mark m) r).imp ?_
    rintro _ us rfl
    exact ⟨h, rfl⟩

/-- A semicolon that may follow. -/
theorem stops_dropMark (h : Seals O P ts rest) :
    Stops O (fun ts us => ∃ mid, P ts mid ∧ dropMark .semicolon mid = us) ts
      (dropMark .semicolon rest) := by
  unfold dropMark
  split
  · rename_i semicolon
    refine (h.keeps.seals (seals_tail semicolon)).stops.imp ?_
    rintro ts us ⟨mid, said, found, rfl⟩
    exact ⟨mid, said, if_pos found⟩
  · rename_i other
    obtain ⟨taken, whole, firm, again⟩ := h
    refine ⟨taken, whole, firm,
      fun shared => .inl fun us apart => ⟨us, again shared us, ?_⟩⟩
    exact if_neg fun found => other (apart _ (by decide) found)

theorem seals_group {opening closing : Mark} {inner : Nat}
    (some : Skip.group opening closing inner ts ≠ []) :
    Seals O (fun ts us => Skip.group opening closing inner ts = us) ts
      (Skip.group opening closing inner ts) := by
  induction ts generalizing inner with
  | nil => exact absurd rfl some
  | cons t r ih =>
    have onward : ∀ {n}, (∀ us, Skip.group opening closing inner (t :: us) =
        Skip.group opening closing n us) → Seals O
          (fun ts us => Skip.group opening closing inner ts = us) (t :: r)
          (Skip.group opening closing inner (t :: r)) := by
      intro n passes
      rw [passes] at some ⊢
      refine ((Keeps.first t r).seals (ih some)).imp ?_
      rintro _ us ⟨mid, rfl, inside⟩
      rw [passes, inside]
    by_cases opens : t.token = .mark opening
    · exact onward fun us => Skip.group_opens opens
    by_cases closes : t.token = .mark closing
    · cases inner with
      | zero =>
        have ends : ∀ us, Skip.group opening closing 0 (t :: us) = us := by
          intro us
          rw [Skip.group, if_neg opens, if_pos closes]
        rw [ends]
        refine (Seals.first (closes ▸ Token.isQuiet_mark closing) r).imp ?_
        rintro _ us rfl
        exact ends us
      | succ n =>
        exact @onward n fun us => by rw [Skip.group, if_neg opens, if_pos closes]
    · exact onward fun us => Skip.group_other opens closes

theorem keeps_dropWhile (p : Item → Bool) (ts : List Item) :
    Keeps O (fun ts us => ts.dropWhile p = us) ts (ts.dropWhile p) := by
  induction ts with
  | nil => exact .nil
  | cons t r ih =>
    cases passed : p t with
    | true =>
      have onward : ∀ q, (t :: q).dropWhile p = q.dropWhile p :=
        fun q => List.dropWhile_cons_of_pos passed
      rw [onward]
      refine (ih.behind t).imp ?_
      rintro _ us ⟨q, rfl, drop⟩
      rw [onward, drop]
    | false =>
      have keep : ∀ q, (t :: q).dropWhile p = t :: q :=
        fun q => List.dropWhile_cons_of_neg (by simp [passed])
      rw [keep]
      exact .keep_cons fun q _ => keep q

theorem keeps_expression (generics : Bool) (n : Skip.Nesting) (ts : List Item) :
    Keeps O (fun ts us => Skip.expression generics n ts = us) ts
      (Skip.expression generics n ts) := by
  induction ts generalizing n with
  | nil => exact .nil
  | cons t r ih =>
    rw [Skip.expression]
    cases step : n.step? generics t.token with
    | none =>
      refine .keep_cons fun q _ => ?_
      rw [Skip.expression, step]
    | some next =>
      refine ((ih next).behind t).imp ?_
      rintro _ us ⟨q, rfl, more⟩
      rw [Skip.expression, step]
      exact more

theorem stops_block (some : dropMark .semicolon (Skip.braces ts) ≠ []) :
    Stops O (fun ts us => dropMark .semicolon (Skip.braces ts) = us) ts
      (dropMark .semicolon (Skip.braces ts)) := by
  have behind : Skip.braces ts ≠ [] := by
    intro none
    rw [none] at some
    exact some rfl
  refine (stops_dropMark (seals_group behind)).imp ?_
  rintro ts us ⟨_, rfl, drop⟩
  exact drop

/-- A member goes on to its semicolon or block, or to a brace that closes what is around it. -/
theorem exists_member (O : Overlap) {depth : Nat} (h : Skip.member depth ts = rest)
    (some : rest ≠ []) : ∃ taken, ts = taken ++ rest ∧ ((∀ i ∈ taken, O.shared i) →
      (∀ us, Apart rest us → Skip.member depth (taken ++ us) = us) ∨
        Item.isMark .closeBrace rest = true ∧
          ∀ us, Skip.member depth (taken ++ us) = Skip.wholeMember us) := by
  induction ts generalizing depth with
  | nil => exact absurd h.symm some
  | cons t r ih =>
    have onward : ∀ n, (∀ us, Skip.member depth (t :: us) = Skip.member n us) →
        ∃ taken, t :: r = taken ++ rest ∧ ((∀ i ∈ taken, O.shared i) →
          (∀ us, Apart rest us → Skip.member depth (taken ++ us) = us) ∨
            Item.isMark .closeBrace rest = true ∧
              ∀ us, Skip.member depth (taken ++ us) = Skip.wholeMember us) := by
      intro n passes
      obtain ⟨taken, rfl, again⟩ := ih ((passes r).symm.trans h)
      refine ⟨t :: taken, rfl, ?_⟩
      simp only [List.cons_append, passes]
      exact fun shared => again fun i hi => shared i (List.mem_cons_of_mem t hi)
    cases token : t.token with
    | mark m =>
      cases m with
      | openParen | openBracket => exact onward (depth + 1) fun us => by rw [Skip.member, token]
      | closeParen | closeBracket => exact onward (depth - 1) fun us => by rw [Skip.member, token]
      | semicolon =>
        by_cases outside : depth = 0
        · have ends : ∀ us, Skip.member depth (t :: us) = us := by
            intro us
            rw [Skip.member, token]
            exact if_pos outside
          exact ⟨[t], congrArg (t :: ·) ((ends r).symm.trans h),
            fun _ => .inl fun us _ => ends us⟩
        · refine onward depth fun us => ?_
          rw [Skip.member, token]
          exact if_neg outside
      | openBrace =>
        by_cases outside : depth = 0
        · have block : ∀ us, Skip.member depth (t :: us) =
              dropMark .semicolon (Skip.braces us) := by
            intro us
            rw [Skip.member, token]
            exact if_pos outside
          obtain rfl := (block r).symm.trans h
          obtain ⟨taken, whole, -, again⟩ := stops_block (O := O) some
          refine ⟨t :: taken, congrArg (t :: ·) whole, fun shared => ?_⟩
          simp only [List.cons_append, block]
          exact again fun i hi => shared i (List.mem_cons_of_mem t hi)
        · refine onward depth fun us => ?_
          rw [Skip.member, token]
          exact if_neg outside
      | closeBrace =>
        by_cases outside : depth = 0
        · subst outside
          have brace : Item.isMark .closeBrace (t :: r) = true := by
            simp [Item.isMark, Item.token?, token]
          obtain rfl := (wholeMember_closeBrace brace).symm.trans h
          exact ⟨[], rfl, fun _ => .inr ⟨brace, fun us => rfl⟩⟩
        · refine onward depth fun us => ?_
          rw [Skip.member, token]
          exact if_neg outside
      | _ => exact onward depth fun us => by rw [Skip.member, token]
    | _ => exact onward depth fun us => by rw [Skip.member, token]

/-- What a member begins with is quiet, or it is not all there is of it. -/
theorem stops_wholeMember {first : Item}
    (begun : first.token.IsQuiet ∨ Skip.wholeMember ts ≠ ts)
    (some : Skip.wholeMember ts ≠ []) :
    Stops O (fun ts us => ∃ r, ts = first :: r ∧ Skip.wholeMember r = us) (first :: ts)
      (Skip.wholeMember ts) := by
  obtain ⟨taken, whole, again⟩ := exists_member O (rfl : Skip.member 0 ts = _) some
  have firm : Firm (first :: taken) := by
    by_cases none : taken = []
    · subst none
      exact .item (begun.resolve_right fun other => other whole.symm)
    · exact .cons first none
  refine ⟨first :: taken, congrArg (first :: ·) whole, firm, fun shared => ?_⟩
  refine (again fun i hi => shared i (List.mem_cons_of_mem first hi)).imp ?_ ?_
  · exact fun closed us apart => ⟨taken ++ us, rfl, closed us apart⟩
  · exact fun ⟨brace, opened⟩ => ⟨brace, fun us => ⟨taken ++ us, rfl, opened us⟩⟩

theorem member_ne {depth : Nat} (other : t.token ≠ .mark .closeBrace) (r : List Item) :
    Skip.member depth (t :: r) ≠ t :: r := by
  have short : (Skip.member depth (t :: r)).length ≤ r.length := by
    have onward : ∀ n, (Skip.member n r).length ≤ r.length := fun n => (Skip.member_short n r).1
    rw [Skip.member]
    split
    case h_5 => split <;> first | exact Nat.le_refl _ | exact onward _
    case h_6 =>
      split
      · exact ((dropMark_short .semicolon _).trans (Skip.braces_short r)).1
      · exact onward _
    case h_7 brace => exact absurd brace other
    all_goals exact onward _
  intro same
  rw [same, List.length_cons] at short
  omega

/-- A member that begins here, which is not the brace that closes what is around it. -/
theorem stops_passed (quiet : t.token.IsQuiet) (other : t.token ≠ .mark .closeBrace)
    (some : Skip.wholeMember (t :: r) ≠ []) :
    Stops O (fun ts us => Skip.wholeMember ts = us) (t :: r) (Skip.wholeMember (t :: r)) := by
  obtain ⟨taken, whole, again⟩ := exists_member O (rfl : Skip.member 0 (t :: r) = _) some
  refine ⟨taken, whole, ?_, again⟩
  cases taken with
  | nil => exact absurd whole.symm (member_ne other r)
  | cons u more =>
    obtain ⟨rfl, -⟩ := List.cons.inj whole
    cases more with
    | nil => exact .item quiet
    | cons v more => exact .cons t (List.cons_ne_nil v more)

end Ambient
