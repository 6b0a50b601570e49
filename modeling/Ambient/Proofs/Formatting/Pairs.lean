import Ambient.Skip
import Ambient.Proofs.Source.Steps

/-!
# Two texts read side by side

Two lists of items whose tokens are the same one by one, string literals perhaps apart, are
read in the same steps wherever the items stand. The rules here compare what one reader makes
of the first list and of the second: the values are related, as many items are taken, and a
fault has the same cause.
-/
namespace Ambient

/-- The token with the value of a string literal replaced. -/
def Token.retext (f : String → String) : Token → Token
  | text value => text (f value)
  | t => t

/-- The cause with the literal it may have found replaced. -/
def SyntaxCause.retext (f : String → String) : SyntaxCause → SyntaxCause
  | expectedMark m found => expectedMark m (found.map (Token.retext f))
  | expectedEnd found => expectedEnd (found.map (Token.retext f))
  | expectedName found => expectedName (found.map (Token.retext f))
  | expectedDeclaration found => expectedDeclaration (found.map (Token.retext f))
  | unexpectedAfterMember found name => unexpectedAfterMember (found.map (Token.retext f)) name
  | unexpectedInAccessor found accessor =>
    unexpectedInAccessor (found.map (Token.retext f)) accessor
  | cause => cause

namespace Token
variable {f : String → String} {t : Token}

theorem retext_id (t : Token) : t.retext id = t := by
  cases t <;> rfl

/-- Anything but a string literal stays what it is. -/
theorem retext_eq_iff {u : Token} (h : ∀ value, u ≠ text value) : t.retext f = u ↔ t = u := by
  cases t with
  | text value =>
    constructor
    · intro same
      exact absurd same.symm (h (f value))
    · intro same
      exact absurd same.symm (h value)
  | _ => exact Iff.rfl

@[simp] theorem retext_eq_mark {m : Mark} : t.retext f = mark m ↔ t = mark m :=
  retext_eq_iff fun _ => Token.noConfusion

@[simp] theorem retext_eq_keyword {k : Keyword} : t.retext f = keyword k ↔ t = keyword k :=
  retext_eq_iff fun _ => Token.noConfusion

@[simp] theorem retext_eq_ident {name : String} : t.retext f = ident name ↔ t = ident name :=
  retext_eq_iff fun _ => Token.noConfusion

@[simp] theorem nameOf?_retext : nameOf? (t.retext f) = nameOf? t := by
  cases t <;> rfl

@[simp] theorem isIdent_retext : Skip.isIdent (t.retext f) = Skip.isIdent t := by
  cases t <;> rfl

end Token

theorem SyntaxCause.retext_id (cause : SyntaxCause) : cause.retext id = cause := by
  cases cause <;> simp [retext, Option.map_id_fun', funext Token.retext_id]

/-- The items of two texts, and what becomes of the string literals of the first in the second. -/
structure Pairing where
  first : List Item
  second : List Item
  literal : String → String

namespace Pairing
variable (p : Pairing)

/-- The readers stand at the same place in both texts. -/
structure At (ts us : List Item) : Prop where
  left : ts <:+ p.first
  right : us <:+ p.second
  tokens : us.map (·.token) = ts.map fun t => t.token.retext p.literal

/-- Two readings fail for the same cause or give values in the relation `V`. -/
inductive Agree {A B : Type} (V : A → B → Prop) : Read A → Read B → Prop
  | error {e e' : SyntaxFault} : e'.cause = e.cause.retext p.literal →
    Agree V (.error e) (.error e')
  | ok {a : A} {b : B} : V a b → Agree V (.ok a) (.ok b)

/-- Two steps give values in the relation `V` and leave the readers at the same place. -/
def Steps {α β : Type} {ts us : List Item} (V : α → β → Prop) (s : Step α ts)
    (s' : Step β us) : Prop :=
  V s.value s'.value ∧ p.At s.rest s'.rest

/-- What is left comes with values in the relation `V` at the same place. -/
def Lefts {α β : Type} {ts us : List Item} (V : α → β → Prop) (l : Left α ts)
    (l' : Left β us) : Prop :=
  V l.value l'.value ∧ p.At l.rest l'.rest

variable {p} {ts us : List Item}

theorem Agree.map {A B C D : Type} {V : A → B → Prop} {W : C → D → Prop} {x : Read A}
    {y : Read B}
    {g : A → C} {g' : B → D} (h : p.Agree V x y) (through : ∀ a b, V a b → W (g a) (g' b)) :
    p.Agree W (x.map g) (y.map g') := by
  cases h with
  | error cause => exact .error cause
  | ok value => exact .ok (through _ _ value)

namespace At
variable {t u : Item} {r q : List Item}

theorem nil_right (h : p.At [] us) : us = [] := List.map_eq_nil_iff.mp h.tokens

theorem cons_right (h : p.At (t :: r) us) :
    ∃ u q, us = u :: q ∧ u.token = t.token.retext p.literal ∧ p.At r q := by
  obtain ⟨u, q, rfl, token, tokens⟩ := List.map_eq_cons_iff.mp h.tokens
  exact ⟨u, q, rfl, token, (List.suffix_cons t r).trans h.left,
    (List.suffix_cons u q).trans h.right, tokens⟩

theorem tail (h : p.At ts us) : p.At ts.tail us.tail := by
  cases ts with
  | nil =>
    rw [h.nil_right]
    exact ⟨List.nil_suffix, List.nil_suffix, rfl⟩
  | cons t r =>
    obtain ⟨u, q, rfl, -, rest⟩ := h.cons_right
    exact rest

theorem drop (h : p.At ts us) (n : Nat) : p.At (ts.drop n) (us.drop n) := by
  induction n generalizing ts us with
  | zero => exact h
  | succ n ih =>
    rw [← List.drop_tail, ← List.drop_tail]
    exact ih h.tail

theorem token? (h : p.At ts us) :
    Item.token? us = (Item.token? ts).map (Token.retext p.literal) := by
  cases ts with
  | nil =>
    rw [h.nil_right]
    rfl
  | cons t r =>
    obtain ⟨u, q, rfl, token, -⟩ := h.cons_right
    exact congrArg some token

theorem token?_eq_iff (h : p.At ts us) {t : Token} (plain : ∀ value, t ≠ .text value) :
    Item.token? us = some t ↔ Item.token? ts = some t := by
  rw [h.token?]
  cases Item.token? ts with
  | none => simp
  | some found => simp [Token.retext_eq_iff plain]

theorem isMark (h : p.At ts us) (m : Mark) : Item.isMark m us = Item.isMark m ts := by
  rw [Bool.eq_iff_iff]
  simp only [Item.isMark, beq_iff_eq]
  exact h.token?_eq_iff fun _ => Token.noConfusion

theorem isKeyword (h : p.At ts us) (k : Keyword) : Item.isKeyword k us = Item.isKeyword k ts := by
  rw [Bool.eq_iff_iff]
  simp only [Item.isKeyword, beq_iff_eq]
  exact h.token?_eq_iff fun _ => Token.noConfusion

theorem ahead (h : p.At ts us) (n : Nat) :
    Item.ahead n us = (Item.ahead n ts).map (Token.retext p.literal) :=
  (h.drop n).token?

theorem faultAt {A B : Type} {V : A → B → Prop} {cause cause' : Option Token → SyntaxCause}
    (h : p.At ts us)
    (retext : ∀ found, cause' (found.map (Token.retext p.literal)) =
      (cause found).retext p.literal) :
    p.Agree V (Ambient.faultAt cause ts : Read A) (Ambient.faultAt cause' us : Read B) := by
  refine .error ?_
  rw [h.token?]
  exact retext (Item.token? ts)

/-- What is skipped while a condition on tokens holds. -/
theorem dropWhile (h : p.At ts us) (while_ : Token → Bool)
    (plain : ∀ t : Token, while_ (t.retext p.literal) = while_ t) :
    p.At (ts.dropWhile fun i => while_ i.token) (us.dropWhile fun i => while_ i.token) := by
  induction ts generalizing us with
  | nil =>
    rw [h.nil_right]
    exact ⟨List.nil_suffix, List.nil_suffix, rfl⟩
  | cons t r ih =>
    obtain ⟨u, q, rfl, token, rest⟩ := h.cons_right
    rw [List.dropWhile_cons, List.dropWhile_cons, token, plain]
    cases while_ t.token with
    | true => exact ih rest
    | false => exact h

end At

theorem agree_readName (h : p.At ts us) : p.Agree (p.Steps Eq) (readName ts) (readName us) := by
  cases ts with
  | nil =>
    obtain rfl := h.nil_right
    exact h.faultAt fun _ => rfl
  | cons t r =>
    obtain ⟨u, q, rfl, token, rest⟩ := h.cons_right
    rw [readName, readName, token, Token.nameOf?_retext]
    cases nameOf? t.token with
    | none => exact h.faultAt fun _ => rfl
    | some name => exact .ok ⟨rfl, rest⟩

theorem agree_readMark (h : p.At ts us) (m : Mark) :
    p.Agree (p.Steps Eq) (readMark m ts) (readMark m us) := by
  cases ts with
  | nil =>
    obtain rfl := h.nil_right
    exact h.faultAt fun _ => rfl
  | cons t r =>
    obtain ⟨u, q, rfl, token, rest⟩ := h.cons_right
    rw [readMark, readMark, token]
    by_cases marked : t.token = .mark m
    · rw [if_pos marked, if_pos (by simpa using marked)]
      exact .ok ⟨rfl, rest⟩
    · rw [if_neg marked, if_neg (by simpa using marked)]
      exact h.faultAt fun _ => rfl

theorem at_dropMark (h : p.At ts us) (m : Mark) : p.At (dropMark m ts) (dropMark m us) := by
  unfold dropMark
  rw [h.isMark]
  split
  · exact h.tail
  · exact h

theorem at_dropGlobal (h : p.At ts us) : p.At (dropGlobal ts) (dropGlobal us) := by
  have same : isGlobalQualifier us = isGlobalQualifier ts := by
    have first := h.token?_eq_iff (t := .ident "global") fun _ => Token.noConfusion
    have second := (h.drop 1).token?_eq_iff (t := .mark .doubleColon) fun _ => Token.noConfusion
    rw [Bool.eq_iff_iff]
    simp only [isGlobalQualifier, Bool.and_eq_true, beq_iff_eq, Item.ahead, first, second]
  unfold dropGlobal
  rw [same]
  split
  · exact h.drop 2
  · exact h

theorem at_group (opening closing : Mark) (inner : Nat) (h : p.At ts us) :
    p.At (Skip.group opening closing inner ts) (Skip.group opening closing inner us) := by
  induction ts generalizing us inner with
  | nil =>
    obtain rfl := h.nil_right
    exact h
  | cons t r ih =>
    obtain ⟨u, q, rfl, token, rest⟩ := h.cons_right
    simp only [Skip.group, token, Token.retext_eq_mark]
    split
    · exact ih _ rest
    · split
      · cases inner with
        | zero => exact rest
        | succ n => exact ih n rest
      · exact ih _ rest

theorem at_wholeGroup (opening closing : Mark) (h : p.At ts us) :
    p.At (Skip.wholeGroup opening closing ts) (Skip.wholeGroup opening closing us) :=
  at_group opening closing 0 h

theorem at_member (depth : Nat) (h : p.At ts us) :
    p.At (Skip.member depth ts) (Skip.member depth us) := by
  induction ts generalizing us depth with
  | nil =>
    obtain rfl := h.nil_right
    exact h
  | cons t r ih =>
    obtain ⟨u, q, rfl, token, rest⟩ := h.cons_right
    rw [Skip.member, Skip.member, token]
    cases t.token with
    | mark m =>
      cases m with
      | semicolon =>
        show p.At (if depth = 0 then r else _) (if depth = 0 then q else _)
        split
        · exact rest
        · exact ih depth rest
      | openBrace =>
        show p.At (if depth = 0 then dropMark .semicolon (Skip.braces r) else _)
          (if depth = 0 then dropMark .semicolon (Skip.braces q) else _)
        split
        · exact at_dropMark (at_wholeGroup .openBrace .closeBrace rest) .semicolon
        · exact ih depth rest
      | closeBrace =>
        show p.At (if depth = 0 then t :: r else _) (if depth = 0 then u :: q else _)
        split
        · exact h
        · exact ih depth rest
      | _ => exact ih _ rest
    | _ => exact ih _ rest

theorem at_expression (generics : Bool) (n : Skip.Nesting) (h : p.At ts us) :
    p.At (Skip.expression generics n ts) (Skip.expression generics n us) := by
  induction ts generalizing us n with
  | nil =>
    obtain rfl := h.nil_right
    exact h
  | cons t r ih =>
    obtain ⟨u, q, rfl, token, rest⟩ := h.cons_right
    have same : n.step? generics u.token = n.step? generics t.token := by
      rw [token]
      cases t.token <;> rfl
    rw [Skip.expression, Skip.expression, same]
    split
    · exact h
    · exact ih _ rest

end Pairing
end Ambient
