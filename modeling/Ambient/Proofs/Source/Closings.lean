import Ambient.Proofs.Source.Bodies
import Ambient.Proofs.Source.Turns

/-!
# Where bodies are closed

The loops through the bodies of namespaces, classes and enums and through lists of accessors end
behind a closing brace only. What is passed over with a pair of braces ends behind the brace that
matches the opening one, or it reaches to the end of the text.
-/
namespace Ambient
open Token
variable {ts us rest : List Item}

/-- What is left of `ts` behind a closing brace. -/
def Closing (ts rest : List Item) : Prop :=
  ∃ brace : Item, brace.token = .mark .closeBrace ∧ brace :: rest <:+ ts

theorem Closing.of_suffix (h : Closing us rest) (behind : us <:+ ts) : Closing ts rest := by
  obtain ⟨brace, closes, left⟩ := h
  exact ⟨brace, closes, left.trans behind⟩

theorem Closing.ne_nil (h : Closing ts rest) : ts ≠ [] := by
  obtain ⟨brace, -, left⟩ := h
  rintro rfl
  cases List.suffix_nil.mp left

/-- What holds of the end of the last turn of a loop holds of the end of the loop, if it holds as
well where more items stand in front. -/
theorem Loop.Advances.of_ends {σ α : Type} {l : Loop σ α} {s : σ} {value : α}
    {rest : List Item} {P : List Item → List Item → Prop} (advances : l.Advances)
    (wider : ∀ {ts us rest}, P us rest → us <:+ ts → P ts rest)
    (ends : ∀ {s value rest}, l.turn s = .ok (.ends value rest) → P (l.items s) rest)
    (read : l.read s = .ok (value, rest)) : P (l.items s) rest := by
  induction size : (l.items s).length using Nat.strongRecOn generalizing s value with
  | ind n ih =>
    subst size
    have first := advances s
    generalize turned : l.turn s = turn at first
    cases first with
    | fails failed => cases failed.symm.trans read
    | ends ended =>
      cases ended.symm.trans read
      exact ends turned
    | @goesOn change next onward shorter =>
      obtain ⟨⟨inner, behind⟩, later, same⟩ := map_eq_ok (onward.symm.trans read)
      cases same
      exact wider (ih _ shorter.1 later rfl) shorter.2

namespace Host
variable {src : List Char}

theorem closing_of_readClassBody {typeName space : String} {body : Body}
    (h : Takes (readClassBody src typeName space ts) body rest) : Closing ts rest := by
  refine (advances_classBody src typeName space).of_ends Closing.of_suffix
    (fun {ts _ _} ended => ?_) (takes_iff.mp h)
  replace ended : classTurn src typeName space ts = _ := ended
  unfold classTurn at ended
  split at ended
  · cases ended
  · split at ended
    · rename_i t r closes
      cases ended
      exact ⟨t, closes, List.suffix_rfl⟩
    · split at ended
      · cases ended
      · simp only [bind, Except.bind, pure, Except.pure] at ended
        split at ended
        · cases ended
        · split at ended <;> split at ended <;> cases ended

theorem closing_of_readEnumValues {values : List Member}
    (h : Takes (readEnumValues src ts) values rest) : Closing ts rest := by
  refine (advances_enumValues src).of_ends Closing.of_suffix (fun {ts _ _} ended => ?_)
    (takes_iff.mp h)
  replace ended : enumTurn src ts = _ := ended
  simp only [enumTurn, bind, Except.bind, pure, Except.pure] at ended
  split at ended
  · cases ended
  rename_i lead _
  have left := lead.short.2
  split at ended
  · cases ended
  rename_i t r front
  rw [front] at left
  split at ended
  · rename_i closes
    cases ended
    exact ⟨t, closes, left⟩
  split at ended
  · cases ended
  rename_i named _
  have behind := ((readInitializer src named.rest).short.2.trans named.shorter.2).trans left
  split at ended
  · cases ended
  rename_i u q last
  rw [last] at behind
  split at ended
  · cases ended
  split at ended
  · rename_i closes
    cases ended
    exact ⟨u, closes, behind⟩
  · cases ended

theorem closing_of_readAccessors {readable : Bool}
    (h : Takes (readAccessors src ts) readable rest) : Closing ts rest := by
  refine (advances_accessors src).of_ends Closing.of_suffix (fun {ts _ _} ended => ?_)
    (takes_iff.mp h)
  replace ended : accessorTurn src ts = _ := ended
  unfold accessorTurn at ended
  split at ended
  · cases ended
  split at ended
  · rename_i t r closes
    cases ended
    exact ⟨t, closes, List.suffix_rfl⟩
  simp only [bind, Except.bind, pure, Except.pure] at ended
  split at ended
  · cases ended
  split at ended
  · cases ended
  split at ended <;> cases ended

/-- What is left of `ts` behind a closing brace and a semicolon right behind that. -/
def ClosingPart (ts rest : List Item) : Prop :=
  ∃ after, Closing ts after ∧ rest = dropMark .semicolon after

theorem closing_of_readNamespaceBody {space : String} {value : List Part}
    (h : Passes (readNamespaceBody src space true ts) value rest) : ClosingPart ts rest := by
  have wider : ∀ {ts us rest}, ClosingPart us rest → us <:+ ts → ClosingPart ts rest := by
    rintro ts us _ ⟨after, closing, rfl⟩ behind
    exact ⟨after, closing.of_suffix behind, rfl⟩
  have ends : ∀ {s value rest}, (namespaceBody src true).turn s = .ok (.ends value rest) →
      ClosingPart ((namespaceBody src true).items s) rest := by
    rintro ⟨space, ts⟩ _ _ ended
    replace ended : namespaceTurn src true space ts = _ := ended
    show ClosingPart ts _
    unfold namespaceTurn at ended
    split at ended
    · cases ended
    split at ended
    · rename_i t r closes
      cases ended
      exact ⟨r, ⟨t, closes.2, List.suffix_rfl⟩, rfl⟩
    simp only [bind, Except.bind, pure, Except.pure] at ended
    split at ended
    · cases ended
    split at ended
    · split at ended <;> cases ended
    split at ended
    · cases ended
    split at ended
    · split at ended
      · cases ended
      split at ended
      · cases ended
      split at ended
      · cases ended
      split at ended <;> cases ended
    split at ended
    · cases ended
    split at ended <;> cases ended
  have read : (namespaceBody src true).read (space, ts) = .ok (value, rest) :=
    h.elim fun _ read => congrArg remainder read
  exact (advances_namespaceBody src true).of_ends (P := ClosingPart) wider ends read

end Host

namespace Skip

/-- What is behind the brace that closes the outermost of the groups that are open. -/
def outside (inner : Nat) (ts : List Item) : List Item :=
  match inner with
  | 0 => ts
  | n + 1 => group .openBrace .closeBrace n ts

/-- The innermost group that is open is closed by the brace that matches its own, or it reaches to
the end of the items. -/
theorem group_closes_or (inner : Nat) (ts : List Item) :
    (∃ taken brace behind, ts = taken ++ brace :: behind ∧ brace.token = .mark .closeBrace ∧
      Braced (taken.map (·.token)) ∧
      group .openBrace .closeBrace inner ts = outside inner behind) ∨
    group .openBrace .closeBrace inner ts = [] := by
  induction size : ts.length using Nat.strongRecOn generalizing inner ts with
  | ind n ih =>
    subst size
    cases ts with
    | nil => exact .inr (by rw [group])
    | cons t r =>
      have fewer : r.length < (t :: r).length := Nat.lt_succ_self _
      by_cases opens : t.token = .mark .openBrace
      · rw [group_opens opens]
        rcases ih r.length fewer (inner + 1) r rfl with
          ⟨inside, brace, more, rfl, last, braced, same⟩ | all
        · rw [List.length_append, List.length_cons] at fewer
          have shorter : more.length < (t :: (inside ++ brace :: more)).length := by omega
          rw [same, outside]
          rcases ih more.length shorter inner more rfl with
            ⟨taken, brace', behind, rfl, last', braced', same'⟩ | all
          · refine .inl ⟨t :: (inside ++ brace :: taken), brace', behind, ?_, last', ?_, same'⟩
            · simp only [List.cons_append, List.append_assoc]
            · rw [List.map_cons, List.map_append, List.map_cons, opens, last]
              exact .block braced braced'
          · exact .inr all
        · exact .inr all
      by_cases closes : t.token = .mark .closeBrace
      · refine .inl ⟨[], t, r, rfl, closes, .nil, ?_⟩
        cases inner with
        | zero => rw [group, if_neg opens, if_pos closes, outside]
        | succ m => exact group_closes closes
      · rw [group_other opens closes]
        rcases ih r.length fewer inner r rfl with
          ⟨taken, brace, behind, rfl, last, braced, same⟩ | all
        · exact .inl ⟨t :: taken, brace, behind, rfl, last, .other opens closes braced, same⟩
        · exact .inr all

end Skip

end Ambient
