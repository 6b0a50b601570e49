import Ambient.SyntaxFault

/-!
# What a step of reading gives

The steps of a reader are put together from smaller ones. These rules say what becomes of the value
that was read and of the items that are left; the proofs that items were taken do not matter.
-/
namespace Ambient

theorem map_eq_ok {ε α β : Type} {f : α → β} {x : Except ε α} {b : β}
    (h : x.map f = .ok b) :
    ∃ a, x = .ok a ∧ f a = b := by
  cases x with
  | error e => cases h
  | ok a => exact ⟨a, rfl, Except.ok.inj h⟩

theorem map_eq_error {ε α β : Type} {f : α → β} {x : Except ε α} {e : ε}
    (h : x.map f = .error e) : x = .error e := by
  cases x with
  | error e' => exact congrArg Except.error (Except.error.inj h)
  | ok a => cases h

namespace Left
variable {α β : Type} {ts us : List Item}

@[simp] theorem value_keep (value : α) : (keep value ts).value = value := rfl

@[simp] theorem rest_keep (value : α) : (keep value ts).rest = ts := rfl

@[simp] theorem value_tail (value : α) : (tail value ts).value = value := rfl

@[simp] theorem rest_tail (value : α) : (tail value ts).rest = ts.tail := rfl

@[simp] theorem value_map (f : α → β) (l : Left α ts) : (l.map f).value = f l.value := rfl

@[simp] theorem rest_map (f : α → β) (l : Left α ts) : (l.map f).rest = l.rest := rfl

@[simp] theorem value_within (l : Left α us) (h : Short us ts) :
    (l.within h).value = l.value := rfl

@[simp] theorem rest_within (l : Left α us) (h : Short us ts) : (l.within h).rest = l.rest := rfl

@[simp] theorem value_past (l : Left α us) (h : Shorter us ts) : (l.past h).value = l.value := rfl

@[simp] theorem rest_past (l : Left α us) (h : Shorter us ts) : (l.past h).rest = l.rest := rfl

@[simp] theorem value_behind (l : Left α us) (t : Item) : (l.behind t).value = l.value := rfl

@[simp] theorem rest_behind (l : Left α us) (t : Item) : (l.behind t).rest = l.rest := rfl

@[simp] theorem value_semicolon (value : α) : (semicolon value ts).value = value := rfl

@[simp] theorem rest_semicolon (value : α) :
    (semicolon value ts).rest = dropMark .semicolon ts := rfl

end Left

namespace Step
variable {α β : Type} {ts us : List Item}

@[simp] theorem value_one (value : α) (t : Item) (r : List Item) :
    (one value t r).value = value := rfl

@[simp] theorem rest_one (value : α) (t : Item) (r : List Item) : (one value t r).rest = r := rfl

@[simp] theorem value_left (s : Step α ts) : s.left.value = s.value := rfl

@[simp] theorem rest_left (s : Step α ts) : s.left.rest = s.rest := rfl

@[simp] theorem value_map (f : α → β) (s : Step α ts) : (s.map f).value = f s.value := rfl

@[simp] theorem rest_map (f : α → β) (s : Step α ts) : (s.map f).rest = s.rest := rfl

@[simp] theorem value_within (s : Step α us) (h : Short us ts) :
    (s.within h).value = s.value := rfl

@[simp] theorem rest_within (s : Step α us) (h : Short us ts) : (s.within h).rest = s.rest := rfl

@[simp] theorem value_past (s : Step α us) (h : Shorter us ts) : (s.past h).value = s.value := rfl

@[simp] theorem rest_past (s : Step α us) (h : Shorter us ts) : (s.past h).rest = s.rest := rfl

@[simp] theorem value_behind (s : Step α us) (t : Item) : (s.behind t).value = s.value := rfl

@[simp] theorem rest_behind (s : Step α us) (t : Item) : (s.behind t).rest = s.rest := rfl

end Step

section
variable {α β : Type} {ts us : List Item}

/-- The reader succeeds with this value, takes an item or more and leaves `rest`. -/
def Takes (read : Read (Step α ts)) (value : α) (rest : List Item) : Prop :=
  ∃ h, read = .ok ⟨value, rest, h⟩

/-- The reader succeeds with this value and leaves `rest`. -/
def Passes (read : Read (Left α ts)) (value : α) (rest : List Item) : Prop :=
  ∃ h, read = .ok ⟨value, rest, h⟩

/-- What is left with this value is `rest`. -/
def Leaves (left : Left α ts) (value : α) (rest : List Item) : Prop :=
  ∃ h, left = ⟨value, rest, h⟩

/-- What a reader gives and leaves. -/
def outcome (read : Read (Step α ts)) : Read (α × List Item) :=
  read.map fun s => (s.value, s.rest)

theorem takes_iff {read : Read (Step α ts)} {value : α} {rest : List Item} :
    Takes read value rest ↔ outcome read = .ok (value, rest) := by
  cases read with
  | error e => exact ⟨fun ⟨_, same⟩ => (nomatch same), fun same => nomatch same⟩
  | ok s =>
    obtain ⟨v, left, shorter⟩ := s
    constructor
    · rintro ⟨_, same⟩
      cases same
      rfl
    · intro same
      cases same
      exact ⟨shorter, rfl⟩

theorem leaves_iff {left : Left α ts} {value : α} {rest : List Item} :
    Leaves left value rest ↔ left.value = value ∧ left.rest = rest := by
  constructor
  · rintro ⟨_, rfl⟩
    exact ⟨rfl, rfl⟩
  · rintro ⟨rfl, rfl⟩
    exact ⟨left.short, rfl⟩

theorem takes_readName_of {i : Item} {name : String} {rest : List Item}
    (named : nameOf? i.token = some name) : Takes (readName (i :: rest)) name rest := by
  refine ⟨shorter_cons i rest, ?_⟩
  rw [readName]
  split
  · rename_i found
    cases named.symm.trans found
    rfl
  · rename_i none
    rw [named] at none
    cases none

theorem takes_readName {i : Item} {name : String} {rest : List Item} (h : ts = i :: rest)
    (named : i.token = .ident name) : Takes (readName ts) name rest := by
  subst h
  exact takes_readName_of (by rw [named, nameOf?])

theorem takes_readMark {i : Item} {m : Mark} {rest : List Item} (h : ts = i :: rest)
    (marked : i.token = .mark m) : Takes (readMark m ts) () rest := by
  subst h
  refine ⟨shorter_cons i rest, ?_⟩
  rw [readMark, if_pos marked]
  rfl

theorem exists_of_readName {s : Step String ts} (h : readName ts = .ok s) :
    ∃ t, ts = t :: s.rest ∧ nameOf? t.token = some s.value := by
  unfold readName at h
  split at h
  · cases h
  · rename_i t r
    split at h
    · rename_i named
      cases h
      exact ⟨t, rfl, named⟩
    · cases h

theorem exists_of_readMark {m : Mark} {s : Step Unit ts} (h : readMark m ts = .ok s) :
    ∃ t, ts = t :: s.rest ∧ t.token = .mark m := by
  unfold readMark at h
  split at h
  · cases h
  · rename_i t r
    split at h
    · rename_i marked
      cases h
      exact ⟨t, rfl, marked⟩
    · cases h

end

end Ambient
