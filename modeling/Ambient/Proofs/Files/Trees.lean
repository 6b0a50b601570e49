import Ambient.FileTree
import Ambient.Proofs.Path.Descend
import Mathlib.Data.String.Basic

/-!
# Putting a file into a tree

A tree shows itself through the texts of its files and the places of its directories. A file that is
put into a directory, where no directory stands yet, changes one text and nothing else.
-/
namespace Ambient.FileTree

mutual
/-- The entries of every directory have proper names and stand in the order of their names. -/
def WellFormed : FileTree → Prop
  | file _ => True
  | dir entries => WellFormedIn entries

def WellFormedIn : List (String × FileTree) → Prop
  | [] => True
  | (name, t) :: more =>
    Path.IsEntry name ∧ (∀ e ∈ more, name < e.1) ∧ t.WellFormed ∧ WellFormedIn more
end

def textAt (t : FileTree) (place : List String) : Option String :=
  match t.find? place with
  | some (file text) => some text
  | _ => none

def dirAt (t : FileTree) (place : List String) : Bool := (t.find? place).any (·.isDir)

/-- A file can be put at this place. -/
def Room (t : FileTree) (place : List String) : Prop :=
  t.dirAt place.dropLast = true ∧ t.dirAt place = false

variable {t c : FileTree} {es : List (String × FileTree)} {name n m text : String}
  {place q : List String} {change : FileTree → FileTree} {enters : String → Bool}

@[simp] theorem child?_file : (file text).child? n = none := rfl

@[simp] theorem child?_nil : (dir []).child? n = none := rfl

theorem child?_cons :
    (dir ((m, t) :: es)).child? n = if m = n then some t else (dir es).child? n := by
  by_cases same : m = n
  · simp [child?, entries, same]
  · simp [child?, entries, same, List.find?_cons_of_neg]

theorem child?_of_lt (later : ∀ e ∈ es, name < e.1) : (dir es).child? name = none := by
  induction es with
  | nil => rfl
  | cons e more ih =>
    obtain ⟨m, t⟩ := e
    have first : m ≠ name := fun same => lt_irrefl name (same ▸ later (m, t) List.mem_cons_self)
    rw [child?_cons, if_neg first]
    exact ih fun e he => later e (List.mem_cons_of_mem _ he)

/-- The entries of a well-formed directory come after its first one. -/
theorem after_of_first (wf : WellFormedIn ((m, t) :: es)) (first : ¬ m < name)
    (other : m ≠ name) :
    ∀ e ∈ (m, t) :: es, name < e.1 := by
  have after : name < m := lt_of_le_of_ne (not_lt.mp first) (Ne.symm other)
  intro e he
  rcases List.mem_cons.mp he with rfl | he
  · exact after
  · exact lt_trans after (wf.2.1 e he)

theorem mem_update {e : String × FileTree} (h : e ∈ update name change es) :
    e.1 = name ∨ ∃ old ∈ es, old.1 = e.1 := by
  induction es with
  | nil =>
    rw [update, List.mem_singleton] at h
    exact .inl (congrArg Prod.fst h)
  | cons d more ih =>
    obtain ⟨m, t⟩ := d
    rw [update] at h
    split at h
    · rcases List.mem_cons.mp h with rfl | h
      · exact .inr ⟨_, List.mem_cons_self, rfl⟩
      · rcases ih h with here | ⟨old, hold, same⟩
        · exact .inl here
        · exact .inr ⟨old, List.mem_cons_of_mem _ hold, same⟩
    · split at h
      · rename_i same
        rcases List.mem_cons.mp h with rfl | h
        · exact .inl same
        · exact .inr ⟨e, List.mem_cons_of_mem _ h, rfl⟩
      · rcases List.mem_cons.mp h with rfl | h
        · exact .inl rfl
        · exact .inr ⟨e, h, rfl⟩

/-- What `update` finds under its name is what a lookup finds. -/
theorem child?_update (wf : WellFormedIn es) : (dir (update name change es)).child? n =
    if n = name then some (change (((dir es).child? name).getD empty)) else (dir es).child? n := by
  induction es with
  | nil =>
    rw [update, child?_cons]
    by_cases same : n = name
    · simp [same]
    · rw [if_neg same, if_neg (Ne.symm same)]
  | cons e more ih =>
    obtain ⟨m, t⟩ := e
    have rest : WellFormedIn more := wf.2.2.2
    rw [update]
    by_cases before : m < name
    · have other : m ≠ name := ne_of_lt before
      rw [if_pos before, child?_cons, ih rest, child?_cons, if_neg other, child?_cons]
      by_cases same : m = n
      · have apart : n ≠ name := fun h => other (same.trans h)
        simp [same, apart]
      · simp [same]
    · rw [if_neg before]
      by_cases here : m = name
      · subst here
        rw [if_pos rfl, child?_cons, child?_cons, if_pos rfl, child?_cons]
        by_cases same : n = m
        · simp [same]
        · rw [if_neg same, if_neg (Ne.symm same), if_neg (Ne.symm same)]
      · -- the name is new, and all entries come after it
        have none := child?_of_lt (after_of_first wf before here)
        rw [if_neg here, child?_cons, none]
        by_cases same : n = name
        · simp [same]
        · rw [if_neg same, if_neg (Ne.symm same)]

theorem wellFormedIn_update (wf : WellFormedIn es) (proper : Path.IsEntry name)
    (new : (change (((dir es).child? name).getD empty)).WellFormed) :
    WellFormedIn (update name change es) := by
  induction es with
  | nil => exact ⟨proper, by simp, new, trivial⟩
  | cons e more ih =>
    obtain ⟨m, t⟩ := e
    obtain ⟨entry, later, sub, rest⟩ := wf
    rw [update]
    by_cases before : m < name
    · rw [if_pos before]
      rw [child?_cons, if_neg (ne_of_lt before)] at new
      refine ⟨entry, fun e he => ?_, sub, ih rest new⟩
      rcases mem_update he with here | ⟨old, hold, same⟩
      · rw [here]
        exact before
      · rw [← same]
        exact later old hold
    · rw [if_neg before]
      by_cases here : m = name
      · rw [child?_cons, if_pos here] at new
        rw [if_pos here]
        exact ⟨entry, later, new, rest⟩
      · have all := after_of_first ⟨entry, later, sub, rest⟩ before here
        rw [child?_of_lt all] at new
        rw [if_neg here]
        exact ⟨proper, all, new, entry, later, sub, rest⟩

theorem update_same (wf : WellFormedIn es) (found : (dir es).child? name = some c)
    (stays : change c = c) : update name change es = es := by
  induction es with
  | nil => simp at found
  | cons e more ih =>
    obtain ⟨m, t⟩ := e
    rw [update]
    by_cases before : m < name
    · rw [child?_cons, if_neg (ne_of_lt before)] at found
      rw [if_pos before, ih wf.2.2.2 found]
    · by_cases here : m = name
      · rw [child?_cons, if_pos here] at found
        rw [if_neg before, if_pos here, Option.some.inj found, stays]
      · rw [child?_of_lt (after_of_first wf before here)] at found
        cases found

theorem wellFormed_of_child? (wf : t.WellFormed) (found : t.child? name = some c) :
    c.WellFormed := by
  cases t with
  | file text => cases found
  | dir es =>
    rw [WellFormed] at wf
    induction es with
    | nil => cases found
    | cons e more ih =>
      obtain ⟨m, t⟩ := e
      obtain ⟨-, -, sub, rest⟩ := wf
      rw [child?_cons] at found
      split at found
      · exact Option.some.inj found ▸ sub
      · exact ih rest found

@[simp] theorem find?_cons : t.find? (n :: q) = (t.child? n).bind (·.find? q) := rfl

theorem textAt_cons : t.textAt (n :: q) = (t.child? n).bind (·.textAt q) := by
  unfold textAt
  rw [find?_cons]
  cases t.child? n <;> rfl

theorem dirAt_cons : t.dirAt (n :: q) = (t.child? n).any (·.dirAt q) := by
  unfold dirAt
  rw [find?_cons]
  cases t.child? n <;> rfl

@[simp] theorem dirAt_nil : t.dirAt [] = t.isDir := rfl

@[simp] theorem textAt_dir_nil : (dir es).textAt [] = none := rfl

theorem textAt_of_dirAt (h : t.dirAt q = true) : t.textAt q = none := by
  unfold dirAt at h
  unfold textAt
  cases found : t.find? q with
  | none => rfl
  | some c =>
    rw [found] at h
    cases c with
    | file text => cases h
    | dir es => rfl

@[simp] theorem textAt_file_cons : (file text).textAt (n :: q) = none := rfl

@[simp] theorem dirAt_file : (file text).dirAt q = false := by cases q <;> rfl

/-- Whoever reaches a file or a directory went through directories. -/
theorem exists_dir_of_dirAt_dropLast (h : t.dirAt (n :: q).dropLast = true) :
    ∃ es, t = dir es := by
  cases t with
  | file text => simp at h
  | dir es => exact ⟨es, rfl⟩

theorem room_cons (room : Room t (n :: m :: q)) :
    ∃ c, t.child? n = some c ∧ Room c (m :: q) := by
  obtain ⟨above, free⟩ := room
  rw [List.dropLast_cons_cons, dirAt_cons] at above
  rw [dirAt_cons] at free
  cases child : t.child? n with
  | none => simp [child] at above
  | some c => exact ⟨c, rfl, by simpa [child] using above, by simpa [child] using free⟩

theorem not_room_nil : ¬ Room t [] := by
  rintro ⟨above, free⟩
  rw [List.dropLast_nil] at above
  rw [above] at free
  cases free

/-- The child on the way to a place with room is put in its own place. -/
theorem child?_put (wf : t.WellFormed) (room : Room t (name :: place)) :
    (t.put (name :: place) c).child? n =
      if n = name then some (((t.child? name).getD empty).put place c) else t.child? n := by
  obtain ⟨es, rfl⟩ := exists_dir_of_dirAt_dropLast room.1
  rw [put]
  exact child?_update wf

theorem textAt_put (wf : t.WellFormed) (room : Room t place) :
    (t.put place (file text)).textAt q = if q = place then some text else t.textAt q := by
  induction place generalizing t q with
  | nil => exact absurd room not_room_nil
  | cons name rest ih =>
    obtain ⟨es, rfl⟩ := exists_dir_of_dirAt_dropLast room.1
    cases q with
    | nil => rfl
    | cons n q =>
      rw [textAt_cons, child?_put wf room, textAt_cons]
      by_cases same : n = name
      · subst same
        rw [if_pos rfl, Option.bind_some]
        cases rest with
        | nil =>
          -- no directory is here, so nothing lies below
          have free := room.2
          rw [dirAt_cons] at free
          rw [put]
          cases q with
          | nil => simp [textAt, find?]
          | cons k q =>
            cases child : (dir es).child? n with
            | none => simp
            | some c =>
              rw [child] at free
              cases c with
              | file old => simp
              | dir sub => cases free
        | cons m rest =>
          obtain ⟨c, child, inner⟩ := room_cons room
          rw [child, Option.getD_some, ih (wellFormed_of_child? wf child) inner]
          simp
      · rw [if_neg same, if_neg (fun h => same (List.cons.inj h).1)]

theorem dirAt_put (wf : t.WellFormed) (room : Room t place) :
    (t.put place (file text)).dirAt q = t.dirAt q := by
  induction place generalizing t q with
  | nil => exact absurd room not_room_nil
  | cons name rest ih =>
    obtain ⟨es, rfl⟩ := exists_dir_of_dirAt_dropLast room.1
    cases q with
    | nil => rfl
    | cons n q =>
      rw [dirAt_cons, child?_put wf room, dirAt_cons]
      by_cases same : n = name
      · subst same
        rw [if_pos rfl]
        cases rest with
        | nil =>
          have free := room.2
          rw [dirAt_cons] at free
          rw [put]
          cases child : (dir es).child? n with
          | none => simp
          | some c =>
            rw [child] at free
            cases c with
            | file old => simp
            | dir sub => cases free
        | cons m rest =>
          obtain ⟨c, child, inner⟩ := room_cons room
          rw [child, Option.getD_some, Option.any_some,
            ih (wellFormed_of_child? wf child) inner, Option.any_some]
      · rw [if_neg same]

theorem wellFormed_put (wf : t.WellFormed) (proper : ∀ n ∈ place, Path.IsEntry n)
    (room : Room t place) : (t.put place (file text)).WellFormed := by
  induction place generalizing t with
  | nil => exact absurd room not_room_nil
  | cons name rest ih =>
    obtain ⟨es, rfl⟩ := exists_dir_of_dirAt_dropLast room.1
    rw [put]
    refine wellFormedIn_update wf (proper name List.mem_cons_self) ?_
    cases rest with
    | nil => trivial
    | cons m rest =>
      obtain ⟨c, child, inner⟩ := room_cons room
      rw [show (dir (dir es).entries).child? name = some c from child, Option.getD_some]
      exact ih (wellFormed_of_child? wf child) (fun n hn => proper n (List.mem_cons_of_mem _ hn))
        inner

theorem put_same (wf : t.WellFormed) (found : t.find? place = some c) : t.put place c = t := by
  induction place generalizing t with
  | nil => exact (Option.some.inj found).symm
  | cons name rest ih =>
    cases t with
    | file old => cases found
    | dir es =>
      rw [find?_cons] at found
      cases child : (dir es).child? name with
      | none => rw [child] at found; cases found
      | some d =>
        rw [child, Option.bind_some] at found
        rw [put]
        exact congrArg dir (update_same wf child (ih (wellFormed_of_child? wf child) found))

theorem find?_of_textAt (h : t.textAt place = some text) : t.find? place = some (file text) := by
  unfold textAt at h
  split at h
  · rename_i found
    rw [found, Option.some.inj h]
  · cases h

/-- A listing that passes over the changed places does not change. -/
theorem filter_filesIn_update (wf : WellFormedIn es) {P : List String → Bool}
    (old : ∀ c, (dir es).child? name = some c → (change c).isDir = c.isDir ∧
      ((change c).files enters).filter (fun q => P (name :: q)) =
        (c.files enters).filter fun q => P (name :: q))
    (new : (dir es).child? name = none →
      ((change empty).files enters).filter (fun q => P (name :: q)) = []) :
    (filesIn enters (update name change es)).filter P = (filesIn enters es).filter P := by
  have piece : ∀ t : FileTree, ∀ n : String,
      (if t.isDir && !enters n then [] else (t.files enters).map (n :: ·)).filter P =
        if t.isDir && !enters n then []
        else ((t.files enters).filter fun q => P (n :: q)).map (n :: ·) := by
    intro t n
    split
    · rfl
    · exact List.filter_map
  have added : (dir es).child? name = none →
      (if (change empty).isDir && !enters name then []
        else ((change empty).files enters).map (name :: ·)).filter P = [] := by
    intro none
    rw [piece, new none]
    split <;> rfl
  induction es with
  | nil => simp only [update, filesIn, List.append_nil, List.filter_nil, added rfl]
  | cons e more ih =>
    obtain ⟨m, t⟩ := e
    rw [update]
    by_cases before : m < name
    · have other : m ≠ name := ne_of_lt before
      rw [child?_cons, if_neg other] at old new added
      rw [if_pos before, filesIn, filesIn, List.filter_append, List.filter_append,
        ih wf.2.2.2 old new added]
    · rw [if_neg before]
      by_cases here : m = name
      · obtain ⟨kind, listing⟩ := old t (by rw [child?_cons, if_pos here])
        rw [if_pos here, filesIn, filesIn, List.filter_append, List.filter_append, piece, piece,
          kind, here, listing]
      · have none := child?_of_lt (after_of_first wf before here)
        rw [if_neg here, filesIn, List.filter_append, added none, List.nil_append]

theorem filter_files_put (wf : t.WellFormed) (room : Room t place) {P : List String → Bool}
    (passed : P place = false) :
    ((t.put place (file text)).files enters).filter P = (t.files enters).filter P := by
  induction place generalizing t P with
  | nil => exact absurd room not_room_nil
  | cons name rest ih =>
    obtain ⟨es, rfl⟩ := exists_dir_of_dirAt_dropLast room.1
    rw [put, files, files]
    refine filter_filesIn_update wf ?_ ?_
    · intro c child
      cases rest with
      | nil =>
        have free := room.2
        rw [dirAt_cons, child] at free
        cases c with
        | file old => exact ⟨rfl, by rw [put, files, files]⟩
        | dir sub => cases free
      | cons m rest =>
        obtain ⟨d, found, inner⟩ := room_cons room
        obtain rfl : d = c := Option.some.inj (found.symm.trans child)
        have sub := wellFormed_of_child? (t := dir es) wf child
        refine ⟨?_, ih sub inner passed⟩
        rw [← dirAt_nil, dirAt_put sub inner, dirAt_nil]
    · intro none
      cases rest with
      | nil => simp [put, files, passed]
      | cons m rest =>
        obtain ⟨d, found, -⟩ := room_cons room
        rw [none] at found
        cases found

/-- The files below a place. -/
def filesAt (t : FileTree) (enters : String → Bool) (q : List String) : List (List String) :=
  ((t.find? q).map (·.files enters)).getD []

theorem filter_filesAt_put (wf : t.WellFormed) (room : Room t place) {P : List String → Bool}
    (passed : ∀ below, q ++ below = place → P below = false) :
    ((t.put place (file text)).filesAt enters q).filter P = (t.filesAt enters q).filter P := by
  induction q generalizing t place with
  | nil => exact filter_files_put wf room (passed place rfl)
  | cons n q ih =>
    cases place with
    | nil => exact absurd room not_room_nil
    | cons name rest =>
      unfold filesAt
      rw [find?_cons, find?_cons, child?_put wf room]
      by_cases same : n = name
      · subst same
        have inside : ∀ below, q ++ below = rest → P below = false := fun below h =>
          passed below (congrArg (n :: ·) h)
        rw [if_pos rfl, Option.bind_some]
        cases rest with
        | nil =>
          have free := room.2
          rw [dirAt_cons] at free
          rw [put]
          cases q with
          | nil =>
            have here : P [] = false := inside [] rfl
            cases child : t.child? n with
            | none => simp [find?, files, here]
            | some c =>
              rw [child] at free
              cases c with
              | file old => simp [find?, files]
              | dir sub => cases free
          | cons k q =>
            cases child : t.child? n with
            | none => simp
            | some c =>
              rw [child] at free
              cases c with
              | file old => simp
              | dir sub => cases free
        | cons m rest =>
          obtain ⟨c, child, inner⟩ := room_cons room
          rw [child, Option.getD_some, Option.bind_some]
          exact ih (wellFormed_of_child? wf child) inner inside
      · rw [if_neg same]

end Ambient.FileTree
