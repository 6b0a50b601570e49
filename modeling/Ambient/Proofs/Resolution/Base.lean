import Ambient.Proofs.Resolution.Reach

/-!
# The search for a base

One step of the search looks at one entry of a base list and says what it comes to; the search is
the repetition of such steps. What it finds was looked up from some place on the way, and is a
declared class. The sidecar counts only where types elsewhere are assumed to exist.
-/
namespace Ambient

open Host

namespace Setting

/-- What an entry of a base list comes to: nothing, a declared class, a class of which only the home
is known, or an undeclared class whose own bases stand for it. -/
inductive BaseSense where
  | passed
  | declared (key : String) (e : Entry)
  | known (home : TypeHome)
  | opened (key : String) (e : Entry)

def baseSense (s : Setting) (sidecar : Sidecar) (visited : List String) (site : Site)
    (written : String) : BaseSense :=
  match TypeSyntax.parse written with
  | .ok (.named name _) =>
    if (KnownType.primitive? name).isSome then .passed
    else match s.lookup? site name with
      | some (key, e) =>
        if e.host.kind ≠ .classKind then .passed
        else if e.isDeclared then .declared key e
        else if visited.contains key then .passed
        else .opened key e
      | none =>
        match sidecar.findHome? name with
        | some home => if s.options.assumeExternalType then .known home else .passed
        | none => .passed
  | _ => .passed

/-- The bases of an undeclared class, each with the place where it is written. -/
def innerBases (s : Setting) (site : Site) (key : String) (e : Entry) : List (Site × String) :=
  e.host.bases.map (s.siteIn site.module_ key e.host, ·)

variable {s : Setting} {sidecar : Sidecar} {visited : List String} {site : Site}
variable {written key : String} {e : Entry} {work : List (Site × String)}

theorem searchBase_cons :
    s.searchBase sidecar visited ((site, written) :: work) =
      match s.baseSense sidecar visited site written with
      | .passed => s.searchBase sidecar visited work
      | .declared key e => some (.declared key e)
      | .known home => some (.known home)
      | .opened key e =>
        s.searchBase sidecar (key :: visited) (s.innerBases site key e ++ work) := by
  rw [searchBase]
  unfold baseSense innerBases
  cases TypeSyntax.parse written with
  | error fault => rfl
  | ok ty =>
    cases ty with
    | named name args =>
      dsimp only
      by_cases primitive : (KnownType.primitive? name).isSome = true
      · simp only [primitive, if_true]
      simp only [primitive, Bool.false_eq_true, if_false]
      cases s.lookup? site name with
      | none =>
        cases sidecar.findHome? name with
        | none => rfl
        | some home => by_cases assumes : s.options.assumeExternalType = true <;> simp [assumes]
      | some found =>
        dsimp only
        repeat' split
        all_goals simp_all
    | _ => rfl

theorem lookup?_of_base_declared (h : s.baseSense sidecar visited site written = .declared key e) :
    ∃ name, s.lookup? site name = some (key, e) ∧ e.host.kind = .classKind ∧
      e.isDeclared = true := by
  unfold baseSense at h
  repeat' split at h
  all_goals simp_all
  exact ⟨_, ‹_›⟩

theorem lookup?_of_base_opened (h : s.baseSense sidecar visited site written = .opened key e) :
    ∃ name, s.lookup? site name = some (key, e) ∧ e.host.kind = .classKind ∧
      e.isDeclared = false ∧ ¬ visited.contains key := by
  unfold baseSense at h
  repeat' split at h
  all_goals simp_all
  exact ⟨_, ‹_›⟩

/-- Induction along a search, with one case for each thing an entry can come to. -/
theorem searchBase_induction {motive : List String → List (Site × String) → Prop}
    (nil : ∀ visited, motive visited [])
    (passed : ∀ visited site written work,
      s.baseSense sidecar visited site written = .passed → motive visited work →
      motive visited ((site, written) :: work))
    (declared : ∀ visited site written work key e,
      s.baseSense sidecar visited site written = .declared key e →
      motive visited ((site, written) :: work))
    (known : ∀ visited site written work home,
      s.baseSense sidecar visited site written = .known home →
      motive visited ((site, written) :: work))
    (opened : ∀ visited site written work key e,
      s.baseSense sidecar visited site written = .opened key e →
      motive (key :: visited) (s.innerBases site key e ++ work) →
      motive visited ((site, written) :: work))
    (visited : List String) (work : List (Site × String)) : motive visited work := by
  match work with
  | [] => exact nil visited
  | (site, written) :: work =>
    cases sense : s.baseSense sidecar visited site written with
    | passed =>
      exact passed _ _ _ _ sense
        (searchBase_induction nil passed declared known opened visited work)
    | declared key e => exact declared _ _ _ _ key e sense
    | known home => exact known _ _ _ _ home sense
    | opened key e =>
      obtain ⟨name, found, _, _, fresh⟩ := lookup?_of_base_opened sense
      have := remaining_lt (mem_keys_of_lookup? found) fresh
      exact opened _ _ _ _ key e sense
        (searchBase_induction nil passed declared known opened (key :: visited)
          (s.innerBases site key e ++ work))
termination_by (s.remaining visited, work.length)

theorem baseSense_congr {a b : Sidecar} (same : s.options.assumeExternalType = true → a = b) :
    s.baseSense a visited site written = s.baseSense b visited site written := by
  by_cases assumes : s.options.assumeExternalType = true
  · rw [same assumes]
  · unfold baseSense
    simp only [assumes, Bool.false_eq_true, if_false]
    repeat' split
    all_goals rfl

theorem searchBase_congr {a b : Sidecar} (same : s.options.assumeExternalType = true → a = b)
    (visited : List String) (work : List (Site × String)) :
    s.searchBase a visited work = s.searchBase b visited work := by
  induction visited, work using @searchBase_induction s a with
  | nil visited => simp only [searchBase]
  | passed visited site written work sense ih =>
    rw [searchBase_cons, searchBase_cons, ← baseSense_congr same]
    simp only [sense, ih]
  | declared visited site written work key e sense =>
    rw [searchBase_cons, searchBase_cons, ← baseSense_congr same]
    simp only [sense]
  | known visited site written work home sense =>
    rw [searchBase_cons, searchBase_cons, ← baseSense_congr same]
    simp only [sense]
  | opened visited site written work key e sense ih =>
    rw [searchBase_cons, searchBase_cons, ← baseSense_congr same]
    simp only [sense, ih]

/-- What a search finds among declared types was looked up, and is a declared class. -/
theorem lookup?_of_searchBase (visited : List String) (work : List (Site × String))
    (h : s.searchBase sidecar visited work = some (.declared key e)) :
    ∃ site name, s.lookup? site name = some (key, e) ∧ e.host.kind = .classKind ∧
      e.isDeclared = true := by
  induction visited, work using @searchBase_induction s sidecar with
  | nil visited => simp [searchBase] at h
  | passed visited site written work sense ih =>
    rw [searchBase_cons] at h
    simp only [sense] at h
    exact ih h
  | declared visited site written work key' e' sense =>
    rw [searchBase_cons] at h
    simp only [sense, Option.some.injEq, FoundBase.declared.injEq] at h
    obtain ⟨rfl, rfl⟩ := h
    exact ⟨site, lookup?_of_base_declared sense⟩
  | known visited site written work home sense =>
    rw [searchBase_cons] at h
    simp [sense] at h
  | opened visited site written work key' e' sense ih =>
    rw [searchBase_cons] at h
    simp only [sense] at h
    exact ih h

/-- Where no types are assumed, a search finds declared classes only. -/
theorem searchBase_ne_known (assumes : s.options.assumeExternalType = false)
    (visited : List String) (work : List (Site × String)) (home : TypeHome) :
    s.searchBase sidecar visited work ≠ some (.known home) := by
  induction visited, work using @searchBase_induction s sidecar with
  | nil visited => simp [searchBase]
  | passed visited site written work sense ih =>
    rw [searchBase_cons]
    simpa only [sense] using ih
  | declared visited site written work key e sense =>
    rw [searchBase_cons]
    simp [sense]
  | known visited site written work home' sense =>
    unfold baseSense at sense
    repeat' split at sense
    all_goals simp_all
  | opened visited site written work key e sense ih =>
    rw [searchBase_cons]
    simpa only [sense] using ih

end Setting

end Ambient
