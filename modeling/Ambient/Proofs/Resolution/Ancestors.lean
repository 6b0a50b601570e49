import Ambient.Proofs.Resolution.Base
import Ambient.Proofs.Resolution.Progress

/-!
# The classes that a class inherits from

A class inherits from the declared classes among its bases and from those that its undeclared bases
inherit from. Undeclared classes may inherit from each other in circles, so these classes are listed
by a walk that goes into no class inside itself. The search for a base goes into no class twice at
all; it finds the first class of the walk nevertheless, since a class that was left without a result
leads only to classes that the search has met, and so to none that it has missed.
-/
namespace Ambient

open Host

namespace Setting

/-- The class that an entry of a base list means where it is written. -/
def baseClass? (s : Setting) (site : Site) (written : String) : Option (String × Entry) :=
  match TypeSyntax.parse written with
  | .ok (.named name _) =>
    if (KnownType.primitive? name).isSome then none
    else (s.lookup? site name).filter (·.2.host.kind = .classKind)
  | _ => none

variable {s : Setting} {sidecar : Sidecar} {site : Site} {written key outer : String} {e f : Entry}
  {above visited past bases more : List String} {work : List (Site × String)}

theorem lookup?_of_baseClass? (h : s.baseClass? site written = some (key, e)) :
    ∃ name, s.lookup? site name = some (key, e) ∧ e.host.kind = .classKind := by
  unfold baseClass? at h
  split at h
  · split at h
    · cases h
    · obtain ⟨found, kind⟩ := Option.filter_eq_some_iff.mp h
      exact ⟨_, found, of_decide_eq_true kind⟩
  · cases h

theorem get?_of_baseClass? (h : s.baseClass? site written = some (key, e)) :
    s.get? key = some e := by
  obtain ⟨name, found, -⟩ := lookup?_of_baseClass? h
  exact get?_of_lookup? found

theorem baseClass?_of_key (found : (s.baseClass? site written).map (·.1) = some key)
    (known : s.get? key = some e) : s.baseClass? site written = some (key, e) := by
  obtain ⟨⟨k, t⟩, means, rfl⟩ := Option.map_eq_some_iff.mp found
  rw [means, Option.some.inj ((get?_of_baseClass? means).symm.trans known)]

theorem remaining_lt_of_baseClass? (h : s.baseClass? site written = some (key, e))
    (fresh : ¬ above.contains key) : s.remaining (key :: above) < s.remaining above := by
  obtain ⟨name, found, -⟩ := lookup?_of_baseClass? h
  exact remaining_lt (mem_keys_of_lookup? found) fresh

/-- What an entry of a base list comes to where no types are assumed. -/
theorem baseSense_eq (assumes : s.options.assumeExternalType = false) :
    s.baseSense sidecar visited site written =
      match s.baseClass? site written with
      | none => .passed
      | some (key, e) =>
        if e.isDeclared then .declared key e
        else if visited.contains key then .passed
        else .opened key e := by
  unfold baseSense baseClass?
  cases TypeSyntax.parse written with
  | error fault => rfl
  | ok ty =>
    cases ty with
    | named name args =>
      by_cases primitive : (KnownType.primitive? name).isSome = true
      · simp only [primitive, if_true]
      · simp only [primitive, Bool.false_eq_true, if_false]
        cases s.lookup? site name with
        | none =>
          simp only [assumes, Bool.false_eq_true, if_false]
          cases sidecar.findHome? name with
          | none => rfl
          | some home => rfl
        | some entry =>
          obtain ⟨key, e⟩ := entry
          by_cases kind : e.host.kind = .classKind
          · simp [Option.filter_some, kind]
          · simp [Option.filter_some, kind]
    | _ => rfl

/-- `s.Inherits past site bases key e`: from the list `bases`, written at `site`, the
declared class `e` of the qualified name `key` is reached through undeclared classes, none of
which is in `past`. -/
inductive Inherits (s : Setting) (past : List String) :
    Site → List String → String → Entry → Prop
  | base {site : Site} {bases : List String} {written key : String} {e : Entry} :
    written ∈ bases → s.baseClass? site written = some (key, e) → e.isDeclared = true →
    Inherits s past site bases key e
  | through {site : Site} {bases : List String} {written outer key : String} {f e : Entry} :
    written ∈ bases → s.baseClass? site written = some (outer, f) → f.isDeclared = false →
    outer ∉ past → Inherits s past (s.siteIn site.module_ outer f.host) f.host.bases key e →
    Inherits s past site bases key e

/-- The declared classes in the order in which a walk through the bases comes to them, each as
often as it does. The walk goes through undeclared classes, but into none of those in `above`,
which it is inside of. -/
def ancestors (s : Setting) (above : List String) (site : Site) :
    List String → List (String × Entry)
  | [] => []
  | written :: more =>
    match h : s.baseClass? site written with
    | none => s.ancestors above site more
    | some (key, e) =>
      if e.isDeclared then (key, e) :: s.ancestors above site more
      else if hv : above.contains key then s.ancestors above site more
      else
        have := remaining_lt_of_baseClass? h hv
        s.ancestors (key :: above) (s.siteIn site.module_ key e.host) e.host.bases ++
          s.ancestors above site more
termination_by bases => (s.remaining above, bases.length)

theorem ancestors_nil : s.ancestors above site [] = [] := by
  rw [ancestors]

/-- The walk by the class that the first entry means. -/
theorem ancestors_cons (more : List String) :
    s.ancestors above site (written :: more) =
      (match s.baseClass? site written with
      | none => []
      | some (key, e) =>
        if e.isDeclared then [(key, e)]
        else if above.contains key then []
        else s.ancestors (key :: above) (s.siteIn site.module_ key e.host) e.host.bases) ++
        s.ancestors above site more := by
  rw [ancestors]
  split
  · rename_i none
    simp [none]
  · rename_i key e found
    simp only [found]
    split
    · simp
    · split <;> simp

theorem Inherits.mono (h : s.Inherits past site more key e)
    (sub : more ⊆ bases) : s.Inherits past site bases key e := by
  cases h with
  | base listed found declared => exact .base (sub listed) found declared
  | through listed found undeclared fresh inside =>
    exact .through (sub listed) found undeclared fresh inside

theorem inherits_of_mem_ancestors (h : (key, e) ∈ s.ancestors above site bases) :
    s.Inherits [] site bases key e := by
  fun_induction ancestors s above site bases with
  | case1 => cases h
  | case2 above site written more none ih => exact (ih h).mono (List.subset_cons_self _ _)
  | case3 above site written more outer f found declared ih =>
    rcases List.mem_cons.mp h with here | later
    · cases here
      exact .base List.mem_cons_self found declared
    · exact (ih later).mono (List.subset_cons_self _ _)
  | case4 above site written more outer f found undeclared inside ih =>
    exact (ih h).mono (List.subset_cons_self _ _)
  | case5 above site written more outer f found undeclared fresh _ ihInside ihMore =>
    rcases List.mem_append.mp h with inside | later
    · exact .through List.mem_cons_self found (by simpa using undeclared) List.not_mem_nil
        (ihInside inside)
    · exact (ihMore later).mono (List.subset_cons_self _ _)

/-- A path is cut at the last place where it goes into a class: what is inherited is inherited
without going into this class, or it is so from the bases of this class. -/
theorem Inherits.cut (h : s.Inherits past site bases key e) (outer : String) :
    s.Inherits (outer :: past) site bases key e ∨
      ∃ f, s.get? outer = some f ∧
        s.Inherits (outer :: past) (s.siteIn site.module_ outer f.host) f.host.bases key e := by
  induction h with
  | base listed found declared => exact .inl (.base listed found declared)
  | @through site bases written inner key f e listed found undeclared fresh _ ih =>
    rcases ih with past | ⟨f', known, last⟩
    · by_cases same : inner = outer
      · subst same
        exact .inr ⟨f, get?_of_baseClass? found, past⟩
      · exact .inl (.through listed found undeclared (by simp [same, fresh]) past)
    · exact .inr ⟨f', known, last⟩

/-- What is inherited comes from the first base, which is declared or stands for its own bases, or
from those after it. -/
theorem Inherits.cons (h : s.Inherits past site (written :: more) key e) :
    (s.baseClass? site written = some (key, e) ∧ e.isDeclared = true) ∨
      (∃ outer f, s.baseClass? site written = some (outer, f) ∧ f.isDeclared = false ∧
        outer ∉ past ∧
        s.Inherits past (s.siteIn site.module_ outer f.host) f.host.bases key e) ∨
      s.Inherits past site more key e := by
  cases h with
  | base listed found declared =>
    rcases List.mem_cons.mp listed with rfl | listed
    · exact .inl ⟨found, declared⟩
    · exact .inr (.inr (.base listed found declared))
  | through listed found undeclared fresh inside =>
    rcases List.mem_cons.mp listed with rfl | listed
    · exact .inr (.inl ⟨_, _, found, undeclared, fresh, inside⟩)
    · exact .inr (.inr (.through listed found undeclared fresh inside))

/-- The walk comes to every class that is inherited past those it is inside of. -/
theorem mem_ancestors_of_inherits (h : s.Inherits above site bases key e) :
    (key, e) ∈ s.ancestors above site bases := by
  fun_induction ancestors s above site bases with
  | case1 => cases h <;> contradiction
  | case2 above site written more none ih =>
    rcases h.cons with ⟨here, -⟩ | ⟨_, _, here, -⟩ | later
    · cases none.symm.trans here
    · cases none.symm.trans here
    · exact ih later
  | case3 above site written more outer f found declared ih =>
    rcases h.cons with ⟨here, -⟩ | ⟨_, _, here, undeclared, -⟩ | later
    · cases found.symm.trans here
      exact List.mem_cons_self
    · cases found.symm.trans here
      simp [undeclared] at declared
    · exact List.mem_cons_of_mem _ (ih later)
  | case4 above site written more outer f found undeclared entered ih =>
    rcases h.cons with ⟨here, declared⟩ | ⟨_, _, here, -, fresh, -⟩ | later
    · cases found.symm.trans here
      exact absurd declared undeclared
    · cases found.symm.trans here
      exact absurd (by simpa using entered) fresh
    · exact ih later
  | case5 above site written more outer f found undeclared fresh _ ihInside ihMore =>
    rw [List.mem_append]
    rcases h.cons with ⟨here, declared⟩ | ⟨_, _, here, -, -, inside⟩ | later
    · cases found.symm.trans here
      exact absurd declared undeclared
    · cases found.symm.trans here
      rcases inside.cut outer with past | ⟨f', known, last⟩
      · exact .inl (ihInside past)
      · cases (get?_of_baseClass? found).symm.trans known
        exact .inl (ihInside last)
    · exact .inr (ihMore later)

theorem mem_ancestors_iff : (key, e) ∈ s.ancestors [] site bases ↔
    s.Inherits [] site bases key e :=
  ⟨inherits_of_mem_ancestors, mem_ancestors_of_inherits⟩

/-- All classes that a list of bases means are undeclared, and the search has met them. -/
def Sealed (s : Setting) (visited : List String) (site : Site) (bases : List String) : Prop :=
  ∀ written ∈ bases, ∀ key e, s.baseClass? site written = some (key, e) →
    e.isDeclared = false ∧ key ∈ visited

/-- The classes that the search has met and that it is not inside of are done: their
bases are sealed. -/
def Closed (s : Setting) (above visited : List String) : Prop :=
  ∀ key ∈ visited, key ∉ above → ∀ e, s.get? key = some e → ∀ module_,
    s.Sealed visited (s.siteIn module_ key e.host) e.host.bases

theorem Sealed.mono {wider : List String} (h : s.Sealed visited site bases)
    (sub : visited ⊆ wider) :
    s.Sealed wider site bases :=
  fun written listed key e found => (h written listed key e found).imp_right (@sub key)

theorem Sealed.cons
    (here : ∀ key e, s.baseClass? site written = some (key, e) →
      e.isDeclared = false ∧ key ∈ visited)
    (later : s.Sealed visited site more) : s.Sealed visited site (written :: more) := by
  intro base listed key e found
  rcases List.mem_cons.mp listed with rfl | listed
  · exact here key e found
  · exact later base listed key e found

/-- The search goes into a class that it has not met. -/
theorem Closed.enter (closed : s.Closed above visited) (key : String) :
    s.Closed (key :: above) (key :: visited) := by
  intro k hk outside t known module_
  have apart := List.ne_of_not_mem_cons outside
  exact (closed k ((List.mem_cons.mp hk).resolve_left apart) (List.not_mem_of_not_mem_cons outside)
    t known module_).mono (List.subset_cons_self key visited)

/-- The search is done with a class whose bases are sealed. -/
theorem Closed.leave (closed : s.Closed (key :: above) visited) (known : s.get? key = some e)
    (shut : s.Sealed visited (s.siteIn site.module_ key e.host) e.host.bases) :
    s.Closed above visited := by
  intro k hk outside t known' module_
  by_cases here : k = key
  · subst here
    cases known.symm.trans known'
    exact shut
  · exact closed k hk (List.not_mem_cons_of_ne_of_not_mem here outside) t known' module_

/-- From sealed bases the walk comes to nothing, whatever more it is inside of. -/
theorem ancestors_eq_nil {wider : List String} (closed : s.Closed above visited)
    (shut : s.Sealed visited site bases) (sub : above ⊆ wider) :
    s.ancestors wider site bases = [] := by
  fun_induction ancestors s wider site bases with
  | case1 => rfl
  | case2 wider site written more none ih =>
    exact ih (fun base listed => shut base (List.mem_cons_of_mem _ listed)) sub
  | case3 wider site written more key e found declared ih =>
    obtain ⟨undeclared, -⟩ := shut written List.mem_cons_self key e found
    simp [undeclared] at declared
  | case4 wider site written more key e found undeclared entered ih =>
    exact ih (fun base listed => shut base (List.mem_cons_of_mem _ listed)) sub
  | case5 wider site written more key e found undeclared fresh _ ihInside ihMore =>
    obtain ⟨-, met⟩ := shut written List.mem_cons_self key e found
    have outside : key ∉ above := fun inside => fresh (by simpa using sub inside)
    rw [ihInside (closed key met outside e (get?_of_baseClass? found) _)
        fun k hk => List.mem_cons_of_mem _ (sub hk),
        ihMore (fun base listed => shut base (List.mem_cons_of_mem _ listed)) sub]
    rfl

theorem met_of_baseClass? (found : s.baseClass? site written = some (outer, f))
    (undeclared : f.isDeclared = false) (met : outer ∈ visited) (key : String) (e : Entry)
    (same : s.baseClass? site written = some (key, e)) :
    e.isDeclared = false ∧ key ∈ visited := by
  cases found.symm.trans same
  exact ⟨undeclared, met⟩

/-- The search passes over an entry that means no class, or an undeclared one that it has met. -/
theorem searchBase_pass (assumes : s.options.assumeExternalType = false)
    (met : ∀ key e, s.baseClass? site written = some (key, e) →
      e.isDeclared = false ∧ key ∈ visited) :
    s.searchBase sidecar visited ((site, written) :: work) = s.searchBase sidecar visited work := by
  rw [searchBase_cons, baseSense_eq assumes]
  cases found : s.baseClass? site written with
  | none => rfl
  | some entry =>
    obtain ⟨undeclared, known⟩ := met entry.1 entry.2 found
    simp only [undeclared, Bool.false_eq_true, if_false, List.contains_iff_mem, known, if_true]

theorem searchBase_declared (assumes : s.options.assumeExternalType = false)
    (found : s.baseClass? site written = some (key, e)) (declared : e.isDeclared = true) :
    s.searchBase sidecar visited ((site, written) :: work) = some (.declared key e) := by
  rw [searchBase_cons, baseSense_eq assumes]
  simp only [found, declared, if_true]

theorem searchBase_open (assumes : s.options.assumeExternalType = false)
    (found : s.baseClass? site written = some (key, e)) (undeclared : e.isDeclared = false)
    (fresh : key ∉ visited) :
    s.searchBase sidecar visited ((site, written) :: work) =
      s.searchBase sidecar (key :: visited) (s.innerBases site key e ++ work) := by
  rw [searchBase_cons, baseSense_eq assumes]
  simp only [found, undeclared, Bool.false_eq_true, if_false, List.contains_iff_mem, fresh]

/-- `s.Answers sidecar above visited site bases work`: for the bases in front of the work the search
finds the first class of the walk; if the walk comes to none, the search goes on with the work
behind them, and has met all that the bases lead to. -/
def Answers (s : Setting) (sidecar : Sidecar) (above visited : List String) (site : Site)
    (bases : List String) (work : List (Site × String)) : Prop :=
  (∃ found rest, s.ancestors above site bases = found :: rest ∧
    s.searchBase sidecar visited (bases.map (site, ·) ++ work) =
      some (.declared found.1 found.2)) ∨
  (s.ancestors above site bases = [] ∧ ∃ seen, visited ⊆ seen ∧ s.Closed above seen ∧
    s.Sealed seen site bases ∧
    s.searchBase sidecar visited (bases.map (site, ·) ++ work) = s.searchBase sidecar seen work)

/-- An entry that adds nothing to the walk and is passed over by the search may stand in front. -/
theorem Answers.cons (assumes : s.options.assumeExternalType = false)
    (met : ∀ key e, s.baseClass? site written = some (key, e) →
      e.isDeclared = false ∧ key ∈ visited)
    (empty : s.ancestors above site (written :: more) = s.ancestors above site more)
    (later : s.Answers sidecar above visited site more work) :
    s.Answers sidecar above visited site (written :: more) work := by
  unfold Answers
  rw [empty, List.map_cons, List.cons_append, searchBase_pass assumes met]
  refine later.imp id ?_
  rintro ⟨none, seen, grown, closed, shut, same⟩
  exact ⟨none, seen, grown, closed,
    shut.cons fun key e found => (met key e found).imp_right (@grown key), same⟩

/-- So may a class that the search goes into. -/
theorem Answers.enter (assumes : s.options.assumeExternalType = false)
    (found : s.baseClass? site written = some (key, e)) (undeclared : e.isDeclared = false)
    (outside : key ∉ above) (fresh : key ∉ visited)
    (inside : s.Answers sidecar (key :: above) (key :: visited) (s.siteIn site.module_ key e.host)
      e.host.bases (more.map (site, ·) ++ work))
    (later : ∀ seen, visited ⊆ seen → s.Closed above seen →
      s.Answers sidecar above seen site more work) :
    s.Answers sidecar above visited site (written :: more) work := by
  have opened : s.searchBase sidecar visited ((written :: more).map (site, ·) ++ work) =
      s.searchBase sidecar (key :: visited)
        (s.innerBases site key e ++ (more.map (site, ·) ++ work)) :=
    searchBase_open assumes found undeclared fresh
  have walk : s.ancestors above site (written :: more) =
      s.ancestors (key :: above) (s.siteIn site.module_ key e.host) e.host.bases ++
        s.ancestors above site more := by
    simp [ancestors_cons, found, undeclared, outside]
  unfold Answers
  rw [walk, opened]
  rcases inside with ⟨first, rest, walked, answer⟩ | ⟨none, seen, grown, closed, shut, same⟩
  · exact .inl ⟨first, _, by rw [walked, List.cons_append], answer⟩
  · have widened : visited ⊆ seen := fun k hk => grown (List.mem_cons_of_mem key hk)
    rw [none, List.nil_append]
    refine (later seen widened (closed.leave (get?_of_baseClass? found) shut)).imp ?_ ?_
    · rintro ⟨first, rest, walked, answer⟩
      exact ⟨first, rest, walked, same.trans answer⟩
    · rintro ⟨nothing, seen', grown', closed', shut', same'⟩
      refine ⟨nothing, seen', fun k hk => grown' (widened hk), closed', shut'.cons ?_,
        same.trans same'⟩
      exact met_of_baseClass? found undeclared (grown' (grown List.mem_cons_self))

/-- Passing over the classes that were met hides no class of the walk and keeps the
first in its place. -/
theorem answers_of_closed (assumes : s.options.assumeExternalType = false)
    (sub : above ⊆ visited) (closed : s.Closed above visited) :
    s.Answers sidecar above visited site bases work := by
  fun_induction ancestors s above site bases generalizing visited work with
  | case1 above site =>
    refine .inr ⟨ancestors_nil, visited, List.Subset.refl _, closed, ?_, rfl⟩
    intro written listed
    cases listed
  | case2 above site written more none ih =>
    refine (ih sub closed).cons assumes (fun key e found => ?_) (by simp [ancestors_cons, none])
    cases none.symm.trans found
  | case3 above site written more key e found declared ih =>
    refine .inl ⟨(key, e), s.ancestors above site more, ?_,
      searchBase_declared assumes found declared⟩
    simp [ancestors_cons, found, declared]
  | case4 above site written more key e found declared entered ih =>
    have undeclared : e.isDeclared = false := by simpa using declared
    have inside : key ∈ above := by simpa using entered
    refine (ih sub closed).cons assumes (met_of_baseClass? found undeclared (sub inside)) ?_
    simp [ancestors_cons, found, undeclared, inside]
  | case5 above site written more key e found declared entered _ ihInside ihMore =>
    have undeclared : e.isDeclared = false := by simpa using declared
    have outside : key ∉ above := by simpa using entered
    by_cases met : key ∈ visited
    · -- the search is done with this class, so the walk comes to nothing in it
      have empty := ancestors_eq_nil closed (closed key met outside e (get?_of_baseClass? found)
        site.module_) (List.subset_cons_self key above)
      refine (ihMore sub closed).cons assumes (met_of_baseClass? found undeclared met) ?_
      simp [ancestors_cons, found, undeclared, outside, empty]
    · exact .enter assumes found undeclared outside met
        (ihInside (List.cons_subset_cons key sub) (closed.enter key))
        fun seen grown => ihMore fun k hk => grown (sub hk)

/-- The search for a base gives the first class of the walk. -/
theorem searchBase_eq_head? (assumes : s.options.assumeExternalType = false) :
    s.searchBase sidecar [] (bases.map (site, ·)) =
      (s.ancestors [] site bases).head?.map fun found => .declared found.1 found.2 := by
  have closed : s.Closed [] [] := fun key hk => by cases hk
  have answers : s.Answers sidecar [] [] site bases [] :=
    answers_of_closed assumes (List.Subset.refl []) closed
  unfold Answers at answers
  rw [List.append_nil] at answers
  rcases answers with ⟨found, rest, walked, answer⟩ | ⟨none, more, -, -, -, same⟩
  · rw [walked, answer]
    rfl
  · rw [none, same, searchBase]
    rfl

end Setting

end Ambient
