import Ambient.Proofs.Host.Documents
import Ambient.Proofs.Resolution.Progress
import Ambient.Proofs.Translation.Bounded
import Mathlib.Computability.StateTransition

/-!
# The types around a type

An entry names the type around it, and the types around a type are found by following these names
outward. Each name is shorter than the one before, with one exception: the names of types come from
documents and may be empty, and a type without a name that is nested in a type without a name is
indexed under the name of the type around it, which is then the name of the type itself. The search
for the types around a type goes on for ever exactly where it meets this one.
-/
namespace Ambient

open Host StateTransition

/-- The link of a name leads to a shorter name, or from the empty name to itself. -/
def Climbing (link : String → Option String) : Prop :=
  ∀ key outer, link key = some outer → outer.length < key.length ∨ key = "" ∧ outer = ""

namespace Climbing
variable {link : String → Option String} {key outer : String}

theorem length_le (climbing : Climbing link) (h : Reaches link key outer) :
    outer.length ≤ key.length := by
  induction h with
  | refl => exact le_rfl
  | tail _ step ih =>
    rcases climbing _ _ step with shorter | ⟨rfl, rfl⟩
    · exact shorter.le.trans ih
    · exact ih

/-- Only the empty name can lead back to itself. -/
theorem eq_empty_of_cycle (climbing : Climbing link) (h : Reaches₁ link key key) : key = "" := by
  obtain ⟨next, step, rest⟩ := Relation.TransGen.head'_iff.mp h
  rcases climbing key next step with shorter | ⟨empty, -⟩
  · have back := climbing.length_le rest
    omega
  · exact empty

/-- Following the links ends unless it comes to the empty name and this leads to itself. -/
theorem dom_eval_iff (climbing : Climbing link) :
    (eval link key).Dom ↔ ¬ (Reaches link key "" ∧ link "" = some "") := by
  constructor
  · rintro ends ⟨reaches, around⟩
    obtain ⟨last, ended⟩ := Part.dom_iff_mem.mp ends
    rw [reaches_eval reaches] at ended
    obtain ⟨there, stop⟩ := mem_eval.mp ended
    have short := climbing.length_le there
    rw [String.length_eq_zero_iff.mp (Nat.le_zero.mp short), around] at stop
    cases stop
  · intro apart
    induction size : key.length using Nat.strongRecOn generalizing key with
    | ind n ih =>
      cases step : link key with
      | none => exact Part.dom_iff_mem.mpr ⟨key, mem_eval.mpr ⟨.refl, step⟩⟩
      | some outer =>
        rcases climbing key outer step with shorter | ⟨rfl, rfl⟩
        · rw [reaches_eval (.single step)]
          exact ih outer.length (size ▸ shorter) (fun h => apart ⟨.head step h.1, h.2⟩) rfl
        · exact absurd ⟨.refl, step⟩ apart

end Climbing

/-- The name of the type around a type. -/
def Index.container? (ix : Index) (key : String) : Option String :=
  (ix.get? key).bind (·.container)

namespace Index
variable {ix : Index} {key outer name : String} {root : Path} {e : Entry} {f : File}
  {files : List File}

theorem length_lt_or_empty :
    outer.length < (qualify outer name).length ∨ qualify outer name = "" ∧ outer = "" := by
  by_cases unnamed : name = ""
  · by_cases top : outer = ""
    · exact .inr ⟨by rw [unnamed, top]; rfl, top⟩
    · refine .inl ?_
      have inside : qualify outer name = outer ++ "." ++ name := by
        unfold qualify
        rw [if_neg (by simpa using top)]
      have dot : ".".length = 1 := rfl
      rw [inside, String.length_append, String.length_append]
      omega
  · exact .inl (length_lt_qualify unnamed)

/-- The name of the type around a nested type is shorter, or both names are empty. -/
theorem container_of_mem_entriesOfFile (h : (key, e) ∈ entriesOfFile f)
    (nested : e.container = some outer) :
    outer.length < key.length ∨ key = "" ∧ outer = "" := by
  have spelled : key = qualify (e.container.getD e.host.space) e.host.name := by
    rcases List.mem_append.mp h with own | external
    · exact key_of_mem_entriesOfList own
    · exact key_of_mem_entriesOfList external
  rw [spelled, nested]
  exact length_lt_or_empty

/-- The type around a nested type is indexed with it. -/
theorem container_mem_entriesOfList {container : Option String} {space : String}
    {file : Option Path} {ts : List TypeDecl}
    (h : (key, e) ∈ entriesOfList container space file ts) :
    e.container = container ∨
      ∃ outer, e.container = some outer ∧
        outer ∈ (entriesOfList container space file ts).map (·.1) := by
  refine entriesOfList_induction (motive := fun container space ts => e.container = container ∨
    ∃ outer, e.container = some outer ∧
      outer ∈ (entriesOfList container space file ts).map (·.1)) ?here ?inside h
  case here =>
    intro container space ts t _ own
    exact .inl (by rw [(Prod.mk.inj own).2])
  case inside =>
    intro container space ts t ht ih
    refine .inr ?_
    rcases ih with around | ⟨outer, around, known⟩
    · exact ⟨_, around, List.mem_map.mpr
        ⟨_, mem_entriesOfList.mpr ⟨t, ht, .inr rfl⟩, rfl⟩⟩
    · obtain ⟨entry, he, rfl⟩ := List.mem_map.mp known
      exact ⟨_, around, List.mem_map.mpr
        ⟨entry, mem_entriesOfList.mpr ⟨t, ht, .inl he⟩, rfl⟩⟩

theorem container_mem_entriesOfFile (h : (key, e) ∈ entriesOfFile f)
    (nested : e.container = some outer) : outer ∈ (entriesOfFile f).map (·.1) := by
  have inside : ∀ {file : Option Path} {ts : List TypeDecl},
      (key, e) ∈ entriesOfList none "" file ts →
        outer ∈ (entriesOfList none "" file ts).map (·.1) := by
    intro file ts member
    rcases container_mem_entriesOfList member with top | ⟨around, same, known⟩
    · rw [nested] at top
      cases top
    · rw [nested] at same
      exact Option.some.inj same ▸ known
  rw [entriesOfFile, List.map_append, List.mem_append]
  rcases List.mem_append.mp h with own | external
  · exact .inl (inside own)
  · exact .inr (inside external)

theorem exists_file_of_get?_ofFiles (h : (ofFiles name root files).get? key = some e) :
    ∃ f ∈ files, (key, e) ∈ entriesOfFile f :=
  List.mem_flatMap.mp (mem_of_first? ((get?_ofFiles files key).symm.trans h))

theorem climbing_ofFiles : Climbing (ofFiles name root files).container? := by
  intro key outer around
  obtain ⟨e, found, nested⟩ := Option.bind_eq_some_iff.mp around
  obtain ⟨f, _, member⟩ := exists_file_of_get?_ofFiles found
  exact container_of_mem_entriesOfFile member nested

/-- The type around an indexed type is indexed as well. -/
theorem container_mem_keys (found : (ofFiles name root files).get? key = some e)
    (nested : e.container = some outer) : outer ∈ (ofFiles name root files).keys := by
  obtain ⟨f, hf, member⟩ := exists_file_of_get?_ofFiles found
  rw [mem_keys_iff, get?_ofFiles, isSome_first?_iff, List.map_flatMap]
  exact List.mem_flatMap.mpr ⟨f, hf, container_mem_entriesOfFile member nested⟩

/-- Following the names of the types around a type never leaves the index. -/
theorem mem_keys_of_reaches (known : key ∈ (ofFiles name root files).keys)
    (h : Reaches (ofFiles name root files).container? key outer) :
    outer ∈ (ofFiles name root files).keys := by
  induction h with
  | refl => exact known
  | tail _ around _ =>
    obtain ⟨e, found, nested⟩ := Option.bind_eq_some_iff.mp around
    exact container_mem_keys found nested

end Index

namespace Setting

/-- The name of the type around a type. -/
def container? (s : Setting) (key : String) : Option String := (s.get? key).bind (·.container)

/-- One round of the search for the types around a type: the type around the outermost one found so
far comes in front. -/
def widen? (s : Setting) : List String → Option (List String)
  | [] => none
  | outermost :: inner => (s.container? outermost).map (· :: outermost :: inner)

variable {s : Setting} {file : File} {files : List File} {name key outer : String} {root : Path}
  {options : Options}

theorem climbing_of : Climbing (Setting.of file (.ofFiles name root files) options).container? := by
  intro key outer around
  obtain ⟨e, found, nested⟩ := Option.bind_eq_some_iff.mp around
  obtain ⟨f, _, member⟩ := exists_file_of_get? found
  exact Index.container_of_mem_entriesOfFile member nested

/-- Where the names of all types are not empty, the empty name does not lead to itself. -/
theorem container?_empty_of_named (named : ∀ f ∈ file :: files, f.Named) :
    (Setting.of file (.ofFiles name root files) options).container? "" ≠ some "" := by
  intro around
  obtain ⟨e, found, nested⟩ := Option.bind_eq_some_iff.mp around
  obtain ⟨f, hf, member⟩ := exists_file_of_get? found
  exact lt_irrefl _ (Index.length_container_lt (named f hf) member nested)

theorem exists_cons_of_reaches_widen {inner chain : List String}
    (h : StateTransition.Reaches s.widen? (key :: inner) chain) :
    ∃ outer rest, chain = outer :: rest ∧
      StateTransition.Reaches s.container? key outer := by
  induction h with
  | refl => exact ⟨key, inner, rfl, .refl⟩
  | tail _ step ih =>
    obtain ⟨outer, rest, rfl, reaches⟩ := ih
    obtain ⟨next, around, rfl⟩ := Option.map_eq_some_iff.mp step
    exact ⟨next, outer :: rest, rfl, reaches.tail around⟩

/-- Where following the names ends, the search gives the types around a type, outermost first. -/
theorem mem_eval_widen (climbing : Climbing s.container?) (ends : (eval s.container? key).Dom)
    (inner : List String) :
    (s.outward key).reverse ++ inner ∈ eval s.widen? (key :: inner) := by
  induction size : key.length using Nat.strongRecOn generalizing key inner with
  | ind n ih =>
    rw [outward]
    split
    · rename_i top
      have stop : s.widen? (key :: inner) = none := by
        rw [widen?, show s.container? key = none from top]
        rfl
      exact mem_eval.mpr ⟨.refl, stop⟩
    · rename_i outer around
      have step : s.container? key = some outer := around
      have widened : s.widen? (key :: inner) = some (outer :: key :: inner) := by
        rw [widen?, step]
        rfl
      rcases climbing key outer step with shorter | ⟨rfl, rfl⟩
      · rw [dif_pos shorter, List.reverse_cons, List.append_assoc, reaches_eval (.single widened)]
        rw [reaches_eval (.single step)] at ends
        exact ih outer.length (size ▸ shorter) ends (key :: inner) rfl
      · exact absurd ⟨.refl, step⟩ (climbing.dom_eval_iff.mp ends)

/-- The search for the types around a type gives a result exactly where following the names ends. -/
theorem dom_eval_widen_iff (climbing : Climbing s.container?) :
    (eval s.widen? [key]).Dom ↔ (eval s.container? key).Dom := by
  constructor
  · intro ends
    obtain ⟨chain, found⟩ := Part.dom_iff_mem.mp ends
    obtain ⟨reaches, stop⟩ := mem_eval.mp found
    obtain ⟨outer, rest, rfl, there⟩ := exists_cons_of_reaches_widen reaches
    have top : s.container? outer = none := Option.map_eq_none_iff.mp stop
    exact Part.dom_iff_mem.mpr ⟨outer, mem_eval.mpr ⟨there, top⟩⟩
  · intro ends
    exact Part.dom_iff_mem.mpr ⟨_, mem_eval_widen climbing ends []⟩

/-- Where the names of all types are not empty, the search gives the types around any type. -/
theorem outward_mem_of_named (named : ∀ f ∈ file :: files, f.Named) (key : String) :
    let s := Setting.of file (.ofFiles name root files) options
    (s.outward key).reverse ∈ eval s.widen? [key] := by
  intro s
  have ends : (eval s.container? key).Dom :=
    climbing_of.dom_eval_iff.mpr fun h => container?_empty_of_named named h.2
  have found := mem_eval_widen climbing_of ends []
  rwa [List.append_nil] at found

end Setting

/-- Following the names of the types around an indexed type comes to a type that has none around it,
and no name comes twice on the way, exactly unless it comes to the empty name and the type of the
empty name lies in itself. In all other cases, and only in these, the search for the types around a
type that a lookup finds gives a result, which is the chain from the outermost type to this one. -/
theorem containers_end_iff (file : File) (files : List File) (name : String) (root : Path)
    (options : Options) :
    let ix := Index.ofFiles name root files
    let s := Setting.of file ix options
    (∀ key ∈ ix.keys,
      (∀ outermost ∈ eval ix.container? key,
        ∃ e, ix.get? outermost = some e ∧ e.container = none) ∧
      (∀ outer, Reaches ix.container? key outer → Reaches₁ ix.container? outer outer →
        outer = "") ∧ ((eval ix.container? key).Dom ↔
        ¬ (Reaches ix.container? key "" ∧ ix.container? "" = some ""))) ∧
    ∀ site written key e, s.lookup? site written = some (key, e) →
      ((eval s.widen? [key]).Dom ↔
        ¬ (Reaches s.container? key "" ∧ s.container? "" = some "")) ∧
      ∀ chain ∈ eval s.widen? [key], chain = (s.outward key).reverse := by
  intro ix s
  have climbing : Climbing s.container? := Setting.climbing_of
  refine ⟨fun key known => ⟨fun outermost last => ?_, fun outer _ cycle => ?_, ?_⟩,
    fun site written key e _ => ⟨?_, fun chain found => ?_⟩⟩
  · obtain ⟨reaches, stop⟩ := mem_eval.mp last
    have inside := Index.mem_keys_iff.mp (Index.mem_keys_of_reaches known reaches)
    obtain ⟨e, found⟩ := Option.isSome_iff_exists.mp inside
    exact ⟨e, found, Option.bind_eq_none_iff.mp stop e found⟩
  · exact Index.climbing_ofFiles.eq_empty_of_cycle cycle
  · exact Index.climbing_ofFiles.dom_eval_iff
  · exact (Setting.dom_eval_widen_iff climbing).trans climbing.dom_eval_iff
  · have ends := (Setting.dom_eval_widen_iff climbing).mp (Part.dom_iff_mem.mpr ⟨chain, found⟩)
    have whole := Setting.mem_eval_widen climbing ends []
    rw [List.append_nil] at whole
    exact Part.mem_unique found whole

/-- A document with a type without a name in a type without a name, and a class that mentions
another type nested there. -/
def unnamedFile : File :=
  ⟨⟨"/p/Unnamed.types.json"⟩, [],
    [⟨"", "", .classKind, [], none, [],
      [⟨"", "", .classKind, [], none, [], [], []⟩,
        ⟨"Leaf", "", .classKind, [], none, [], [], []⟩], []⟩,
    ⟨"Tree", "", .classKind, [], none, [⟨"Root", "Leaf", none, none, []⟩], [], []⟩], []⟩

theorem parseJson_unnamed : File.parseJson unnamedFile.toJson.compact = .ok unnamedFile := by
  have shallow : unnamedFile.Shallow := by
    unfold File.Shallow
    decide
  exact (File.reads_decode shallow).decodeText (Json.isWrittenAs_compact _)

/-- The type that the class mentions is found, and the search for the types around it gives no
result; the chain of the class itself ends. -/
theorem containers_end_iff_of_unnamed :
    let ix := Index.ofFiles "App" ⟨"/p"⟩ [unnamedFile]
    let s := Setting.of unnamedFile ix .default
    (∃ e, s.lookup? ⟨"", ["Tree"], "Server.Dtos"⟩ "Leaf" = some ("Leaf", e)) ∧
      ¬ (eval s.widen? ["Leaf"]).Dom ∧ ¬ (eval ix.container? "Leaf").Dom ∧
      (eval ix.container? "Tree").Dom := by
  intro ix s
  have ends := containers_end_iff unnamedFile [unnamedFile] "App" ⟨"/p"⟩ .default
  have found : s.lookup? ⟨"", ["Tree"], "Server.Dtos"⟩ "Leaf" = some ("Leaf",
      ⟨⟨"Leaf", "", .classKind, [], none, [], [], []⟩, some "",
        some unnamedFile.path⟩) := by
    with_unfolding_all rfl
  have step : ix.container? "Leaf" = some "" := by decide
  have around : ix.container? "" = some "" := by decide
  have top : ix.container? "Tree" = none := by decide
  have step' : s.container? "Leaf" = some "" := by decide
  have around' : s.container? "" = some "" := by decide
  refine ⟨⟨_, found⟩, ?_, ?_, ?_⟩
  · intro searched
    exact (ends.2 _ _ _ _ found).1.mp searched ⟨.single step', around'⟩
  · intro followed
    exact (ends.1 "Leaf" (by decide)).2.2.mp followed ⟨.single step, around⟩
  · refine (ends.1 "Tree" (by decide)).2.2.mpr fun h => ?_
    -- nothing lies around the class, so its chain stays at its own name
    rcases Relation.ReflTransGen.cases_head h.1 with same | ⟨next, around, _⟩
    · exact absurd same (by decide)
    · rw [top] at around
      cases around

end Ambient
