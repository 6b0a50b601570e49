import Ambient.Proofs.Translation.Containers
import Ambient.Proofs.Translation.Dangling
import Ambient.Proofs.Translation.Listing

/-!
# An index that grows

Files are added to an index one after the other. What is indexed stays as it is, whatever comes
later, and each entry is linked to the declaration it comes from and to the type around it. So a
written name that means a type can come to mean another one only if that one lies nearer.

An index and a translation walk the same declarations, each in its own way. A declared entry comes
from one type of the file. If all types around that type are classes, the type is emitted under the
module and name that the entry is mentioned by; an enum that lies in an interface or in another
enum counts as declared as well, but is not emitted. C# source has nothing nested in these, so
there the two agree.
-/

namespace Ambient

open Host

namespace Host.Nested

/-- A type with its namespace, as an index holds it. -/
def placed (n : Nested) : TypeDecl := { n.type with space := n.space }

end Host.Nested

namespace Index
variable {key : String} {e : Entry}

theorem keyOf_addressOf? (t : TypeDecl) (around : List TypeDecl) :
    addressOf? (t :: around) = some (keyOf (addressOf? around) (spaceOf around) t) := by
  rw [addressOf?, spaceOf_cons]
  cases addressOf? around <;> rfl

/-- An entry comes from a type, under the name and in the namespace that the types
around it give it. -/
theorem exists_within_of_mem_entriesOfList {file : Option Path} {around ts : List TypeDecl}
    (h : (key, e) ∈ entriesOfList (addressOf? around) (spaceOf around) file ts) :
    ∃ n ∈ TypeDecl.withinAll around ts, e.host = n.placed ∧
      addressOf? (n.type :: n.around) = some key ∧ e.container = addressOf? n.around := by
  refine entriesOfList_induction (motive := fun container space ts => ∀ around,
    container = addressOf? around → space = spaceOf around →
    ∃ n ∈ TypeDecl.withinAll around ts, e.host = n.placed ∧
      addressOf? (n.type :: n.around) = some key ∧ e.container = addressOf? n.around)
    ?here ?inside h around rfl rfl
  case here =>
    rintro container space ts t ht own around rfl rfl
    obtain ⟨rfl, rfl⟩ := Prod.mk.inj own
    refine ⟨⟨t, around⟩, ?_, ?_, keyOf_addressOf? t around, rfl⟩
    · rw [TypeDecl.withinAll_eq]
      refine List.mem_flatMap.mpr ⟨t, ht, ?_⟩
      rw [TypeDecl.within_eq]
      exact List.mem_cons_self
    · rw [Nested.placed, Nested.space, spaceOf_cons]
      rfl
  case inside =>
    rintro container space ts t ht ih around rfl rfl
    have inner : (placedIn (spaceOf around) t).space = spaceOf (t :: around) := by
      rw [spaceOf_cons]
      rfl
    obtain ⟨n, hn, found⟩ := ih (t :: around) (keyOf_addressOf? t around).symm inner
    refine ⟨n, ?_, found⟩
    rw [TypeDecl.withinAll_eq]
    refine List.mem_flatMap.mpr ⟨t, ht, ?_⟩
    rw [TypeDecl.within_eq]
    exact List.mem_cons_of_mem _ hn

end Index

namespace Host

/-- In C# source everything that is nested lies in classes. -/
theorem inClasses_of_fromSource {n : Nested} {around ts : List TypeDecl}
    (classes : ∀ t ∈ around, t.kind = .classKind)
    (source : ∀ t ∈ ts, ∃ space, t.FromSource space)
    (h : n ∈ TypeDecl.withinAll around ts) : n.inClasses = true := by
  rw [TypeDecl.withinAll_eq] at h
  obtain ⟨t, ht, hn⟩ := List.mem_flatMap.mp h
  rw [TypeDecl.within_eq] at hn
  rcases List.mem_cons.mp hn with rfl | inner
  · exact List.all_eq_true.mpr fun t ht => beq_iff_eq.mpr (classes t ht)
  · obtain ⟨space, shape⟩ := source t ht
    have kind : t.kind = .classKind := by
      by_contra other
      rw [shape.nested_nil other, TypeDecl.withinAll] at inner
      cases inner
    have outside : ∀ u ∈ t :: around, u.kind = .classKind := by
      intro u hu
      rcases List.mem_cons.mp hu with rfl | hu
      · exact kind
      · exact classes u hu
    exact inClasses_of_fromSource outside (fun u hu => ⟨space, shape.of_nested hu⟩) inner
termination_by sizeOf ts
decreasing_by
  have := List.sizeOf_lt_of_mem ht
  cases t
  simp only [TypeDecl.mk.sizeOf_spec] at *
  omega

end Host

/-- A declared entry comes from a type that is emitted exactly if all types
around it are classes. -/
theorem exists_emitted_iff {f : File} {key : String} {e : Entry}
    (h : (key, e) ∈ Index.entriesOfFile f) (declared : e.isDeclared = true) :
    ∃ n ∈ f.allTypes, e.host = n.placed ∧ n.isEmitted = n.inClasses := by
  simp only [Entry.isDeclared, Bool.and_eq_true, Bool.or_eq_true, bne_iff_ne,
    Bool.not_eq_true'] at declared
  obtain ⟨⟨hasFile, notInterface⟩, place⟩ := declared
  have own : (key, e) ∈ Index.entriesOfList (addressOf? []) (spaceOf []) (some f.path) f.types :=
    Index.mem_of_mem_entriesOfFile h hasFile
  obtain ⟨n, hn, host, -, around⟩ := Index.exists_within_of_mem_entriesOfList own
  have nested : e.isNested = !n.around.isEmpty := by
    rw [Entry.isNested, around, isSome_addressOf?]
  have kind : e.host.kind = n.type.kind := by rw [host]; rfl
  have enum : e.host.isEnum = n.type.isEnum := by rw [host]; rfl
  refine ⟨n, hn, host, ?_⟩
  rw [nested, enum] at place
  rw [kind] at notInterface
  have shown : (n.type.isEnum || n.around.isEmpty && n.type.kind == .classKind) = true := by
    cases hk : n.type.kind with
    | interfaceKind => exact absurd hk notInterface
    | enumKind => simp [TypeDecl.isEnum, hk]
    | classKind => simpa [TypeDecl.isEnum, hk] using place
  rw [Nested.isEmitted, shown, Bool.and_true]

/-- Every declared entry of a file comes from one of its types. If all types around that type are
classes, as they are in C# source, an object bears the module and the name of the entry, and it is
an enum's as the entry is unless a type emitted before has these. Else the type is not emitted: an
object that bears them declares another type. -/
theorem declared_entry_emitted {f : File} {name : String} {root : Path} {key : String} {e : Entry}
    (h : ((Index.empty name root).addFile f).get? key = some e) (declared : e.isDeclared = true)
    (project : Index) (o : Options) (sidecar : Sidecar) :
    let s := Setting.of f project o
    let objects := (s.translate sidecar).1
    ∃ n ∈ f.allTypes, e.host = n.placed ∧
      (n.inClasses = true → ∃ d ∈ objects, d.space = s.moduleName e.host.space ∧
        d.name = e.host.name ∧ (d.isEnum = e.host.isEnum ∨
          ∃ before after, f.emitted = before ++ n :: after ∧
            ∃ q ∈ before, s.Declares q d)) ∧
      (n.inClasses = false → ∀ d ∈ objects, d.space = s.moduleName e.host.space →
        d.name = e.host.name → ∃ q ∈ f.emitted, q ≠ n ∧ s.Declares q d) ∧
      ∀ text, File.parse f.path text = .ok f → n.inClasses = true := by
  intro s objects
  have entry : (key, e) ∈ Index.entriesOfFile f :=
    Index.mem_of_first? ((Index.get?_ofFile f key).symm.trans h)
  obtain ⟨n, hn, host, emitted⟩ := exists_emitted_iff entry declared
  have listed : List.Forall₂ s.Declares (firsts s.nameOf f.emitted) objects :=
    Setting.forall₂_translate sidecar
  refine ⟨n, hn, host, ?inside, ?outside, ?source⟩
  case inside =>
    intro classes
    obtain ⟨before, after, spelled⟩ :=
      List.append_of_mem (List.mem_filter.mpr ⟨hn, emitted.trans classes⟩ : n ∈ f.emitted)
    obtain ⟨q, hq, same, place⟩ := exists_first s.nameOf before after n
    rw [← spelled] at hq
    obtain ⟨d, hd, object⟩ := exists_right_of_forall₂ listed hq
    obtain ⟨space, own⟩ := Prod.mk.inj same
    refine ⟨d, hd, ?_, ?_, ?_⟩
    · rw [object.space, space, host]
      rfl
    · rw [object.name, own, host]
      rfl
    · rcases place with rfl | earlier
      · rw [object.isEnum, host]
        exact .inl rfl
      · exact .inr ⟨before, after, spelled, q, earlier, object⟩
  case outside =>
    intro other d hd _ _
    obtain ⟨q, hq, object⟩ := exists_left_of_forall₂ listed hd
    obtain ⟨before, after, spelled, _⟩ := mem_firsts_iff.mp hq
    have shown : q ∈ f.emitted := by
      rw [spelled]
      exact List.mem_append_right _ List.mem_cons_self
    refine ⟨q, shown, ?_, object⟩
    rintro rfl
    exact Bool.false_ne_true ((emitted.trans other).symm.trans (List.mem_filter.mp shown).2)
  case source =>
    intro text parsed
    refine inClasses_of_fromSource (fun t ht => absurd ht List.not_mem_nil) (fun t ht => ?_) hn
    obtain ⟨space, _, shape⟩ := (fromSource_of_parse parsed).1.types t ht
    exact ⟨space, shape⟩

/-- A class with a member whose type is an enum inside an interface. -/
def holderFile : File where
  path := ⟨"/p/Ticket.types.json"⟩
  usings := []
  types := [⟨"Ticket", "App", .classKind, [], none,
      [⟨"Current", "Holder.State", none, none, []⟩], [], []⟩,
    ⟨"Holder", "App", .interfaceKind, [], none, [],
      [⟨"State", "", .enumKind, [], none, [⟨"Open", "", none, none, []⟩], [], []⟩], []⟩]
  externalTypes := []

def holderState : Entry :=
  ⟨⟨"State", "App", .enumKind, [], none, [⟨"Open", "", none, none, []⟩], [], []⟩,
    some "App.Holder", some ⟨"/p/Ticket.types.json"⟩⟩

def orderState : Entry :=
  ⟨⟨"State", "App", .enumKind, [], none, [⟨"Open", "", none, none, []⟩], [], []⟩,
    some "App.Order", some ⟨"/p/Order.cs"⟩⟩

/-- The enum inside the interface counts as declared and is not emitted; the one
inside a class is. -/
theorem declared_entry_emitted_of_holder :
    (holderState.isDeclared = true ∧ ∀ project o sidecar,
      let s := Setting.of holderFile project o
      ∀ d ∈ (s.translate sidecar).1, d.space = s.moduleName "App" → d.name ≠ "State") ∧
    orderState.isDeclared = true ∧ ∀ project o sidecar,
      let s := Setting.of orderFile project o
      ∃ d ∈ (s.translate sidecar).1, d.space = s.moduleName "App" ∧ d.name = "State" := by
  refine ⟨⟨rfl, fun project o sidecar d hd space name => ?unseen⟩, rfl,
    fun project o sidecar => ?seen⟩
  case unseen =>
    have held : ((Index.empty "App" ⟨"/p"⟩).addFile holderFile).get? "App.Holder.State" =
        some holderState := by with_unfolding_all rfl
    obtain ⟨n, hn, host, _, outside, _⟩ := declared_entry_emitted held rfl project o sidecar
    have inside : n.inClasses = false := by
      have only : ∀ n ∈ holderFile.allTypes, n.type.name = "State" →
          n.inClasses = false := by decide
      exact only n hn (congrArg TypeDecl.name host).symm
    obtain ⟨q, hq, _, object⟩ := outside inside d hd space name
    have ticket : ∀ q ∈ holderFile.emitted, q.type.name ≠ "State" := by decide
    exact ticket q hq (object.name.symm.trans name)
  case seen =>
    have held : ((Index.empty "App" ⟨"/p"⟩).addFile orderFile).get? "App.Order.State" =
        some orderState := by with_unfolding_all rfl
    obtain ⟨n, hn, _, inside, _, _⟩ := declared_entry_emitted held rfl project o sidecar
    have classes : ∀ n ∈ orderFile.allTypes, n.inClasses = true := by decide
    obtain ⟨d, hd, space, name, _⟩ := inside (classes n hn)
    exact ⟨d, hd, space, name⟩

end Ambient

namespace Ambient

open Host

namespace Index
variable {ix grown : Index} {files more : List File} {f : File} {key name : String} {root : Path}
  {e : Entry}

theorem prefix_addNew (ix : Index) (entry : String × Entry) :
    ix.entries <+: (ix.addNew entry).entries := by
  unfold addNew
  split
  · exact List.prefix_rfl
  · exact List.prefix_append ix.entries [entry]

theorem prefix_foldl_addNew (entries : List (String × Entry)) (ix : Index) :
    ix.entries <+: (entries.foldl addNew ix).entries := by
  induction entries generalizing ix with
  | nil => exact List.prefix_rfl
  | cons entry more ih => exact (prefix_addNew ix entry).trans (ih (ix.addNew entry))

/-- Files that are added leave the entries in place and put theirs behind them. -/
theorem prefix_foldl_addFile (more : List File) (ix : Index) :
    ix.entries <+: (more.foldl addFile ix).entries := by
  induction more generalizing ix with
  | nil => exact List.prefix_rfl
  | cons f more ih => exact (prefix_foldl_addNew (entriesOfFile f) ix).trans (ih (ix.addFile f))

theorem nodup_addNew (distinct : ix.keys.Nodup) (entry : String × Entry) :
    (ix.addNew entry).keys.Nodup := by
  unfold addNew
  split
  · exact distinct
  · rename_i fresh
    have new : entry.1 ∉ ix.keys := fun known => fresh (mem_keys_iff.mp known)
    have keys : keys { ix with entries := ix.entries ++ [entry] } = ix.keys ++ [entry.1] :=
      List.map_append
    rw [keys]
    exact List.nodup_append.mpr
      ⟨distinct, List.nodup_singleton _, fun a ha b hb same => new (by simp_all)⟩

theorem nodup_foldl_addNew (distinct : ix.keys.Nodup) (entries : List (String × Entry)) :
    (entries.foldl addNew ix).keys.Nodup := by
  induction entries generalizing ix with
  | nil => exact distinct
  | cons entry more ih => exact ih (nodup_addNew distinct entry)

theorem nodup_foldl_addFile (distinct : ix.keys.Nodup) (files : List File) :
    (files.foldl addFile ix).keys.Nodup := by
  induction files generalizing ix with
  | nil => exact distinct
  | cons f more ih => exact ih (nodup_foldl_addNew distinct (entriesOfFile f))

theorem get?_of_get? (found : ix.get? key = some e) (more : List File) :
    (more.foldl addFile ix).get? key = some e := by
  rw [get?_foldl_addFile, found]
  rfl

/-- The entries of what is nested in a type stand directly before that of the type. -/
theorem exists_nested_before {container : Option String} {space : String} {file : Option Path}
    {ts : List TypeDecl} (h : (key, e) ∈ entriesOfList container space file ts) :
    ∃ before after, entriesOfList container space file ts =
      before ++ entriesOfList (some key) e.host.space e.file e.host.nested ++
        (key, e) :: after := by
  refine entriesOfList_induction (motive := fun container space ts => ∃ before after,
    entriesOfList container space file ts =
      before ++ entriesOfList (some key) e.host.space e.file e.host.nested ++ (key, e) :: after)
    ?here ?inside h
  case here =>
    intro container space ts t ht own
    obtain ⟨front, back, rfl⟩ := List.append_of_mem ht
    obtain ⟨rfl, rfl⟩ := Prod.mk.inj own
    refine ⟨entriesOfList container space file front,
      entriesOfList container space file back, ?_⟩
    simp only [entriesOfList_eq, List.flatMap_append, List.flatMap_cons, entriesOf_eq,
      List.append_assoc, List.singleton_append]
    rfl
  case inside =>
    rintro container space ts t ht ⟨before, after, spelled⟩
    obtain ⟨front, back, rfl⟩ := List.append_of_mem ht
    refine ⟨entriesOfList container space file front ++ before,
      after ++ (keyOf container space t, ⟨placedIn space t, container, file⟩) ::
        entriesOfList container space file back, ?_⟩
    rw [entriesOfList_eq, List.flatMap_append, List.flatMap_cons, entriesOf_eq, spelled,
      entriesOfList_eq front, entriesOfList_eq back]
    simp only [List.append_assoc, List.cons_append, List.nil_append]

theorem exists_nested_before_of_mem_entriesOfFile (h : (key, e) ∈ entriesOfFile f) :
    ∃ before after, entriesOfFile f =
      before ++ entriesOfList (some key) e.host.space e.file e.host.nested ++
        (key, e) :: after := by
  unfold entriesOfFile at h ⊢
  rcases List.mem_append.mp h with own | external
  · obtain ⟨before, after, spelled⟩ := exists_nested_before own
    refine ⟨before, after ++ entriesOfList none "" none f.externalTypes, ?_⟩
    rw [spelled, List.append_assoc _ _ (entriesOfList none "" none f.externalTypes)]
    rfl
  · obtain ⟨before, after, spelled⟩ := exists_nested_before external
    refine ⟨entriesOfList none "" (some f.path) f.types ++ before, after, ?_⟩
    rw [spelled]
    simp only [List.append_assoc]

/-- The declaration that an entry comes from, with the types around it. -/
structure Comes (f : File) (key : String) (e : Entry) (n : Nested) : Prop where
  declared : n ∈ TypeDecl.withinAll [] f.types ∧ e.file = some f.path ∨
    n ∈ TypeDecl.withinAll [] f.externalTypes ∧ e.file = none
  host : e.host = n.placed
  key : addressOf? (n.type :: n.around) = some key
  container : e.container = addressOf? n.around

theorem exists_comes (h : (key, e) ∈ entriesOfFile f) : ∃ n, Comes f key e n := by
  have within : ∀ {file : Option Path} {ts : List TypeDecl},
      (key, e) ∈ entriesOfList none "" file ts →
        ∃ n ∈ TypeDecl.withinAll [] ts, e.host = n.placed ∧
          addressOf? (n.type :: n.around) = some key ∧ e.container = addressOf? n.around :=
    fun member => exists_within_of_mem_entriesOfList member
  rcases List.mem_append.mp h with own | external
  · obtain ⟨n, hn, host, address, around⟩ := within own
    exact ⟨n, .inl ⟨hn, file_of_mem_entriesOfList own⟩, host, address, around⟩
  · obtain ⟨n, hn, host, address, around⟩ := within external
    exact ⟨n, .inr ⟨hn, file_of_mem_entriesOfList external⟩, host, address, around⟩

/-- A type is without a namespace only if it and all types around it are declared without one. -/
theorem Comes.space_eq_empty_iff {n : Nested} (comes : Comes f key e n) :
    e.host.space = "" ↔ ∀ t ∈ n.type :: n.around, t.space = "" := by
  rw [comes.host]
  exact spaceOf_eq_empty_iff

theorem key_eq_of_mem_entriesOfFile (h : (key, e) ∈ entriesOfFile f) :
    key = match e.container with
      | some outer => qualify outer e.host.name
      | none => qualify e.host.space e.host.name := by
  have spelled : key = qualify (e.container.getD e.host.space) e.host.name := by
    rcases List.mem_append.mp h with own | external
    · exact key_of_mem_entriesOfList own
    · exact key_of_mem_entriesOfList external
  rw [spelled]
  cases e.container <;> rfl

/-- What a lookup among some candidates gives, before and after: the same, or something where there
was nothing, or a candidate that stands before the one that was found. -/
inductive Nears (candidates : List String) :
    Option (String × Entry) → Option (String × Entry) → Prop
  | kept (found : Option (String × Entry)) : Nears candidates found found
  | appears (found : String × Entry) : Nears candidates none (some found)
  | nearer {before after : List String} {key : String} {e : Entry} {found : String × Entry} :
    candidates = before ++ key :: after → found.1 ∈ before → key ∉ before →
    Nears candidates (some (key, e)) (some found)

theorem nears_lookup? (kept : ∀ key e, ix.get? key = some e → grown.get? key = some e)
    (scope : Scope) (written : String) :
    Nears (scope.candidates written) (ix.lookup? scope written) (grown.lookup? scope written) := by
  cases old : ix.lookup? scope written with
  | none =>
    cases grown.lookup? scope written with
    | none => exact .kept none
    | some found => exact .appears found
  | some pair =>
    obtain ⟨before, key, after, spelled, here, missing⟩ := List.findSome?_eq_some_iff.mp old
    obtain ⟨e, found, rfl⟩ := Option.map_eq_some_iff.mp here
    have now : grown.lookup? scope written =
        (before.findSome? fun key => (grown.get? key).map (key, ·)).or (some (key, e)) := by
      rw [lookup?, spelled, List.findSome?_append, List.findSome?_cons, kept key e found]
      rfl
    rw [now]
    cases early : before.findSome? fun key => (grown.get? key).map (key, ·) with
    | none => exact .kept _
    | some nearest =>
      obtain ⟨candidate, earlier, this⟩ := List.exists_of_findSome?_eq_some early
      obtain ⟨_, _, rfl⟩ := Option.map_eq_some_iff.mp this
      refine .nearer spelled earlier fun again => ?_
      have nothing := missing key again
      rw [found] at nothing
      cases nothing

end Index

/-- Whatever files are added to an index, and whatever comes after them: the entries stay as they
are, each the only one of its name and the first that is declared under it, where a type counts as
declared after all that is nested in it. An entry stands under the name of its type behind that of
the type around it, or behind its namespace if none is around it, and the type around it is indexed
as well. A nested type has a namespace as soon as one of the types around its declaration has. So a
written name goes on to mean the same type, or comes to mean one where it meant none, or comes to
mean one that stands before it in the search. -/
theorem ofFiles_grows (name : String) (root : Path) (files more : List File) :
    let ix := Index.ofFiles name root files
    let grown := more.foldl Index.addFile ix
    (ix.entries <+: grown.entries ∧ grown.keys.Nodup ∧
      ∀ key e, ix.get? key = some e → grown.get? key = some e) ∧
    (∀ key, ix.get? key = Index.first? (files.flatMap Index.entriesOfFile) key) ∧
    (∀ f ∈ files, ∀ key e, (key, e) ∈ Index.entriesOfFile f → ∃ before after,
      Index.entriesOfFile f =
        before ++ Index.entriesOfList (some key) e.host.space e.file e.host.nested ++
          (key, e) :: after) ∧
    (∀ key e, ix.get? key = some e →
      (key = match e.container with
        | some outer => qualify outer e.host.name
        | none => qualify e.host.space e.host.name) ∧
      (∀ outer, e.container = some outer → outer ∈ ix.keys) ∧
      ∃ f ∈ files, ∃ n, Index.Comes f key e n ∧
        (e.host.space = "" ↔ ∀ t ∈ n.type :: n.around, t.space = "")) ∧
    ∀ scope written, Index.Nears (scope.candidates written) (ix.lookup? scope written)
      (grown.lookup? scope written) := by
  intro ix grown
  have kept : ∀ key e, ix.get? key = some e → grown.get? key = some e :=
    fun _ _ found => Index.get?_of_get? found more
  have none : (Index.empty name root).keys.Nodup := List.nodup_nil
  have distinct : ix.keys.Nodup := Index.nodup_foldl_addFile none files
  refine ⟨⟨Index.prefix_foldl_addFile more ix, Index.nodup_foldl_addFile distinct more, kept⟩,
    Index.get?_ofFiles files, fun f _ key e => Index.exists_nested_before_of_mem_entriesOfFile,
    fun key e found => ?linked, Index.nears_lookup? kept⟩
  obtain ⟨f, hf, member⟩ := Index.exists_file_of_get?_ofFiles found
  obtain ⟨n, comes⟩ := Index.exists_comes member
  exact ⟨Index.key_eq_of_mem_entriesOfFile member, fun _ => Index.container_mem_keys found,
    f, hf, n, comes, comes.space_eq_empty_iff⟩

/-- A class in a namespace, under the name that a nested class of another file has as well. -/
def spacedFile : File :=
  ⟨⟨"/p/Spaced.cs"⟩, [], [⟨"B", "A", .classKind, [], none, [], [], []⟩], []⟩

/-- A class in a class in a class, all of them without a namespace. -/
def nestedFile : File :=
  ⟨⟨"/p/Nested.cs"⟩, [],
    [⟨"A", "", .classKind, [], none, [], [⟨"B", "", .classKind, [], none, [],
      [⟨"C", "", .classKind, [], none, [], [], []⟩], []⟩], []⟩], []⟩

-- The types around a type are those of its own declaration. Under their names the first
-- one is indexed.
example :
    let ix := Index.ofFiles "App" ⟨"/p"⟩ [spacedFile, nestedFile]
    (ix.get? "A.B.C").map (fun e => (e.container, e.host.space)) = some (some "A.B", "") ∧
      (ix.get? "A.B").map (fun e => (e.file, e.host.space)) =
        some (some ⟨"/p/Spaced.cs"⟩, "A") := by
  decide +kernel

end Ambient
