import Ambient.Proofs.Translation.Declared

/-!
# No dangling names

The object of a class mentions declared types by name. Each of them comes from one file of the
project, and that file emits an object of this name when it is translated; the object's references
are the outputs of these files, the class's own file aside.
-/
namespace Ambient

open Host

namespace Setting

/-- `s.Mentions sidecar t key e`: the object of the class `t` mentions the declared type `e` by
name, in the type of a member, inside a shape at any depth of it, or as its base. -/
inductive Mentions (s : Setting) (sidecar : Sidecar) (t : TypeDecl) : String → Entry → Prop
  | member {m : Host.Member} {name key : String} {e : Entry} :
    m ∈ t.members → m.isIgnored = false → m.subject? = some name →
    s.Reaches [t.qualifiedName] (s.siteOf t) name key e → Mentions s sidecar t key e
  | base {key : String} {e : Entry} :
    s.baseFound sidecar t = some (.declared key e) → Mentions s sidecar t key e

variable {s : Setting} {sidecar : Sidecar} {t : TypeDecl} {key : String} {e : Entry}

theorem mem_classVisits_iff :
    FoundBase.declared key e ∈ s.classVisits sidecar t ↔ s.Mentions sidecar t key e := by
  rw [classVisits, List.mem_append, Option.mem_toList]
  constructor
  · rintro (base | member)
    · exact .base base
    · obtain ⟨m, hm, met⟩ := List.mem_flatMap.mp member
      obtain ⟨hm, kept⟩ := List.mem_filter.mp hm
      cases subject : m.subject? with
      | none => simp [subject] at met
      | some name =>
        rw [subject, Option.elim_some] at met
        exact .member hm (by simpa using kept) subject (mem_visits_iff.mp met)
  · rintro (⟨hm, kept, subject, reaches⟩ | base)
    · right
      refine List.mem_flatMap.mpr ⟨_, List.mem_filter.mpr ⟨hm, by simp [kept]⟩, ?_⟩
      rw [subject, Option.elim_some]
      exact mem_visits_iff.mpr reaches
    · exact .inl base

theorem lookup?_of_reaches {done : List String} {site : Site} {written : String}
    (h : s.Reaches done site written key e) :
    ∃ site name, s.lookup? site name = some (key, e) ∧ e.isDeclared = true := by
  induction h with
  | named found declared => exact ⟨_, _, found, declared⟩
  | inside _ _ _ _ _ _ _ _ ih => exact ih

theorem lookup?_of_mentions (h : s.Mentions sidecar t key e) :
    ∃ site name, s.lookup? site name = some (key, e) ∧ e.isDeclared = true := by
  cases h with
  | member _ _ _ reaches => exact lookup?_of_reaches reaches
  | base found =>
    obtain ⟨site, name, looked, _, declared⟩ := lookup?_of_searchBase [] _ found
    exact ⟨site, name, looked, declared⟩

/-- Where no types are assumed, everything that a class meets is mentioned by name. -/
theorem declared_of_mem_classVisits (assumes : s.options.assumeExternalType = false)
    {v : FoundBase} (h : v ∈ s.classVisits sidecar t) : ∃ key e, v = .declared key e := by
  cases v with
  | declared key e => exact ⟨key, e, rfl⟩
  | known home =>
    exfalso
    rcases List.mem_append.mp h with base | member
    · exact searchBase_ne_known assumes _ _ home (Option.mem_toList.mp base)
    · obtain ⟨m, _, met⟩ := List.mem_flatMap.mp member
      cases subject : m.subject? with
      | none => simp [subject] at met
      | some name =>
        rw [subject, Option.elim_some] at met
        exact known_notMem_visits assumes met

/-- The references of a class's object are the outputs of the files, other than its own, whose types
it mentions. -/
theorem mem_references_iff (assumes : s.options.assumeExternalType = false) (p : Path) :
    (∃ q ∈ (s.classObject sidecar t).references, q.same p = true) ↔
      ∃ key e file, s.Mentions sidecar t key e ∧ e.file = some file ∧
        file.same s.file.path = false ∧ (s.naming.outputPath file).same p = true := by
  show (∃ q ∈ ((s.classVisits sidecar t).filterMap s.outputOf?).foldl Path.insertNew [], _) ↔
    _
  rw [Path.exists_same_foldl_insertNew]
  simp only [List.nil_append, List.mem_filterMap]
  constructor
  · rintro ⟨q, ⟨v, met, out⟩, same⟩
    obtain ⟨key, e, rfl⟩ := declared_of_mem_classVisits assumes met
    obtain ⟨file, declares, other, rfl⟩ := outputOf?_declared.mp out
    exact ⟨key, e, file, mem_classVisits_iff.mp met, declares, other, same⟩
  · rintro ⟨key, e, file, mentions, declares, other, same⟩
    exact ⟨_, ⟨_, mem_classVisits_iff.mpr mentions, outputOf?_declared.mpr
      ⟨file, declares, other, rfl⟩⟩, same⟩

/-- An object is an enum's, which refers to nothing, or comes from a class. -/
theorem enum_or_class_of_mem {d : Declaration}
    (h : ∃ t ∈ s.file.types, d ∈ s.objectsOf sidecar t) :
    (d.isEnum = true ∧ d.references = []) ∨
      ∃ t ∈ s.file.types, t.kind = .classKind ∧ d = s.classObject sidecar t := by
  obtain ⟨t, ht, hd⟩ := h
  unfold objectsOf at hd
  split at hd
  · cases hd
  · rw [List.mem_singleton.mp hd]
    exact .inl ⟨rfl, rfl⟩
  · rename_i kind
    rcases List.mem_cons.mp hd with rfl | nested
    · exact .inr ⟨t, ht, kind, rfl⟩
    · exact .inl (enum_of_mem_nestedEnumsIn nested)

theorem get?_own {f : File} {project : Index} {o : Options} (key : String) :
    (Setting.of f project o).own.get? key = Index.first? (Index.entriesOfFile f) key :=
  Index.get?_ofFile f key

/-- A declared type that a lookup finds comes from a file of the project. -/
theorem exists_file_of_lookup? {f : File} {others : List File} {name : String} {root : Path}
    {o : Options} {site : Site} {written : String} (declared : e.isDeclared = true)
    (h : (Setting.of f (Index.ofFiles name root (f :: others)) o).lookup? site written =
      some (key, e)) :
    ∃ g ∈ f :: others, (key, e) ∈ Index.entriesOfFile g ∧ e.file = some g.path := by
  have hasFile : e.file.isSome = true := by
    simp only [Entry.isDeclared, Bool.and_eq_true] at declared
    exact declared.1.1
  have origin : ∃ g ∈ f :: others, (key, e) ∈ Index.entriesOfFile g := by
    rcases Option.or_eq_some_iff.mp h with own | ⟨_, project⟩
    · have found := (get?_own key).symm.trans (Index.get?_of_lookup? own)
      exact ⟨f, List.mem_cons_self, Index.mem_of_first? found⟩
    · have found := (Index.get?_ofFiles (f :: others) key).symm.trans
        (Index.get?_of_lookup? project)
      exact List.mem_flatMap.mp (Index.mem_of_first? found)
  obtain ⟨g, hg, entry⟩ := origin
  exact ⟨g, hg, entry,
    Index.file_of_mem_entriesOfList (Index.mem_of_mem_entriesOfFile entry hasFile)⟩

end Setting

/-- Paths that are pairwise different name one file each. -/
theorem eq_of_same_path {files : List File} {g h : File}
    (distinct : files.Pairwise fun g h => g.path.same h.path = false) (hg : g ∈ files)
    (hh : h ∈ files) (same : g.path.same h.path = true) : g = h := by
  have forward : files.Pairwise fun a b => a.path.same b.path = true → a = b :=
    distinct.imp fun differ same => absurd same (by simp [differ])
  have backward : files.Pairwise (flip fun a b => a.path.same b.path = true → a = b) :=
    distinct.imp fun differ same =>
      absurd (Path.same_iff.mpr (Path.same_iff.mp same).symm) (by simp [differ])
  exact forward.forall_of_forall_of_flip (fun _ _ _ => rfl) backward hg hh same

/-- In a project of files read from source, every declared type that an object mentions is emitted
by the one file that declares it, under the name it is mentioned by, and the references of an object
are the outputs of the files of the types it mentions. -/
theorem no_dangling_names {f : File} {others : List File} {name : String} {root : Path}
    {o : Options} {sidecar : Sidecar}
    (source : ∀ g ∈ f :: others, ∃ text, File.parse g.path text = .ok g)
    (distinct : (f :: others).Pairwise fun g h => g.path.same h.path = false)
    (assumes : o.assumeExternalType = false) :
    let s := Setting.of f (Index.ofFiles name root (f :: others)) o
    let start := s.startingSidecar sidecar
    (∀ t key e, s.Mentions start t key e →
      ∃ g ∈ f :: others, e.file = some g.path ∧
        (∀ h ∈ f :: others, h.path.same g.path = true → h = g) ∧
        ∀ project sidecar, ∃ d ∈ ((Setting.of g project o).translate sidecar).1,
          d.space = s.moduleName e.host.space ∧ d.name = e.host.name) ∧
    ∀ d ∈ (s.translate sidecar).1,
      (d.isEnum = true ∧ d.references = []) ∨
        ∃ t ∈ f.types, t.kind = .classKind ∧ d = s.classObject start t ∧
          ∀ p, (∃ q ∈ d.references, q.same p = true) ↔
            ∃ key e file, s.Mentions start t key e ∧ e.file = some file ∧
              file.same f.path = false ∧ (s.naming.outputPath file).same p = true := by
  intro s start
  refine ⟨?emitted, ?references⟩
  case emitted =>
    intro t key e mentions
    obtain ⟨site, written, looked, declared⟩ := Setting.lookup?_of_mentions mentions
    obtain ⟨g, hg, entry, file⟩ := Setting.exists_file_of_lookup? declared looked
    refine ⟨g, hg, file, ?_, ?_⟩
    · intro h hh same
      exact eq_of_same_path distinct hh hg same
    · intro project sidecar
      obtain ⟨text, parsed⟩ := source g hg
      have translated := Setting.translate_eq (s := Setting.of g project o) sidecar
        fun assumed => absurd assumed (by simp [Setting.of, assumes])
      obtain ⟨d, hd, space, named⟩ := Setting.exists_object (s := Setting.of g project o)
        (fromSource_of_parse parsed).1 entry declared
      obtain ⟨first, hf, space', named'⟩ := exists_sameName_of_mem hd
      rw [translated]
      exact ⟨first, hf, space'.trans space, named'.trans named⟩
  case references =>
    intro d hd
    rw [Setting.translate_eq sidecar fun assumed =>
      absurd assumed (by simp [s, Setting.of, assumes])] at hd
    have among := List.mem_flatMap.mp (mem_of_mem_eraseDupsBy hd)
    rcases Setting.enum_or_class_of_mem among with enum | ⟨t, ht, kind, rfl⟩
    · exact .inl enum
    · exact .inr ⟨t, ht, kind, rfl, Setting.mem_references_iff assumes⟩

/-- A class with a member whose type is a nested enum of another file. -/
def ticketFile : File where
  path := ⟨"/p/Ticket.cs"⟩
  usings := []
  types := [⟨"Ticket", "App", .classKind, [], none,
    [⟨"Current", "Order.State", none, none, []⟩], [], []⟩]
  externalTypes := []

def orderFile : File where
  path := ⟨"/p/Order.cs"⟩
  usings := []
  types := [⟨"Order", "App", .classKind, [], none, [],
    [⟨"State", "App", .enumKind, [], none, [⟨"Open", "", none, none, []⟩], [], []⟩], []⟩]
  externalTypes := []

theorem source_of_ticket :
    ∀ g ∈ [ticketFile, orderFile], ∃ text, File.parse g.path text = .ok g := by
  intro g hg
  rcases List.mem_cons.mp hg with rfl | hg
  · refine ⟨"namespace App \x7b public class Ticket \x7b public Order.State Current " ++
      "\x7b get; set; \x7d \x7d \x7d", ?_⟩
    with_unfolding_all rfl
  · rw [List.mem_singleton.mp hg]
    refine ⟨"namespace App \x7b public class Order \x7b " ++
      "public enum State \x7b Open \x7d \x7d \x7d", ?_⟩
    with_unfolding_all rfl

/-- The type of a ticket's member is emitted by the other file. -/
theorem no_dangling_names_of_ticket :
    ∃ d ∈ ((Setting.of orderFile (Index.ofFiles "App" ⟨"/p"⟩ [ticketFile, orderFile])
        .default).translate .empty).1, d.space = "App" ∧ d.name = "State" := by
  have whole := @no_dangling_names ticketFile [orderFile] "App" ⟨"/p"⟩ .default .empty
    source_of_ticket (by decide) rfl
  have mentions : (Setting.of ticketFile (Index.ofFiles "App" ⟨"/p"⟩ [ticketFile, orderFile])
      .default).Mentions .empty (ticketFile.types.head (by decide)) "App.Order.State"
      ⟨⟨"State", "App", .enumKind, [], none, [⟨"Open", "", none, none, []⟩], [], []⟩,
        some "App.Order", some ⟨"/p/Order.cs"⟩⟩ := by
    refine .member (m := ⟨"Current", "Order.State", none, none, []⟩) List.mem_cons_self rfl
      (by with_unfolding_all rfl) (.named (by with_unfolding_all rfl) rfl)
  obtain ⟨g, hg, file, _, emitted⟩ := whole.1 _ _ _ mentions
  rcases List.mem_cons.mp hg with rfl | hg
  · exact absurd file (by decide)
  · rw [List.mem_singleton.mp hg] at emitted
    exact emitted _ _

end Ambient
