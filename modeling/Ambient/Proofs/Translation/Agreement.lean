import Ambient.Proofs.Path.FileName
import Ambient.Proofs.Resolution.Reach
import Ambient.Proofs.Translation.Dangling
import Ambient.Proofs.Translation.Objects

/-!
# Homes and directives agree

A translation records a home for each type of another file that it meets, and an object refers to
the output of the file of each type it meets. The two are kept side by side; this module says that
neither runs ahead of the other.

The path of a directory may be spelled with doubled slashes, single dots or a slash at the end.
What stands behind it in the path of a file is the same for all spellings, and so is where the
output of the file lies.
-/
namespace Ambient

namespace Path
variable {root dir other : Path} {names : List String} {name : String}

/-- A file at an ordinary place below a directory: its path is that of the directory that holds it,
however this is spelled, and its name. -/
def Holds (root file : Path) : Prop :=
  ∃ (dir : Path) (names : List String) (name : String), (∀ n ∈ names ++ [name], IsEntry n) ∧
    dir.components = root.components ++ names.map .normal ∧ file = dir.join ⟨name⟩

theorem components_eq_nil_iff : dir.components = [] ↔ dir.text = "" := by
  constructor
  · intro nothing
    unfold components at nothing
    cases split : Text.pieces isSlash dir.text.toList with
    | nil => exact absurd split (Text.pieces_ne_nil _)
    | cons first more =>
      rw [split, componentsOf] at nothing
      by_cases slash : first = []
      · by_cases alone : more = []
        · rw [slash, alone] at split
          exact String.toList_eq_nil_iff.mp (Text.eq_nil_of_pieces split)
        · simp [slash, alone] at nothing
      · by_cases dot : first = ['.'] <;> simp [slash, dot] at nothing
  · intro nothing
    rw [components, nothing]
    rfl

/-- Directories with the same components lead to the same. -/
theorem same_lead_append (same : dir.components = other.components) (text : String) :
    Path.same ⟨dir.lead ++ text⟩ ⟨other.lead ++ text⟩ = true := by
  apply same_iff.mpr
  by_cases here : dir.text = ""
  · have there := components_eq_nil_iff.mp (same ▸ components_eq_nil_iff.mpr here)
    simp [lead, here, there]
  · have there : other.text ≠ "" := fun none =>
      here (components_eq_nil_iff.mp (same ▸ components_eq_nil_iff.mpr none))
    rw [components_lead_append here, components_lead_append there, same]

theorem exists_pieces_join (entry : IsEntry name) (dir : Path) :
    ∃ front, Text.pieces isSlash (dir.join ⟨name⟩).text.toList = front ++ [name.toList] ∧
      ∀ last, last ≠ [] → ofPieces (front ++ [last]) =
        ⟨dir.lead ++ String.ofList last⟩ := by
  rw [join_entry entry, String.toList_append]
  rcases dir.lead_cases with nothing | ⟨front, slash⟩
  · refine ⟨[], ?_, ?_⟩
    · rw [nothing]
      exact pieces_of_entry entry
    · intro last some
      rw [nothing, List.nil_append, ofPieces, if_neg (by simpa using some)]
      simp [Text.joinWith]
  · refine ⟨Text.pieces isSlash front, ?_, ?_⟩
    · rw [slash, List.append_assoc, List.singleton_append, Text.pieces_append_cons rfl,
        pieces_of_entry entry]
    · intro last some
      have going := Text.pieces_ne_nil (p := isSlash) front
      have several : Text.pieces isSlash front ++ [last] ≠ [[]] := by
        intro same
        have ends := congrArg List.getLast? same
        rw [List.getLast?_concat] at ends
        exact some (Option.some.inj ends)
      rw [ofPieces, if_neg several, Text.joinWith_concat _ going, joinWith_pieces, ← slash,
        String.ofList_append, String.ofList_toList]

/-- Another extension changes the name of a file and leaves the directory in front of it. -/
theorem exists_withExtension_join (entry : IsEntry name) (extension : String) :
    ∃ last, ∀ dir : Path, (dir.join ⟨name⟩).withExtension extension =
      ⟨dir.lead ++ last⟩ := by
  refine ⟨(⟨name⟩ : Path).renamed name extension, ?_⟩
  intro dir
  obtain ⟨front, split, joined⟩ := exists_pieces_join entry dir
  unfold withExtension
  simp only [fileName?_join entry]
  rw [spine_of_pieces split (isIdle_of_isName entry.isName_toList), List.dropLast_concat,
    renamed_of_pieces split, joined _ (renamed_ne_nil entry.toList_ne_nil extension),
    String.ofList_toList]

/-- Where the output of a file lies does not depend on how the directory of the file is spelled. -/
theorem same_outputPath_join (n : OutputNaming) (entry : IsEntry name)
    (same : dir.components = other.components) :
    (n.outputPath (dir.join ⟨name⟩)).same (n.outputPath (other.join ⟨name⟩)) = true := by
  unfold OutputNaming.outputPath
  split
  · rw [append, append, join_entry entry, join_entry entry, String.append_assoc,
      String.append_assoc]
    exact same_lead_append same _
  · obtain ⟨last, renamed⟩ := exists_withExtension_join entry n.bareExtension
    rw [renamed, renamed]
    exact same_lead_append same _

end Path

/-- The item name of a file that the project's root holds leads back to the output of this file. -/
theorem Setting.same_homeOutput {s : Setting} {key : String} {file : Path}
    (held : s.project.root.Holds file) :
    (s.homeOutput ⟨key, s.project.name, s.itemName file⟩).same
      (s.naming.outputPath file) = true := by
  obtain ⟨dir, names, name, proper, place, rfl⟩ := held
  have entry : Path.IsEntry name := proper name (by simp)
  have inner : ∀ n ∈ names, Path.IsEntry n := fun n hn => proper n (List.mem_append_left _ hn)
  have going : names ++ [name] ≠ [] := by simp
  have down : s.project.root.descend (names ++ [name]) =
      (s.project.root.descend names).join ⟨name⟩ := by
    rw [Path.descend, List.foldl_append]
    rfl
  have above : (s.project.root.descend names).components = dir.components := by
    rw [place]
    by_cases none : names = []
    · simp [none, Path.descend]
    · exact Path.components_descend inner none
  have whole : (dir.join ⟨name⟩).components =
      (s.project.root.descend (names ++ [name])).components := by
    rw [down]
    rw [Path.join_entry entry, Path.join_entry entry]
    exact Path.same_iff.mp (Path.same_lead_append above.symm name)
  have below : s.project.root.below? (dir.join ⟨name⟩) =
      s.project.root.below? (s.project.root.descend (names ++ [name])) := by
    unfold Path.below?
    rw [whole]
  have item : s.itemName (dir.join ⟨name⟩) =
      s.itemName (s.project.root.descend (names ++ [name])) := by
    rw [itemName, itemName, below, Path.below?_descend proper going]
  rw [homeOutput, item, Setting.join_itemName proper going, down]
  exact Path.same_outputPath_join s.naming entry above

open Host

namespace Setting

/-- The setting of a run over the files of a project, with any naming of the outputs. -/
def among (f : File) (files : List File) (name : String) (root : Path) (o : Options)
    (naming : OutputNaming) : Setting :=
  { Setting.of f (Index.ofFiles name root files) o with naming }

section
variable {f : File} {files : List File} {name : String} {root : Path} {o : Options}
  {naming : OutputNaming} {sidecar : Sidecar} {t : TypeDecl} {site : Site} {written key : String}
  {e : Entry} {file : Path}

theorem root_among : (among f files name root o naming).project.root = root :=
  (Index.root_ofFiles files).1

/-- What a lookup finds belongs to the file at hand, or to no file, or is the entry of its
key in the project. -/
theorem get?_of_lookup?_among (looked : (among f files name root o naming).lookup? site written =
      some (key, e)) (declares : e.file = some file) (other : file.same f.path = false) :
    (Index.ofFiles name root files).get? key = some e := by
  rcases Option.or_eq_some_iff.mp looked with own | ⟨-, project⟩
  · have entry := Index.mem_of_first?
      ((Index.get?_ofFile f key).symm.trans (Index.get?_of_lookup? own))
    have here := Index.file_of_mem_entriesOfList
      (Index.mem_of_mem_entriesOfFile entry (by rw [declares]; rfl))
    rw [declares] at here
    rw [Option.some.inj here, Path.same_iff.mpr rfl] at other
    cases other
  · exact Index.get?_of_lookup? project

/-- A file that an entry of the project names is one of its files. -/
theorem exists_path_of_get? (found : (Index.ofFiles name root files).get? key = some e)
    (declares : e.file = some file) : ∃ g ∈ files, g.path = file := by
  obtain ⟨g, hg, entry⟩ := List.mem_flatMap.mp
    (Index.mem_of_first? ((Index.get?_ofFiles files key).symm.trans found))
  have here := Index.file_of_mem_entriesOfList
    (Index.mem_of_mem_entriesOfFile entry (by rw [declares]; rfl))
  exact ⟨g, hg, Option.some.inj (here.symm.trans declares)⟩

/-- `s.Meets sidecar key e file`: some class of the file at hand mentions the type `e`, which
another file declares. -/
def Meets (s : Setting) (sidecar : Sidecar) (key : String) (e : Entry) (file : Path) : Prop :=
  (∃ t ∈ s.file.types, t.kind = .classKind ∧ s.Mentions sidecar t key e) ∧
    e.file = some file ∧ file.same s.file.path = false

theorem homeOf?_declared {s : Setting} {home : TypeHome} :
    s.homeOf? (.declared key e) = some home ↔
      ∃ file, e.file = some file ∧ file.same s.file.path = false ∧
        home = ⟨key, s.project.name, s.itemName file⟩ := by
  cases declared : e.file with
  | none => simp [homeOf?, declared]
  | some file =>
    cases own : file.same s.file.path with
    | true => simp [homeOf?, declared, own]
    | false =>
      simp only [homeOf?, declared, own, Option.bind_some, Bool.false_eq_true, if_false,
        Option.some.injEq, exists_eq_left', true_and]
      exact eq_comm

theorem alone_of_not_assuming {s : Setting} (assumes : s.options.assumeExternalType = false) :
    s.options.assumeExternalType = true → s.Alone := by
  intro assumed
  rw [assumes] at assumed
  cases assumed

/-- Where no types are assumed, the homes are found afresh. -/
theorem startingSidecar_afresh {s : Setting} (assumes : s.options.assumeExternalType = false) :
    s.startingSidecar sidecar = { sidecar with homes := [] } := by
  unfold startingSidecar
  rw [if_neg]
  simp [assumes]

theorem mem_homesOf_iff {s : Setting} (assumes : s.options.assumeExternalType = false)
    {home : TypeHome} :
    home ∈ s.homesOf sidecar s.file.types ↔
      ∃ key e file, s.Meets sidecar key e file ∧
        home = ⟨key, s.project.name, s.itemName file⟩ := by
  rw [homesOf, List.mem_filterMap]
  constructor
  · rintro ⟨v, met, recorded⟩
    obtain ⟨t, ht, met⟩ := List.mem_flatMap.mp met
    cases kind : t.kind with
    | classKind =>
      rw [visitsOf, kind] at met
      obtain ⟨key, e, rfl⟩ := declared_of_mem_classVisits assumes met
      obtain ⟨file, declares, other, rfl⟩ := homeOf?_declared.mp recorded
      exact ⟨key, e, file,
        ⟨⟨t, ht, kind, mem_classVisits_iff.mp met⟩, declares, other⟩, rfl⟩
    | interfaceKind => simp [visitsOf, kind] at met
    | enumKind => simp [visitsOf, kind] at met
  · rintro ⟨key, e, file, ⟨⟨t, ht, kind, mentions⟩, declares, other⟩, rfl⟩
    refine ⟨.declared key e, List.mem_flatMap.mpr ⟨t, ht, ?_⟩,
      homeOf?_declared.mpr ⟨file, declares, other, rfl⟩⟩
    rw [visitsOf, kind]
    exact mem_classVisits_iff.mpr mentions

/-- What is left of a run over a project are the homes of the types it meets. -/
theorem mem_homes_among (assumes : o.assumeExternalType = false) {home : TypeHome} :
    let s := among f files name root o naming
    home ∈ (s.translate sidecar).2.homes ↔
      ∃ key e file, s.Meets (s.startingSidecar sidecar) key e file ∧
        home = ⟨key, s.project.name, s.itemName file⟩ := by
  intro s
  have left : (s.translate sidecar).2.homes =
      (s.homesOf (s.startingSidecar sidecar) s.file.types).foldl
        (fun hs h => Sidecar.insertHome h hs) [] := by
    rw [translate_eq sidecar (alone_of_not_assuming (s := s) assumes), Sidecar.homes_foldl_record,
      startingSidecar_afresh (s := s) assumes]
  rw [left, Sidecar.mem_foldl_insertHome List.Pairwise.nil, List.nil_append,
    mem_homesOf_iff (s := s) assumes]
  intro a ha b hb same
  rw [List.nil_append] at ha
  obtain ⟨key, e, file, ⟨⟨_, _, _, mentions⟩, declares, other⟩, rfl⟩ :=
    (mem_homesOf_iff (s := s) assumes).mp ha
  obtain ⟨key', e', file', ⟨⟨_, _, _, mentions'⟩, declares', other'⟩, rfl⟩ :=
    (mem_homesOf_iff (s := s) assumes).mp hb
  have keys : key = key' := same
  subst keys
  obtain ⟨_, _, looked, _⟩ := lookup?_of_mentions mentions
  obtain ⟨_, _, looked', _⟩ := lookup?_of_mentions mentions'
  have entries := (get?_of_lookup?_among looked declares other).symm.trans
    (get?_of_lookup?_among looked' declares' other')
  rw [Option.some.inj entries, declares'] at declares
  rw [Option.some.inj declares]

end

end Setting

/-- The homes that a run leaves and the references of its objects agree. The homes stand in the
order of their type names and owe nothing to the homes that were there before, and nothing else in
the sidecar changes. Every reference is the output of a home's file, and if no object is dropped for
its name, every home's file is referred to. -/
theorem homes_agree {f : File} {files : List File} {name : String} {root : Path} {o : Options}
    {naming : OutputNaming} {sidecar : Sidecar} (held : ∀ g ∈ files, root.Holds g.path)
    (assumes : o.assumeExternalType = false) :
    let s := Setting.among f files name root o naming
    let objects := (s.translate sidecar).1
    let left := (s.translate sidecar).2
    Sidecar.Settled left.homes ∧
      (∀ homes, s.translate { sidecar with homes } = s.translate sidecar) ∧
      left.customName = sidecar.customName ∧ left.copyPaths = sidecar.copyPaths ∧
      (∀ d ∈ objects, ∀ r ∈ d.references, ∃ h ∈ left.homes,
        (s.homeOutput h).same r = true) ∧
      (objects = (s.declareAll (s.startingSidecar sidecar) f.types).1 →
        ∀ p, (∃ h ∈ left.homes, (s.homeOutput h).same p = true) ↔
          ∃ d ∈ objects, ∃ r ∈ d.references, r.same p = true) := by
  intro s objects left
  have apart : s.options.assumeExternalType = false := assumes
  have alone := Setting.alone_of_not_assuming apart
  have kept : left = { sidecar with homes := left.homes } := Setting.sidecar_translate alone
  have afresh : ∀ homes, s.translate { sidecar with homes } = s.translate sidecar := by
    intro homes
    unfold Setting.translate
    rw [Setting.startingSidecar_afresh apart, Setting.startingSidecar_afresh apart]
  -- the home of a type of another file leads to the output of this file
  have leads : ∀ {key e file}, s.Meets (s.startingSidecar sidecar) key e file →
      (s.homeOutput ⟨key, s.project.name, s.itemName file⟩).same
      (s.naming.outputPath file) = true := by
    rintro key e file ⟨⟨t, _, _, mentions⟩, declares, other⟩
    obtain ⟨_, _, looked, _⟩ := Setting.lookup?_of_mentions mentions
    obtain ⟨g, hg, rfl⟩ := Setting.exists_path_of_get?
      (Setting.get?_of_lookup?_among looked declares other) declares
    apply Setting.same_homeOutput
    rw [show s.project.root = root from Setting.root_among]
    exact held g hg
  have forward : ∀ d ∈ objects, ∀ r ∈ d.references,
      ∃ h ∈ left.homes, (s.homeOutput h).same r = true := by
    intro d hd r hr
    rw [show objects = _ from congrArg Prod.fst (Setting.translate_eq sidecar alone)] at hd
    have among := List.mem_flatMap.mp (mem_of_mem_eraseDupsBy hd)
    rcases Setting.enum_or_class_of_mem among with ⟨-, none⟩ | ⟨t, ht, kind, rfl⟩
    · rw [none] at hr
      cases hr
    · obtain ⟨key, e, file, mentions, declares, other, out⟩ :=
        (Setting.mem_references_iff apart r).mp ⟨r, hr, Path.same_iff.mpr rfl⟩
      have meets : s.Meets (s.startingSidecar sidecar) key e file :=
        ⟨⟨t, ht, kind, mentions⟩, declares, other⟩
      refine ⟨_, (Setting.mem_homes_among assumes).mpr ⟨key, e, file, meets, rfl⟩, ?_⟩
      exact Path.same_iff.mpr ((Path.same_iff.mp (leads meets)).trans (Path.same_iff.mp out))
  refine ⟨?settled, afresh, ?name, ?copies, forward, ?both⟩
  case settled =>
    have settled := @Setting.settled_translate s { sidecar with homes := [] } alone
      List.Pairwise.nil
    rw [afresh] at settled
    exact settled
  case name => rw [kept]
  case copies => rw [kept]
  case both =>
    intro whole p
    constructor
    · rintro ⟨h, recorded, out⟩
      obtain ⟨key, e, file, meets, rfl⟩ := (Setting.mem_homes_among assumes).mp recorded
      have shown : (s.naming.outputPath file).same p = true := Path.same_iff.mpr
        ((Path.same_iff.mp (leads meets)).symm.trans (Path.same_iff.mp out))
      obtain ⟨⟨t, ht, kind, mentions⟩, declares, other⟩ := meets
      have refers := (Setting.mem_references_iff apart p).mpr
        ⟨key, e, file, mentions, declares, other, shown⟩
      refine ⟨s.classObject (s.startingSidecar sidecar) t, ?_, refers⟩
      rw [whole, (Setting.declareAll_eq f.types _ fun assumed => ⟨alone assumed, rfl⟩).1]
      refine List.mem_flatMap.mpr ⟨t, ht, ?_⟩
      rw [Setting.objectsOf, kind]
      exact List.mem_cons_self
    · rintro ⟨d, hd, r, hr, out⟩
      obtain ⟨h, recorded, same⟩ := forward d hd r hr
      exact ⟨h, recorded, Path.same_iff.mpr
        ((Path.same_iff.mp same).trans (Path.same_iff.mp out))⟩

/-- The home that is recorded for the type of a ticket's member leads to what the
ticket refers to. -/
theorem homes_agree_of_ticket :
    let s := Setting.among ticketFile [ticketFile, orderFile] "App" ⟨"/p"⟩ .default
      (.ofOptions .default)
    ∃ h ∈ (s.translate .empty).2.homes,
      (s.homeOutput h).same (s.naming.outputPath orderFile.path) = true := by
  intro s
  have held : ∀ g ∈ [ticketFile, orderFile], Path.Holds ⟨"/p"⟩ g.path := by
    intro g hg
    rcases List.mem_cons.mp hg with rfl | hg
    · exact ⟨⟨"/p"⟩, [], "Ticket.cs", by decide, by decide, by decide⟩
    · rw [List.mem_singleton.mp hg]
      exact ⟨⟨"/p"⟩, [], "Order.cs", by decide, by decide, by decide⟩
  have whole := @homes_agree ticketFile [ticketFile, orderFile] "App" ⟨"/p"⟩ .default
    (.ofOptions .default) .empty held rfl
  have looked : (Setting.of ticketFile (Index.ofFiles "App" ⟨"/p"⟩ [ticketFile, orderFile])
      .default).lookup? ⟨"App", ["App.Ticket"], "App"⟩ "Order.State" = some ("App.Order.State",
        ⟨⟨"State", "App", .enumKind, [], none, [⟨"Open", "", none, none, []⟩], [], []⟩,
          some "App.Order", some ⟨"/p/Order.cs"⟩⟩) := by
    with_unfolding_all rfl
  have mentions : s.Mentions .empty (ticketFile.types.head (by decide)) "App.Order.State"
      ⟨⟨"State", "App", .enumKind, [], none, [⟨"Open", "", none, none, []⟩], [], []⟩,
        some "App.Order", some ⟨"/p/Order.cs"⟩⟩ := by
    refine .member (m := ⟨"Current", "Order.State", none, none, []⟩) List.mem_cons_self rfl
      (by with_unfolding_all rfl) (.named looked rfl)
  have other : Path.same ⟨"/p/Order.cs"⟩ ⟨"/p/Ticket.cs"⟩ = false := by decide
  obtain ⟨r, hr, output⟩ := (Setting.mem_references_iff rfl _).mpr
    ⟨_, _, _, mentions, rfl, other, Path.same_iff.mpr rfl⟩
  have objects : s.file.types.flatMap (s.objectsOf .empty) =
      [s.classObject .empty (ticketFile.types.head (by decide))] := rfl
  have object : s.classObject .empty (ticketFile.types.head (by decide)) ∈
      (s.translate .empty).1 := by
    rw [Setting.translate_eq .empty (Setting.alone_of_not_assuming rfl)]
    show _ ∈ (s.file.types.flatMap (s.objectsOf .empty)).eraseDupsBy Setting.sameName
    rw [objects, List.eraseDupsBy_cons]
    exact List.mem_cons_self
  obtain ⟨h, recorded, same⟩ := whole.2.2.2.2.1 _ object r hr
  exact ⟨h, recorded, Path.same_iff.mpr
    ((Path.same_iff.mp same).trans (Path.same_iff.mp output))⟩

end Ambient
