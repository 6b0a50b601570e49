import Ambient.Proofs.Index.Entries
import Ambient.Proofs.Translation.Dangling

/-!
# The order of the files of a project

A translation asks an index for names and for nothing else. So two indexes of one project that give
the same answers lead to the same declarations and the same sidecar, and files that share no name
may be indexed in any order. The lemmas go from the lookup of a name to the whole file.
-/
namespace Ambient

open Host

namespace Setting

/-- A setting with another index of its project. -/
def withIndex (s : Setting) (ix : Index) : Setting := { s with project := ix }

variable {s : Setting} {ix : Index} {sidecar : Sidecar}

theorem lookup?_withIndex (alike : s.project.Alike ix) (site : Site) (written : String) :
    (s.withIndex ix).lookup? site written = s.lookup? site written :=
  congrArg (s.own.lookup? (s.scope site) written).or
    (Index.lookup?_congr alike.get? (s.scope site) written).symm

theorem get?_withIndex (alike : s.project.Alike ix) (key : String) :
    (s.withIndex ix).get? key = s.get? key :=
  congrArg (s.own.get? key).or (alike.get? key).symm

theorem siteIn_congr {a b : Setting} (same : ∀ key, a.get? key = b.get? key)
    (module_ key : String) (host : TypeDecl) :
    a.siteIn module_ key host = b.siteIn module_ key host := by
  simp only [siteIn, outward_congr fun key => congrArg (·.bind (·.container)) (same key)]

theorem siteIn_withIndex (alike : s.project.Alike ix) (module_ key : String) (host : TypeDecl) :
    (s.withIndex ix).siteIn module_ key host = s.siteIn module_ key host :=
  siteIn_congr (get?_withIndex alike) module_ key host

theorem itemName_withIndex (alike : s.project.Alike ix) (file : Path) :
    (s.withIndex ix).itemName file = s.itemName file := by
  simp only [itemName, withIndex, alike.root]

theorem addReference_withIndex (alike : s.project.Alike ix) (key : String) (e : Entry) :
    (s.withIndex ix).addReference key e = s.addReference key e := by
  have name : (s.withIndex ix).project.name = s.project.name := alike.name.symm
  simp only [addReference, itemName_withIndex alike, name]
  rfl

theorem homeOutput_withIndex (alike : s.project.Alike ix) (home : TypeHome) :
    (s.withIndex ix).homeOutput home = s.homeOutput home := by
  simp only [homeOutput, withIndex, alike.root]

theorem sense_withIndex (alike : s.project.Alike ix) (done : List String) (site : Site)
    (written : String) : (s.withIndex ix).sense done site written = s.sense done site written := by
  simp only [sense, lookup?_withIndex alike]

theorem assumedType_withIndex (alike : s.project.Alike ix) (site : Site) (written : String) :
    (s.withIndex ix).assumedType site written = s.assumedType site written := by
  simp only [assumedType, homeOutput_withIndex alike]
  rfl

theorem resolveName_withIndex (alike : s.project.Alike ix) (done : List String) (site : Site)
    (written : String) :
    (s.withIndex ix).resolveName done site written = s.resolveName done site written := by
  rw [resolveName_eq, resolveName_eq, sense_withIndex alike]
  cases h : s.sense done site written with
  | inlined key e =>
    have := remaining_lt_of_inlined h
    have inner : (s.withIndex ix).resolveName (key :: done)
        ((s.withIndex ix).siteIn site.module_ key e.host) =
          s.resolveName (key :: done) (s.siteIn site.module_ key e.host) := by
      funext name
      rw [siteIn_withIndex alike, resolveName_withIndex alike]
    simp only [inner]
    rfl
  | declared key e =>
    simp only [addReference_withIndex alike]
    rfl
  | missing =>
    simp only [assumedType_withIndex alike]
    rfl
  | expanding e => rfl
  | interface => rfl
  | number => rfl
termination_by s.remaining done

theorem baseSense_withIndex (alike : s.project.Alike ix) (visited : List String) (site : Site)
    (written : String) :
    (s.withIndex ix).baseSense sidecar visited site written =
      s.baseSense sidecar visited site written := by
  simp only [baseSense, lookup?_withIndex alike]
  rfl

theorem innerBases_withIndex (alike : s.project.Alike ix) (site : Site) (key : String) (e : Entry) :
    (s.withIndex ix).innerBases site key e = s.innerBases site key e := by
  simp only [innerBases, siteIn_withIndex alike]

theorem searchBase_withIndex (alike : s.project.Alike ix) (visited : List String)
    (work : List (Site × String)) :
    (s.withIndex ix).searchBase sidecar visited work = s.searchBase sidecar visited work := by
  induction visited, work using @searchBase_induction s sidecar with
  | nil visited => simp only [searchBase]
  | passed visited site written work sense ih =>
    simp only [searchBase_cons, baseSense_withIndex alike, sense, ih]
  | declared visited site written work key e sense =>
    simp only [searchBase_cons, baseSense_withIndex alike, sense]
  | known visited site written work home sense =>
    simp only [searchBase_cons, baseSense_withIndex alike, sense]
  | opened visited site written work key e sense ih =>
    simp only [searchBase_cons, baseSense_withIndex alike, sense, innerBases_withIndex alike, ih]

theorem resolveBase_withIndex (alike : s.project.Alike ix) (site : Site) (bases : List String) :
    (s.withIndex ix).resolveBase site bases = s.resolveBase site bases := by
  simp only [resolveBase, searchBase_withIndex alike, addReference_withIndex alike,
    homeOutput_withIndex alike]
  rfl

mutual
theorem nestedEnums_withIndex (space : String) (t : TypeDecl) :
    (s.withIndex ix).nestedEnums space t = s.nestedEnums space t := by
  match t with
  | ⟨name, ownSpace, kind, bases, summary, members, nested, attributes⟩ =>
    have inside := fun space => nestedEnumsIn_withIndex space nested
    simp only [nestedEnums, inside]
    rfl

theorem nestedEnumsIn_withIndex (space : String) (ts : List TypeDecl) :
    (s.withIndex ix).nestedEnumsIn space ts = s.nestedEnumsIn space ts := by
  match ts with
  | [] => rw [nestedEnumsIn, nestedEnumsIn]
  | t :: more => rw [nestedEnumsIn, nestedEnumsIn, nestedEnums_withIndex, nestedEnumsIn_withIndex]
end

theorem classDeclaration_withIndex (alike : s.project.Alike ix) (t : TypeDecl) :
    (s.withIndex ix).classDeclaration t sidecar = s.classDeclaration t sidecar := by
  have names : ∀ done site, (s.withIndex ix).resolveName done site = s.resolveName done site := by
    intro done site
    funext written
    exact resolveName_withIndex alike done site written
  simp only [classDeclaration, resolveBase_withIndex alike, names]
  rfl

theorem topLevel_withIndex (alike : s.project.Alike ix) (t : TypeDecl) :
    (s.withIndex ix).topLevel t sidecar = s.topLevel t sidecar := by
  simp only [topLevel, classDeclaration_withIndex alike, nestedEnumsIn_withIndex]
  rfl

theorem declareAll_withIndex (alike : s.project.Alike ix) (ts : List TypeDecl) (sidecar : Sidecar) :
    (s.withIndex ix).declareAll sidecar ts = s.declareAll sidecar ts := by
  induction ts generalizing sidecar with
  | nil => rw [declareAll, declareAll]
  | cons t more ih => simp only [declareAll, topLevel_withIndex alike, ih]

/-- Indexes that give the same answers lead to the same translation. -/
theorem translate_withIndex (alike : s.project.Alike ix) (sidecar : Sidecar) :
    (s.withIndex ix).translate sidecar = s.translate sidecar := by
  have all := declareAll_withIndex alike s.file.types (s.startingSidecar sidecar)
  exact congrArg (fun result => (result.1.eraseDupsBy sameName, result.2)) all

theorem of_withIndex {file : File} {project : Index} {options : Options}
    (alike : project.Alike ix) :
    (Setting.of file project options).withIndex ix = Setting.of file ix options := by
  simp only [Setting.of, withIndex, alike.name, alike.root]

/-- The files beside the one that is translated may be indexed in any order, if no name comes from
two of them. -/
theorem translate_perm (file : File) {files others : List File} (perm : files.Perm others)
    (apart : Index.Apart files) (name : String) (root : Path) (options : Options)
    (sidecar : Sidecar) :
    (Setting.of file (.ofFiles name root (file :: files)) options).translate sidecar =
      (Setting.of file (.ofFiles name root (file :: others)) options).translate sidecar := by
  have alike := Index.ofFiles_perm file perm apart name root
  rw [← of_withIndex alike]
  exact (translate_withIndex alike sidecar).symm

/-- A class with a base and a member that other files declare. -/
def clientFile : File where
  path := ⟨"/p/Client.cs"⟩
  usings := []
  types := [⟨"Client", "App", .classKind, ["Order"], none,
    [⟨"Latest", "Ticket", none, none, []⟩], [], []⟩]
  externalTypes := []

theorem apart_of_ticket : Index.Apart [ticketFile, orderFile] := by
  have ticket : Index.keysOfFile ticketFile = ["App.Ticket"] := by decide +kernel
  have order : Index.keysOfFile orderFile = ["App.Order.State", "App.Order"] := by decide +kernel
  intro f hf g hg key one two
  rcases List.mem_pair.mp hf with rfl | rfl <;> rcases List.mem_pair.mp hg with rfl | rfl
  · rfl
  · simp_all
  · simp_all
  · rfl

/-- The files of the base and of the member's type change places. -/
theorem translate_perm_of_client :
    [ticketFile, orderFile].Perm [orderFile, ticketFile] ∧
      Index.Apart [ticketFile, orderFile] ∧
      (Setting.of clientFile (.ofFiles "App" ⟨"/p"⟩ [clientFile, ticketFile, orderFile])
        .default).translate .empty =
      (Setting.of clientFile (.ofFiles "App" ⟨"/p"⟩ [clientFile, orderFile, ticketFile])
        .default).translate .empty := by
  have swapped : [ticketFile, orderFile].Perm [orderFile, ticketFile] := .swap _ _ []
  refine ⟨swapped, apart_of_ticket, ?_⟩
  exact translate_perm clientFile swapped apart_of_ticket "App" ⟨"/p"⟩ .default .empty

end Setting

end Ambient
