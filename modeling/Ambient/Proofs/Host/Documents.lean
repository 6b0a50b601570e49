import Ambient.Generator
import Ambient.Proofs.Json.Layouts
import Ambient.Proofs.Translation.Dangling

/-!
# Host files survive their documents

A host file that is exported as a document is read back from it. What is left out of the document,
as empty or absent, comes back as empty or absent. Types may nest as deep as values of a document
may: each level of types takes two levels of values, and a type with an argument at an attribute of
a member takes seven.
-/
namespace Ambient.Host

open Json

/-- What a draft holds for a list that is left out when it is empty. -/
def given {α : Type} (xs : List α) : Option (List α) := if xs.isEmpty then none else some xs

@[simp] theorem getD_given {α : Type} (xs : List α) : (given xs).getD [] = xs := by
  cases xs <;> rfl

@[simp] theorem getD_map_some {α : Type} (x : Option α) : (x.map some).getD none = x := by
  cases x <;> rfl

section
variable {α β σ : Type} {r : RecordShape σ α} {a b : σ} {key name : String}
  {others : List String}

theorem takes_unlessEmpty {get : σ → Option (List β)} {set : σ → List β → σ}
    {item : Node → Decoded β} {toValue : β → Value} {xs : List β} {depth : Nat}
    (known : r.field? key = some (.make name others get set (Node.asList (depth + 1) item)))
    (fresh : get a = none) (reads : ∀ x ∈ xs, Reads item (toValue x) x)
    (becomes : b = (given xs).elim a (set a)) :
    r.Takes (unlessEmpty key (xs.map toValue)) a b := by
  cases xs with
  | nil =>
    rw [becomes]
    exact .nil
  | cons x more =>
    exact RecordShape.takes_field known fresh (Node.reads_asList depth reads) becomes.symm

theorem takes_ifPresent {get : σ → Option (Option String)} {set : σ → Option String → σ}
    {s : Option String}
    (known : r.field? key = some (.make name others get set Node.asOptionalText))
    (fresh : get a = none) (becomes : b = (s.map some).elim a (set a)) :
    r.Takes (ifPresent key s) a b := by
  cases s with
  | none =>
    rw [becomes]
    exact .nil
  | some s =>
    exact RecordShape.takes_field known fresh (Node.reads_asOptionalText (some s)) becomes.symm

end

theorem Argument.reads_decode (depth : Nat) (a : Argument) :
    Reads (shape.decode (depth + 1)) a.toJson a := by
  have name : shape.Takes (ifPresent "name" a.name) ⟨none, none⟩ ⟨a.name.map some, none⟩ :=
    takes_ifPresent rfl rfl (by cases a.name <;> rfl)
  have value : shape.Takes [("value", .text a.value)] ⟨a.name.map some, none⟩
      ⟨a.name.map some, some a.value⟩ :=
    RecordShape.takes_field rfl rfl (Node.reads_asText _) rfl
  exact (name.append value).reads (by simp [shape]) depth

theorem Attribute.reads_decode (depth : Nat) (a : Attribute) :
    Reads (decode (depth + 3)) a.toJson a := by
  have name : (shape (depth + 2)).Takes [("name", .text a.name)] ⟨none, none⟩
      ⟨some a.name, none⟩ :=
    RecordShape.takes_field rfl rfl (Node.reads_asText _) rfl
  have args : (shape (depth + 2)).Takes (unlessEmpty "args" (a.args.map Argument.toJson))
      ⟨some a.name, none⟩ ⟨some a.name, given a.args⟩ :=
    takes_unlessEmpty rfl rfl (fun arg _ => arg.reads_decode depth) (by cases a.args <;> rfl)
  exact (name.append args).reads (by simp [shape]) (depth + 2)

theorem Member.reads_decode (depth : Nat) (m : Member) :
    Reads (decode (depth + 5)) m.toJson m := by
  have name : (shape (depth + 4)).Takes [("name", .text m.name)]
      ⟨none, none, none, none, none⟩ ⟨some m.name, none, none, none, none⟩ :=
    RecordShape.takes_field rfl rfl (Node.reads_asText _) rfl
  have typeName : (shape (depth + 4)).Takes [("type", .text m.typeName)]
      ⟨some m.name, none, none, none, none⟩
      ⟨some m.name, some m.typeName, none, none, none⟩ :=
    RecordShape.takes_field rfl rfl (Node.reads_asText _) rfl
  have init : (shape (depth + 4)).Takes (ifPresent "init" m.init)
      ⟨some m.name, some m.typeName, none, none, none⟩
      ⟨some m.name, some m.typeName, m.init.map some, none, none⟩ :=
    takes_ifPresent rfl rfl (by cases m.init <;> rfl)
  have summary : (shape (depth + 4)).Takes (ifPresent "summary" m.summary)
      ⟨some m.name, some m.typeName, m.init.map some, none, none⟩
      ⟨some m.name, some m.typeName, m.init.map some, m.summary.map some, none⟩ :=
    takes_ifPresent rfl rfl (by cases m.summary <;> rfl)
  have attributes : (shape (depth + 4)).Takes
      (unlessEmpty "attributes" (m.attributes.map Attribute.toJson))
      ⟨some m.name, some m.typeName, m.init.map some, m.summary.map some, none⟩
      ⟨some m.name, some m.typeName, m.init.map some, m.summary.map some, given m.attributes⟩ :=
    takes_unlessEmpty rfl rfl (fun a _ => a.reads_decode depth) (by cases m.attributes <;> rfl)
  exact ((((name.append typeName).append init).append summary).append attributes).reads
    (by simp [shape]) (depth + 4)

theorem Kind.reads_decode (depth : Nat) (k : Kind) : Reads (decode depth) (.text k.label) k := by
  intro n shows
  obtain ⟨i, j, rfl⟩ := shows_text shows
  cases k <;> rfl

namespace TypeDecl

theorem listToJson_eq (ts : List TypeDecl) : listToJson ts = ts.map toJson := by
  induction ts with
  | nil => rfl
  | cons t more ih => rw [listToJson, ih, List.map_cons]

mutual
/-- How many levels of types there are inside a type. -/
def nesting : TypeDecl → Nat
  | ⟨_, _, _, _, _, _, nested, _⟩ => nestingIn nested

def nestingIn : List TypeDecl → Nat
  | [] => 0
  | t :: more => max (t.nesting + 1) (nestingIn more)
end

theorem nesting_lt_of_mem {t : TypeDecl} {ts : List TypeDecl} (h : t ∈ ts) :
    t.nesting < nestingIn ts := by
  induction ts with
  | nil => cases h
  | cons u more ih =>
    rw [nestingIn]
    rcases List.mem_cons.mp h with rfl | later
    · omega
    · have := ih later
      omega

/-- A type reads back if the types nested in it do. -/
theorem reads_shape (depth : Nat) {nestedType : Node → Decoded TypeDecl} (t : TypeDecl)
    (inside : ∀ u ∈ t.nested, Reads nestedType u.toJson u) :
    Reads ((shape (depth + 6) nestedType).decode (depth + 7)) t.toJson t := by
  obtain ⟨name, space, kind, bases, summary, members, nested, attributes⟩ := t
  let s := shape (depth + 6) nestedType
  have one : s.Takes [("name", .text name)] ⟨none, none, none, none, none, none, none, none⟩
      ⟨some name, none, none, none, none, none, none, none⟩ :=
    RecordShape.takes_field rfl rfl (Node.reads_asText _) rfl
  have two : s.Takes [("namespace", .text space)]
      ⟨some name, none, none, none, none, none, none, none⟩
      ⟨some name, some space, none, none, none, none, none, none⟩ :=
    RecordShape.takes_field rfl rfl (Node.reads_asText _) rfl
  have three : s.Takes [("kind", .text kind.label)]
      ⟨some name, some space, none, none, none, none, none, none⟩
      ⟨some name, some space, some kind, none, none, none, none, none⟩ :=
    RecordShape.takes_field rfl rfl (kind.reads_decode _) rfl
  have four : s.Takes (unlessEmpty "bases" (bases.map .text))
      ⟨some name, some space, some kind, none, none, none, none, none⟩
      ⟨some name, some space, some kind, given bases, none, none, none, none⟩ :=
    takes_unlessEmpty rfl rfl (fun base _ => Node.reads_asText base) (by cases bases <;> rfl)
  have five : s.Takes (ifPresent "summary" summary)
      ⟨some name, some space, some kind, given bases, none, none, none, none⟩
      ⟨some name, some space, some kind, given bases, summary.map some, none, none, none⟩ :=
    takes_ifPresent rfl rfl (by cases summary <;> rfl)
  have six : s.Takes [("members", .array (members.map Member.toJson))]
      ⟨some name, some space, some kind, given bases, summary.map some, none, none, none⟩
      ⟨some name, some space, some kind, given bases, summary.map some, some members, none,
        none⟩ :=
    RecordShape.takes_field rfl rfl
      (Node.reads_asList (depth + 5) fun m _ => m.reads_decode depth) rfl
  have seven : s.Takes (unlessEmpty "nested" (nested.map toJson))
      ⟨some name, some space, some kind, given bases, summary.map some,
        some members, none, none⟩
      ⟨some name, some space, some kind, given bases, summary.map some, some members,
        given nested, none⟩ :=
    takes_unlessEmpty rfl rfl inside (by cases nested <;> rfl)
  have eight : s.Takes (unlessEmpty "attributes" (attributes.map Attribute.toJson))
      ⟨some name, some space, some kind, given bases, summary.map some, some members,
        given nested, none⟩
      ⟨some name, some space, some kind, given bases, summary.map some, some members,
        given nested, given attributes⟩ :=
    takes_unlessEmpty rfl rfl (fun a _ => a.reads_decode (depth + 2)) (by cases attributes <;> rfl)
  have all := ((((((one.append two).append three).append four).append five).append six).append
    seven).append eight
  rw [toJson, listToJson_eq]
  exact all.reads (by simp [s, shape]) (depth + 6)

theorem reads_decode (t : TypeDecl) {depth : Nat} (deep : 7 + 2 * t.nesting ≤ depth) :
    Reads (decode depth) t.toJson t := by
  obtain ⟨rest, rfl⟩ : ∃ rest, depth = rest + 7 := ⟨depth - 7, by omega⟩
  refine t.reads_shape rest fun u hu => ?_
  have less : u.nesting < t.nesting := by
    obtain ⟨_, _, _, _, _, _, nested, _⟩ := t
    exact nesting_lt_of_mem hu
  exact u.reads_decode (by omega)
termination_by t.nesting

end TypeDecl

namespace File

/-- The types of a file nest as deep as a document may hold them. -/
def Shallow (f : File) : Prop := ∀ t ∈ f.types ++ f.externalTypes, t.nesting ≤ 59

theorem reads_decode {f : File} (shallow : f.Shallow) :
    Reads ((shape (maxDepth - 1)).decode maxDepth) f.toJson f := by
  have inside : ∀ t ∈ f.types ++ f.externalTypes, Reads (TypeDecl.decode 125) t.toJson t := by
    intro t ht
    have few := shallow t ht
    exact t.reads_decode (by omega)
  have path : (shape 126).Takes [("path", .text f.path.text)] ⟨none, none, none, none⟩
      ⟨some f.path.text, none, none, none⟩ :=
    RecordShape.takes_field rfl rfl (Node.reads_asTextOf _ _) rfl
  have usings : (shape 126).Takes [("usings", .texts f.usings)]
      ⟨some f.path.text, none, none, none⟩ ⟨some f.path.text, some f.usings, none, none⟩ :=
    RecordShape.takes_field rfl rfl (Node.reads_asList 125 fun u _ => Node.reads_asText u) rfl
  have types : (shape 126).Takes [("types", .array (f.types.map TypeDecl.toJson))]
      ⟨some f.path.text, some f.usings, none, none⟩
      ⟨some f.path.text, some f.usings, some f.types, none⟩ :=
    RecordShape.takes_field rfl rfl
      (Node.reads_asList 125 fun t ht => inside t (List.mem_append_left _ ht)) rfl
  have external : (shape 126).Takes
      (unlessEmpty "external_types" (f.externalTypes.map TypeDecl.toJson))
      ⟨some f.path.text, some f.usings, some f.types, none⟩
      ⟨some f.path.text, some f.usings, some f.types, given f.externalTypes⟩ :=
    takes_unlessEmpty rfl rfl (fun t ht => inside t (List.mem_append_right _ ht))
      (by cases f.externalTypes <;> rfl)
  rw [toJson, TypeDecl.listToJson_eq, TypeDecl.listToJson_eq]
  exact (((path.append usings).append types).append external).reads (by simp [shape]) 126

/-- A document of a host file reads back as the file, however it is laid out. So a source that is
exported as a document loads from it as the same file, up to the path that loading gives it, and
with the path of the source it has the same translation. -/
theorem parseJson_toJson {f : File} (shallow : f.Shallow) :
    parseJson f.toJson.compact = .ok f ∧ parseJson f.toJson.pretty = .ok f ∧
      (∀ text, f.toJson.IsWrittenAs text → parseJson text = .ok f) ∧
      ∀ fs source document text, File.load fs source = .ok f →
        fs.read document = .ok text → isDocument document = true → f.toJson.IsWrittenAs text →
        ∃ g, File.load fs document = .ok g ∧ g.path = document ∧
          { g with path := f.path } = f ∧ ∀ project options sidecar,
            (Setting.of { g with path := f.path } project options).translate sidecar =
              (Setting.of f project options).translate sidecar := by
  have reads : ∀ text, f.toJson.IsWrittenAs text → parseJson text = .ok f := fun text written =>
    (reads_decode shallow).decodeText written
  refine ⟨reads _ (isWrittenAs_compact _), reads _ (isWrittenAs_pretty _), reads, ?_⟩
  intro fs source document text loaded read named written
  refine ⟨{ f with path := document }, ?_, rfl, rfl, fun _ _ _ => rfl⟩
  simp only [File.load, read, named, reads text written, if_true]

/-- A class with an enum in it is exported beside its source. -/
theorem parseJson_toJson_of_order :
    orderFile.Shallow ∧ ∃ fs g, File.load fs ⟨"/p/Order.cs"⟩ = .ok orderFile ∧
      File.load fs ⟨"/p/Order.json"⟩ = .ok g ∧
      { g with path := orderFile.path } = orderFile := by
  have shallow : orderFile.Shallow := by
    intro t ht
    rw [List.mem_singleton.mp ht]
    decide
  obtain ⟨text, parsed⟩ :=
    source_of_ticket orderFile (List.mem_cons_of_mem _ List.mem_cons_self)
  let fs : FileSystem := ⟨.dir [("p", .dir [("Order.cs", .file text),
    ("Order.json", .file orderFile.toJson.pretty)])], ["p"]⟩
  have loaded : File.load fs ⟨"/p/Order.cs"⟩ = .ok orderFile := by
    have read : fs.read ⟨"/p/Order.cs"⟩ = .ok text := rfl
    have source : isDocument ⟨"/p/Order.cs"⟩ = false := by
      with_unfolding_all rfl
    have path : orderFile.path = ⟨"/p/Order.cs"⟩ := rfl
    rw [path] at parsed
    simp only [File.load, read, source, parsed, Bool.false_eq_true, if_false]
  obtain ⟨_, _, _, exported⟩ := parseJson_toJson shallow
  obtain ⟨g, again, _, same, _⟩ :=
    exported fs ⟨"/p/Order.cs"⟩ ⟨"/p/Order.json"⟩ _ loaded rfl
    (by with_unfolding_all rfl) (isWrittenAs_pretty _)
  exact ⟨shallow, fs, g, loaded, again, same⟩

end File

end Ambient.Host
