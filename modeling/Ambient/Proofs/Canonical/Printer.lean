import Ambient.Host
import Ambient.Proofs.Canonical.Types

/-!
# The canonical text of a host file

Each declaration is written in one way: its summary as documentation lines, its attributes one list
each, and then the declaration itself. A well-formed file has names for names and types as they are
displayed. Not all of it goes to the text or comes back: an interface is written without its body,
an enum is read without its bases, and a nested type is in the namespace of the class around it.
`File.kept` is what is left, which is the whole of a canonical file.
-/
namespace Ambient

namespace Summary

/-- The characters of markup, as entities. -/
def escapeChar (c : Char) : List Char :=
  if c = '&' then "&amp;".toList
  else if c = '<' then "&lt;".toList
  else if c = '>' then "&gt;".toList
  else [c]

def escape (line : List Char) : List Char := line.flatMap escapeChar

/-- The documentation lines of a summary, without the slashes in front. -/
def docs : Option String → List (List Char)
  | none => []
  | some summary =>
    " <summary>".toList ::
      ((Text.pieces (· == '\n') summary.toList).map fun line => ' ' :: escape line) ++
      [" </summary>".toList]

/-- Lines that are not empty and have no white space at their ends. -/
def IsTidy (summary : String) : Prop :=
  ∀ line ∈ Text.pieces (· == '\n') summary.toList, Text.IsTidy line

end Summary

namespace Token

/-- What initializers are made of. -/
def IsOperand : Token → Prop
  | ident _ | number _ => True
  | mark m => m = .minus
  | op c => c = '|'
  | _ => False

end Token

/-- Names, numbers, minus signs and vertical bars with nothing but white space between them, and
none around them. -/
structure IsExpression (init : String) : Prop where
  operands : ∀ i ∈ Item.ofText init, i.token.IsOperand
  noComment : '/' ∉ init.toList
  noDirective : '#' ∉ init.toList
  noByteOrder : '\ufeff' ∉ init.toList
  tidy : Text.IsTidy init.toList

/-- A type as it is displayed. -/
def IsTypeText (text : String) : Prop := ∃ ty : TypeSyntax, ty.WellFormed ∧ ty.display = text

namespace Host

def printDocs (lines : List (List Char)) : List Char :=
  lines.flatMap fun line => "///".toList ++ line ++ ['\n']

def Argument.print (a : Argument) : List Char :=
  (match a.name with
    | none => []
    | some name => name.toList ++ " = ".toList) ++ (literal a.value).toList

/-- Arguments through the closing parenthesis. -/
def Argument.printAll : List Argument → List Char
  | [] => [')']
  | [a] => a.print ++ [')']
  | a :: b :: more => a.print ++ ',' :: ' ' :: printAll (b :: more)

def Attribute.print (a : Attribute) : List Char :=
  '[' :: (a.name.toList ++ '(' :: (Argument.printAll a.args ++ [']', '\n']))

/-- What stands before a declaration. -/
def printLead (summary : Option String) (attributes : List Attribute) : List Char :=
  printDocs (Summary.docs summary) ++ attributes.flatMap (·.print)

def Member.printProperty (m : Member) : List Char :=
  printLead m.summary m.attributes ++ ("public ".toList ++
    (m.typeName.toList ++ ' ' :: (m.name.toList ++ " \x7b get; set; \x7d\n".toList)))

def printInitializer : Option String → List Char
  | none => []
  | some init => " = ".toList ++ init.toList

def Member.printValue (m : Member) : List Char :=
  printLead m.summary m.attributes ++
    (m.name.toList ++ (printInitializer m.init ++ [',', '\n']))

/-- Bases through the opening brace. -/
def printBases : List String → List Char
  | [] => [' ', '\x7b']
  | [base] => base.toList ++ [' ', '\x7b']
  | base :: next :: more => base.toList ++ ',' :: ' ' :: printBases (next :: more)

def printBaseList (bases : List String) : List Char :=
  if bases.isEmpty then printBases [] else " : ".toList ++ printBases bases

namespace TypeDecl

mutual
def print : TypeDecl → List Char
  | ⟨name, _, kind, bases, summary, members, nested, attributes⟩ =>
    printLead summary attributes ++ ("public ".toList ++ (kind.label.toList ++
      ' ' :: (name.toList ++ (printBaseList bases ++ '\n' ::
        ((match kind with
          | .classKind => members.flatMap (·.printProperty) ++ printAll nested
          | .enumKind => members.flatMap (·.printValue)
          | .interfaceKind => []) ++ ['\x7d', '\n'])))))

def printAll : List TypeDecl → List Char
  | [] => []
  | t :: more => print t ++ printAll more
end

/-- A type with the namespace around it, unless that is the global one. -/
def printTop (t : TypeDecl) : List Char :=
  if t.space.isEmpty then t.print
  else "namespace ".toList ++ (t.space.toList ++ " \x7b\n".toList ++ (t.print ++ ['\x7d', '\n']))

end TypeDecl

def printUsing (space : String) : List Char := "using ".toList ++ (space.toList ++ [';', '\n'])

def File.print (f : File) : String :=
  String.ofList (f.usings.flatMap printUsing ++ f.types.flatMap (·.printTop))

structure Attribute.WellFormed (a : Attribute) : Prop where
  name : IsQualified a.name
  args : ∀ x ∈ a.args, ∀ name ∈ x.name, IsName name

structure LeadWellFormed (summary : Option String) (attributes : List Attribute) : Prop where
  summary : ∀ s ∈ summary, Summary.IsTidy s
  attributes : ∀ a ∈ attributes, a.WellFormed

structure Member.WellFormed (kind : Kind) (m : Member) : Prop where
  name : IsName m.name
  type : kind = .classKind → IsTypeText m.typeName
  init : ∀ init ∈ m.init, IsExpression init
  lead : LeadWellFormed m.summary m.attributes

inductive TypeDecl.WellFormed : TypeDecl → Prop
  | intro {t : TypeDecl} (name : IsName t.name) (bases : ∀ base ∈ t.bases, IsTypeText base)
    (lead : LeadWellFormed t.summary t.attributes)
    (members : ∀ m ∈ t.members, m.WellFormed t.kind)
    (nested : ∀ u ∈ t.nested, WellFormed u) : WellFormed t

structure File.WellFormed (f : File) : Prop where
  usings : ∀ space ∈ f.usings, IsQualified space
  spaces : ∀ t ∈ f.types, t.space = "" ∨ IsQualified t.space
  types : ∀ t ∈ f.types, t.WellFormed
  external : f.externalTypes = []

theorem map_eq_self_iff {α : Type} {f : α → α} {p : α → Prop}
    (each : ∀ x, f x = x ↔ p x) (xs : List α) : xs.map f = xs ↔ ∀ x ∈ xs, p x := by
  induction xs with
  | nil => simp
  | cons x more ih => simp [each, ih]

/-- A member of a class has no initializer. -/
def Member.asProperty (m : Member) : Member := { m with init := none }

/-- An enum value has no type. -/
def Member.asValue (m : Member) : Member := { m with typeName := "" }

namespace TypeDecl

mutual
/-- What is left of a declaration in the namespace `space`: an enum has no bases, only a class holds
other types, and what it holds is in its own namespace. -/
def kept (space : String) : TypeDecl → TypeDecl
  | ⟨name, _, .classKind, bases, summary, members, nested, attributes⟩ =>
    ⟨name, space, .classKind, bases, summary, members.map (·.asProperty), keptAll space nested,
      attributes⟩
  | ⟨name, _, .enumKind, _, summary, members, _, attributes⟩ =>
    ⟨name, space, .enumKind, [], summary, members.map (·.asValue), [], attributes⟩
  | ⟨name, _, .interfaceKind, bases, summary, _, _, attributes⟩ =>
    ⟨name, space, .interfaceKind, bases, summary, [], [], attributes⟩

def keptAll (space : String) : List TypeDecl → List TypeDecl
  | [] => []
  | t :: more => kept space t :: keptAll space more
end

/-- Nothing of a declaration in the namespace `space` is lost. -/
inductive Canonical (space : String) : TypeDecl → Prop
  | classDecl {t : TypeDecl} : t.kind = .classKind → t.space = space →
    (∀ m ∈ t.members, m.init = none) → (∀ u ∈ t.nested, Canonical space u) →
      Canonical space t
  | enumDecl {t : TypeDecl} : t.kind = .enumKind → t.space = space → t.bases = [] →
    (∀ m ∈ t.members, m.typeName = "") → t.nested = [] → Canonical space t
  | interfaceDecl {t : TypeDecl} : t.kind = .interfaceKind → t.space = space →
    t.members = [] → t.nested = [] → Canonical space t

theorem asProperty_eq_iff (members : List Member) :
    members.map (·.asProperty) = members ↔ ∀ m ∈ members, m.init = none := by
  refine map_eq_self_iff ?_ members
  rintro ⟨name, typeName, init, summary, attributes⟩
  simp [Member.asProperty, eq_comm]

theorem asValue_eq_iff (members : List Member) :
    members.map (·.asValue) = members ↔ ∀ m ∈ members, m.typeName = "" := by
  refine map_eq_self_iff ?_ members
  rintro ⟨name, typeName, init, summary, attributes⟩
  simp [Member.asValue, eq_comm]

mutual
theorem kept_eq_iff (space : String) : (t : TypeDecl) → (kept space t = t ↔ t.Canonical space)
  | ⟨name, outer, .classKind, bases, summary, members, nested, attributes⟩ => by
    have inside := keptAll_eq_iff space nested
    rw [kept]
    constructor
    · intro same
      injection same with _ spaced _ _ _ properties types
      exact .classDecl rfl spaced.symm ((asProperty_eq_iff members).mp properties) (inside.mp types)
    · intro canonical
      cases canonical with
      | classDecl _ spaced properties types =>
        obtain rfl : outer = space := spaced
        rw [(asProperty_eq_iff members).mpr properties, inside.mpr types]
      | enumDecl kind => cases kind
      | interfaceDecl kind => cases kind
  | ⟨name, outer, .enumKind, bases, summary, members, nested, attributes⟩ => by
    rw [kept]
    constructor
    · intro same
      injection same with _ spaced _ based _ values types
      exact .enumDecl rfl spaced.symm based.symm ((asValue_eq_iff members).mp values) types.symm
    · intro canonical
      cases canonical with
      | classDecl kind => cases kind
      | enumDecl _ spaced based values types =>
        obtain rfl : outer = space := spaced
        obtain rfl : bases = [] := based
        obtain rfl : nested = [] := types
        rw [(asValue_eq_iff members).mpr values]
      | interfaceDecl kind => cases kind
  | ⟨name, outer, .interfaceKind, bases, summary, members, nested, attributes⟩ => by
    rw [kept]
    constructor
    · intro same
      injection same with _ spaced _ _ _ values types
      exact .interfaceDecl rfl spaced.symm values.symm types.symm
    · intro canonical
      cases canonical with
      | classDecl kind => cases kind
      | enumDecl kind => cases kind
      | interfaceDecl _ spaced values types =>
        obtain rfl : outer = space := spaced
        obtain rfl : members = [] := values
        obtain rfl : nested = [] := types
        rfl

theorem keptAll_eq_iff (space : String) :
    (ts : List TypeDecl) → (keptAll space ts = ts ↔ ∀ t ∈ ts, t.Canonical space)
  | [] => by simp [keptAll]
  | t :: more => by
    rw [keptAll, List.cons.injEq, kept_eq_iff space t, keptAll_eq_iff space more]
    simp
end

end TypeDecl

def File.kept (f : File) : File where
  path := f.path
  usings := f.usings
  types := f.types.map fun t => t.kept t.space
  externalTypes := []

def File.Canonical (f : File) : Prop := ∀ t ∈ f.types, t.Canonical t.space

theorem File.kept_eq_iff {f : File} (external : f.externalTypes = []) :
    f.kept = f ↔ f.Canonical := by
  obtain ⟨path, usings, types, externalTypes⟩ := f
  obtain rfl : externalTypes = [] := external
  rw [File.Canonical, ← map_eq_self_iff fun t => TypeDecl.kept_eq_iff t.space t]
  simp [File.kept]

end Host
end Ambient
