import Ambient.TypeSyntax

/-! Types that have a form of their own in a declaration: primitives, collections, dictionaries and
nullables. A name counts by its last segment, so a namespace before it changes nothing, and a task
counts as what it yields. -/
namespace Ambient

inductive KnownType where
  | primitive (rendered : String)
  | collection (element : TypeSyntax)
  | dictionary (key value : TypeSyntax)
  | nullable (inner : TypeSyntax)
  | unknown
  deriving Repr

namespace KnownType

def numberNames : List String :=
  ["byte", "sbyte", "short", "ushort", "int", "uint", "long", "ulong", "float", "double",
   "decimal", "nint", "nuint", "Byte", "SByte", "Int16", "UInt16", "Int32", "UInt32", "Int64",
   "UInt64", "Single", "Double", "Decimal", "BigInteger", "Half"]

def stringNames : List String :=
  ["string", "char", "String", "Char", "Guid", "Uri", "TimeSpan", "TimeOnly"]

def booleanNames : List String := ["bool", "Boolean"]

def dateNames : List String := ["DateTime", "DateTimeOffset", "DateOnly"]

def anyNames : List String := ["object", "dynamic", "Object", "JToken", "JObject", "JsonElement"]

def untypedCollectionNames : List String := ["IEnumerable", "ArrayList", "ICollection", "IList"]

def collectionNames : List String :=
  ["List", "IList", "IEnumerable", "ICollection", "IReadOnlyList", "IReadOnlyCollection",
   "HashSet", "ISet", "IReadOnlySet", "SortedSet", "Collection", "ReadOnlyCollection",
   "ObservableCollection", "LinkedList", "Queue", "Stack", "ConcurrentBag", "ImmutableArray",
   "ImmutableList", "ImmutableHashSet", "IImmutableList", "IQueryable", "IAsyncEnumerable"]

def dictionaryNames : List String :=
  ["Dictionary", "IDictionary", "IReadOnlyDictionary", "SortedDictionary", "SortedList",
   "ConcurrentDictionary", "ImmutableDictionary", "IImmutableDictionary"]

def taskNames : List String := ["Task", "ValueTask"]

/-- The rendered form of a primitive's name, which may be qualified. -/
def primitive? (name : String) : Option String :=
  let simple := TypeSyntax.lastSegment name
  if simple ∈ numberNames then some "number"
  else if simple ∈ stringNames then some "string"
  else if simple ∈ booleanNames then some "boolean"
  else if simple ∈ dateNames then some "Date"
  else if simple ∈ anyNames then some "any"
  else none

def ofPlainName (name : String) : KnownType :=
  match primitive? name with
  | some rendered => primitive rendered
  | none =>
    if TypeSyntax.lastSegment name ∈ untypedCollectionNames then primitive "any[]" else unknown

def classify : TypeSyntax → KnownType
  | .nullable inner => nullable inner
  | .array element => collection element
  | .tuple _ => primitive "any"
  | .named name [] => ofPlainName name
  | .named name [inner] =>
    let simple := TypeSyntax.lastSegment name
    if simple = "Nullable" then nullable inner
    else if simple ∈ collectionNames then collection inner
    else if simple ∈ taskNames then classify inner
    else unknown
  | .named name [key, value] =>
    if TypeSyntax.lastSegment name ∈ dictionaryNames then dictionary key value else unknown
  | .named _ _ => unknown

/-- The parts of a type that a classification hands on. -/
def inner : KnownType → List TypeSyntax
  | primitive _ | unknown => []
  | collection element => [element]
  | dictionary _ value => [value]
  | nullable inner => [inner]

theorem inner_ofPlainName (name : String) : (ofPlainName name).inner = [] := by
  unfold ofPlainName
  split
  · rfl
  · split <;> rfl

theorem sizeOf_lt_of_mem_inner {ty part : TypeSyntax} (h : part ∈ (classify ty).inner) :
    sizeOf part < sizeOf ty := by
  fun_induction classify ty
  case case4 => rw [inner_ofPlainName] at h; simp at h
  all_goals simp [inner] at h
  all_goals first
    | (subst h; simp <;> omega)
    | (rename_i ih; have := ih h; simp; omega)

theorem sizeOf_lt_of_classify {ty part : TypeSyntax} {known : KnownType}
    (h : classify ty = known) (hp : known.inner = [part]) : sizeOf part < sizeOf ty :=
  sizeOf_lt_of_mem_inner (by rw [h, hp]; exact List.mem_singleton_self part)

/-- A dictionary key becomes a number key exactly when it is a number primitive. -/
def isNumericKey : TypeSyntax → Bool
  | .named name [] => primitive? name == some "number"
  | _ => false

end KnownType

end Ambient
