/-! Tables of TOML while a document is read. A table is defined by a header of its own, by dotted
keys, or only implied by longer headers; which of these decides what may still be added to it. -/
namespace Ambient.Toml

inductive Origin where
  | header
  | dotted
  | implied
  deriving DecidableEq, Repr

/-- What a key stands for. Values other than strings and booleans are not told apart, and of a list
of tables only the last can still grow. -/
inductive Item where
  | text (s : String)
  | bool (b : Bool)
  | other
  | table (origin : Origin) (entries : List (String × Item))
  | tables (last : List (String × Item))
  deriving Repr

abbrev Entries := List (String × Item)

/-- Changes what a key stands for, or adds the key at the end. -/
def Entries.update (key : String) (change : Option Item → Option Item) :
    Entries → Option Entries
  | [] => (change none).map fun item => [(key, item)]
  | (k, item) :: more =>
    if k = key then (change (some item)).map fun item => (k, item) :: more
    else (update key change more).map fun more => (k, item) :: more

/-- Changes the entries of a table, which is made if there is none. Keys within a table that has a
header of its own are not reached by dotted keys from outside. -/
def Item.within (dotted : Bool) (change : Origin → Entries → Option Entries) :
    Option Item → Option Item
  | none =>
    let origin := if dotted then Origin.dotted else .implied
    (change origin []).map (.table origin)
  | some (.table origin entries) =>
    if dotted ∧ origin = .header then none else (change origin entries).map (.table origin)
  | some (.tables last) => (change .header last).map .tables
  | some _ => none

namespace Entries

/-- Changes the table at the end of a path. -/
def updateAt (dotted : Bool) :
    List String → (Origin → Entries → Option Entries) → Origin → Entries →
    Option Entries
  | [], change => change
  | key :: path, change => fun _ => update key (Item.within dotted (updateAt dotted path change))

/-- Adds a key that is not there yet. -/
def insert (key : String) (item : Item) : Entries → Option Entries :=
  update key fun
    | none => some item
    | some _ => none

/-- Adds a value under a dotted key, all but the last part of which lead through tables that dotted
keys define. -/
def assign (path : List String) (key : String) (item : Item) (origin : Origin) (entries : Entries) :
    Option Entries :=
  updateAt true path (fun origin entries =>
    if (origin = .dotted) = path.isEmpty then none else insert key item entries) origin entries

/-- Opens a table by its header. Only a table that longer headers imply may exist already. -/
def openTable (path : List String) (key : String) : Entries → Option Entries :=
  updateAt false path (fun _ => update key fun
    | none => some (.table .header [])
    | some (.table .implied entries) => some (.table .header entries)
    | some _ => none) .header

/-- Opens one more table of a list of tables. -/
def openNext (path : List String) (key : String) : Entries → Option Entries :=
  updateAt false path (fun _ => update key fun
    | none | some (.tables _) => some (.tables [])
    | some _ => none) .header

/-- Adds a value under a dotted key within the table that the last header opened. -/
def assignIn (opened path : List String) (key : String) (item : Item) :
    Entries → Option Entries :=
  updateAt false opened (assign path key item) .header

end Entries

end Ambient.Toml
