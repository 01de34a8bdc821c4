/-!
# TOML documents

The values that a TOML document can hold, and the rules for putting them under keys.  A table keeps how it came
to be: a table that a header or a dotted key only passed through may be completed later, any other may not.
-/

namespace Offside.Toml

/-- Values.  What a build has no use for is kept without its content. -/
inductive Value
  | string (text : String)
  | boolean (value : Bool)
  | integer
  | float
  | datetime
  | array (elements : List Value)
  | table

/-- What stands under a key: a value, a table or a list of tables.  A table that was only passed through is
`implicit`, and one that a dotted key made is `dotted`. -/
inductive Item
  | value (content : Value)
  | table (implicit dotted : Bool) (entries : List (String × Item))
  | tables (elements : List (List (String × Item)))

/-- The entries of a table, in the order of the document. -/
abbrev Entries := List (String × Item)

/-- Puts an item under a key, in the place of what stood there. -/
def assign (key : String) (item : Item) : Entries → Entries
  | [] => [(key, item)]
  | (other, old) :: rest =>
    if other = key then (key, item) :: rest else (other, old) :: assign key item rest

namespace Item

/-- Changes the item at the end of a path through tables, making tables on the way.  A dotted key does not pass
through a table that a header defined. -/
def descend (dotted : Bool) (change : Item → Option Item) : (path : List String) → Item → Option Item
  | [], item => change item
  | key :: path, .table implicit wasDotted entries =>
    let replace (item : Item) : Item := .table implicit wasDotted (assign key item entries)
    match entries.lookup key with
    | none => (descend dotted change path (.table true dotted [])).map replace
    | some (.value _) => none
    | some (.table innerImplicit innerDotted inner) =>
      if dotted && !innerImplicit then none
      else (descend dotted change path (.table innerImplicit innerDotted inner)).map replace
    | some (.tables elements) =>
      match elements.getLast? with
      | none => none
      | some last =>
        match descend dotted change path (.table false false last) with
        | some (.table _ _ changed) => some (replace (.tables (elements.dropLast ++ [changed])))
        | _ => none
  | _ :: _, _ => none

/-- Adds a value under a new key.  A table made by dotted keys is completed by dotted keys only. -/
def insert (isDotted : Bool) (key : String) (content : Value) : Item → Option Item
  | .table implicit dotted entries =>
    if dotted ≠ isDotted then none
    else
      match entries.lookup key with
      | none => some (.table implicit dotted (entries ++ [(key, .value content)]))
      | some _ => none
  | _ => none

/-- Defines a table by a header. -/
def define (key : String) : Item → Option Item
  | .table implicit dotted entries =>
    match entries.lookup key with
    | none => some (.table implicit dotted (entries ++ [(key, .table false false [])]))
    | some (.table true false inner) =>
      some (.table implicit dotted (assign key (.table false false inner) entries))
    | some _ => none
  | _ => none

/-- Adds a table to a list of tables by a header. -/
def append (key : String) : Item → Option Item
  | .table implicit dotted entries =>
    match entries.lookup key with
    | none => some (.table implicit dotted (entries ++ [(key, .tables [[]])]))
    | some (.tables elements) =>
      some (.table implicit dotted (assign key (.tables (elements ++ [[]])) entries))
    | some _ => none
  | _ => none

end Item

/-- A document that was read in part: what it holds and the table that the next keys go to. -/
structure Document where
  root : Item
  current : List String

namespace Document

def empty : Document := ⟨.table false false [], []⟩

/-- Adds a value under a key, which may be dotted. -/
def insert (document : Document) (path : List String) (key : String) (content : Value) :
    Option Document := do
  let root ← Item.descend false
    (Item.descend true (Item.insert (!path.isEmpty) key content) path) document.current document.root
  return { document with root }

/-- Starts the table of a header. -/
def define (document : Document) (path : List String) (key : String) : Option Document := do
  let root ← Item.descend false (Item.define key) path document.root
  return ⟨root, path ++ [key]⟩

/-- Starts a further table of a list. -/
def append (document : Document) (path : List String) (key : String) : Option Document := do
  let root ← Item.descend false (Item.append key) path document.root
  return ⟨root, path ++ [key]⟩

/-- The item under a key of the top level. -/
def item? (document : Document) (key : String) : Option Item :=
  match document.root with
  | .table _ _ entries => entries.lookup key
  | _ => none

end Document

end Offside.Toml
