/-!
# Paths

A path is the text that names a file or a folder.  Its parts decide what it names and how paths are ordered; the
text itself is what is printed.
-/

namespace Offside

/-- A path as it is written. -/
structure Path where
  text : String
deriving DecidableEq, Repr

namespace Path

/-- One part of a path. -/
inductive Part
  | root
  | here
  | parent
  | name (text : String)
deriving DecidableEq, Repr

namespace Part

def rank : Part → Nat
  | .root => 0
  | .here => 1
  | .parent => 2
  | .name _ => 3

/-- The order of parts: names come last and are ordered as texts. -/
def lt : Part → Part → Bool
  | .name a, .name b => a < b
  | a, b => a.rank < b.rank

end Part

/-- The stretches of a text between slashes. -/
def segments : List Char → List (List Char)
  | [] => [[]]
  | c :: rest =>
    if c = '/' then [] :: segments rest
    else
      match segments rest with
      | first :: others => (c :: first) :: others
      | [] => [[c]]

/-- The part that a segment stands for.  Empty segments and dots stand for none. -/
def partOf? (segment : List Char) : Option Part :=
  if segment = [] || segment = ['.'] then none
  else if segment = ['.', '.'] then some .parent
  else some (.name (String.ofList segment))

/-- The parts of a path.  A dot counts only in front. -/
def parts (path : Path) : List Part :=
  let segments := segments path.text.toList
  let front := match path.text.toList, segments with
    | '/' :: _, _ => [.root]
    | _, ['.'] :: _ => [.here]
    | _, _ => []
  front ++ segments.filterMap partOf?

/-- Whether two paths have the same parts. -/
def same (path other : Path) : Bool := path.parts = other.parts

/-- Whether a list of parts comes before another or is the same. -/
def partsLe : List Part → List Part → Bool
  | [], _ => true
  | _ :: _, [] => false
  | a :: path, b :: other => if a = b then partsLe path other else a.lt b

/-- The order of paths, part by part. -/
def le (path other : Path) : Bool := partsLe path.parts other.parts

/-- The path of something in a folder. -/
def join (path : Path) (name : String) : Path :=
  match path.text.toList.getLast? with
  | none | some '/' => ⟨path.text ++ name⟩
  | some _ => ⟨path.text ++ "/" ++ name⟩

/-- Drops slashes, and dots behind slashes, from the front of a reversed path. -/
def dropMarks : List Char → List Char
  | '/' :: rest => dropMarks rest
  | '.' :: '/' :: rest => dropMarks rest
  | rest => rest

/-- The text of a path without what stands behind its last name. -/
def body (path : Path) : List Char := (dropMarks path.text.toList.reverse).reverse

/-- The last name of a path, if it ends in a name. -/
def fileName? (path : Path) : Option (List Char) :=
  let name := (path.body.reverse.takeWhile (· ≠ '/')).reverse
  if name = [] || name = ['.'] || name = ['.', '.'] then none else some name

/-- The stem and the extension of a name.  A dot in front of a name starts no extension. -/
def splitName (name : List Char) : List Char × Option (List Char) :=
  let ending := (name.reverse.takeWhile (· ≠ '.')).reverse
  let stem := name.take (name.length - ending.length - 1)
  if name.contains '.' && stem ≠ [] then (stem, some ending) else (name, none)

/-- The extension of a path, without its dot. -/
def extension? (path : Path) : Option String :=
  path.fileName?.bind fun name => (splitName name).2.map String.ofList

def hasExtension (path : Path) (extension : String) : Bool := path.extension? = some extension

/-- A path without the text of its extension.  The dot stays. -/
def withoutExtension (path : Path) : Path :=
  match path.extension? with
  | none => path
  | some extension => ⟨String.ofList (path.text.toList.take (path.text.length - extension.length))⟩

/-- Puts an extension behind the stem of the last name.  The empty extension has no dot, and a path that ends in no
name stays as it is. -/
def putExtension (path : Path) (extension : String) : Path :=
  match path.fileName? with
  | none => path
  | some name =>
    let stem := (splitName name).1
    let front := path.body.take (path.body.length - name.length)
    let ending := if extension = "" then [] else '.' :: extension.toList
    ⟨String.ofList (front ++ stem ++ ending)⟩

/-- Gives a path another extension.  The old one goes first: where two dots remain of a name they lead to the folder
above, and nothing is put behind them.  An extension that holds a slash is refused. -/
def withExtension? (path : Path) (extension : String) : Option Path :=
  if extension.toList.contains '/' then none else some (path.withoutExtension.putExtension extension)

end Path

end Offside
