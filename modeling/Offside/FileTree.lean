/-!
# File trees

The files, links, folders and devices of a system.  A tree lists what stands at each location, and a location is
the list of names that leads to it from the root.  Paths that do not start at the root start at the working folder.
-/

namespace Offside

/-- What takes text without keeping it. -/
inductive Device
  /-- Takes everything. -/
  | null
  /-- Has no room for anything. -/
  | full
deriving DecidableEq, Repr

/-- What stands at a location. -/
inductive Node
  | file (content : ByteArray)
  | link (target : String)
  | folder
  | device (device : Device)

/-- The names that lead from the root to a place. -/
abbrev Location := List String

/-- What stands where, and the location of the working folder. -/
structure FileTree where
  nodes : List (Location × Node)
  working : Location := []

namespace FileTree

def empty : FileTree := ⟨[], []⟩

/-- What stands at a location.  The root is a folder. -/
def node? (tree : FileTree) (location : Location) : Option Node :=
  if location = [] then some .folder else tree.nodes.lookup location

/-- Puts a node at a location in a list, in the place of what stood there. -/
def putNode (location : Location) (node : Node) : List (Location × Node) → List (Location × Node)
  | [] => [(location, node)]
  | (other, old) :: rest =>
    if other = location then (location, node) :: rest else (other, old) :: putNode location node rest

/-- Puts a node at a location. -/
def put (tree : FileTree) (location : Location) (node : Node) : FileTree :=
  { tree with nodes := putNode location node tree.nodes }

/-- Takes away what stands at a location. -/
def erase (tree : FileTree) (location : Location) : FileTree :=
  { tree with nodes := tree.nodes.filter (·.1 ≠ location) }

/-- Puts folders at the locations of a list where nothing stands. -/
def fill (tree : FileTree) (locations : List Location) : FileTree :=
  locations.foldl
    (fun tree location => if (tree.node? location).isSome then tree else tree.put location .folder) tree

/-- Puts a node at a location, and folders on the way to it. -/
def plant (tree : FileTree) (location : Location) (node : Node) : FileTree :=
  (tree.fill ((List.range location.length).map location.take)).put location node

/-- The name of a location in a folder, if it is directly in it. -/
def nameIn? (folder location : Location) : Option String :=
  match location.getLast? with
  | some name => if location.dropLast = folder then some name else none
  | none => none

/-- The names and nodes that are directly in a folder. -/
def children (tree : FileTree) (folder : Location) : List (String × Node) :=
  tree.nodes.filterMap fun (location, node) => (nameIn? folder location).map (·, node)

/-- The files of a tree that another tree does not have with the same content. -/
def filesNotIn (tree before : FileTree) : List (Location × ByteArray) :=
  tree.nodes.filterMap fun (location, node) =>
    match node, before.node? location with
    | .file content, some (.file old) => if content.data = old.data then none else some (location, content)
    | .file content, _ => some (location, content)
    | _, _ => none

/-- A location as it is seen from the working folder, if it is below it. -/
def fromWorking? (tree : FileTree) (location : Location) : Option Location :=
  if tree.working.isPrefixOf location then some (location.drop tree.working.length) else none

/-- The folders of a system. -/
def systemFolders : List Location :=
  ["bin", "boot", "dev", "etc", "home", "lib", "media", "mnt", "opt", "proc", "root", "run", "sbin", "srv", "sys", "tmp",
      "usr", "var"].map ([·])
    ++ ["bin", "include", "lib", "local", "sbin", "share", "src"].map (["usr", ·])

/-- A system with the given working folder, which is empty. -/
def system (working : Location) : FileTree :=
  let folders : FileTree := { nodes := systemFolders.map (·, .folder), working }
  ((folders.plant ["dev", "null"] (.device .null)).plant ["dev", "full"] (.device .full)).plant working .folder

end FileTree

end Offside
