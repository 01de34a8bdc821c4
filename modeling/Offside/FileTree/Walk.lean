import Offside.FileTree.Access

/-!
# Walking through folders

The files below a folder, links followed.  A link that leads back to a folder on the way to it stops the walk, and
so does a link that leads nowhere.
-/

namespace Offside

/-- Why a walk stops. -/
inductive WalkFault
  | unreadable (path : Path) (cause : Fault)
  | loop (child ancestor : Path)
deriving DecidableEq, Repr

def WalkFault.message : WalkFault → String
  | .unreadable path cause => s!"IO error for operation on {path.text}: {cause.message}"
  | .loop child ancestor =>
    s!"File system loop found: {child.text} points to an ancestor {ancestor.text}"

namespace FileTree

/-- The folder among `ancestors` that is at a location, the innermost first. -/
def ancestorAt? (ancestors : List (Path × Location)) (location : Location) : Option Path :=
  (ancestors.find? (·.2 = location)).map (·.1)

/-- What an entry of a folder is once links are followed.  A link must not lead to one of the `ancestors`. -/
def settle (tree : FileTree) (ancestors : List (Path × Location)) (path : Path) (location : Location) :
    Node → Except WalkFault (Location × Node)
  | .link _ =>
    match tree.find .visit path with
    | .error cause => .error (.unreadable path cause)
    | .ok (target, .folder) =>
      match ancestorAt? ancestors target with
      | some ancestor => .error (.loop path ancestor)
      | none => .ok (target, .folder)
    | .ok found => .ok found
  | node => .ok (location, node)

/-- The files at and below a place.  Folders are opened down to `depth` levels; `ancestors` are the folders on the
way, the innermost first. -/
def filesBelow (tree : FileTree) : (depth : Nat) → (ancestors : List (Path × Location)) →
    Path → Location → Node → Except WalkFault (List Path)
  | 0, ancestors, path, location, node => do
    match ← tree.settle ancestors path location node with
    | (_, .file _) => return [path]
    | _ => return []
  | depth + 1, ancestors, path, location, node => do
    match ← tree.settle ancestors path location node with
    | (_, .file _) => return [path]
    | (folder, .folder) =>
      let files ← (tree.children folder).mapM fun (name, node) =>
        tree.filesBelow depth ((path, folder) :: ancestors) (path.join name) (folder ++ [name]) node
      return files.flatten
    | _ => return []

/-- The most names that a location of the tree has. -/
def height (tree : FileTree) : Nat := (tree.nodes.map (·.1.length)).foldl max 0

/-- More levels than any walk can open: between two links it goes down, and no link leads to a folder twice. -/
def depthBound (tree : FileTree) : Nat := (tree.height + 1) * (tree.nodes.length + 1)

/-- The files with an extension at and below a place, in order.  Only the top level is searched unless
`recursive`. -/
def discover (tree : FileTree) (root : Path) (extension : String) (recursive : Bool) :
    Except WalkFault (List Path) :=
  match tree.find .inspect root with
  | .error cause => .error (.unreadable root cause)
  | .ok (location, node) => do
    let files ← tree.filesBelow (if recursive then tree.depthBound else 1) [] root location node
    return (files.filter (·.hasExtension extension)).mergeSort Path.le

end FileTree

end Offside
