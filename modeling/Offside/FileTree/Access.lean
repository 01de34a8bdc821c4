import Offside.FileTree
import Offside.Path

/-!
# Files by their paths

How a path finds its place in a tree, and what reading and writing there does.  Links are followed, up to a limit.
-/

namespace Offside

/-- Why a file or a program cannot be used. -/
inductive Fault
  | missing
  | tooLong
  | denied
  | notFolder
  | isFolder
  | noSpace
  | closed
  | nameTooLong
  | linkLoop
  | nulInName
  | nulInCommand
  | notText
deriving DecidableEq, Repr

namespace Fault

/-- What a fault is. -/
def reason : Fault → String
  | .missing => "No such file or directory"
  | .tooLong => "Argument list too long"
  | .denied => "Permission denied"
  | .notFolder => "Not a directory"
  | .isFolder => "Is a directory"
  | .noSpace => "No space left on device"
  | .closed => "Bad file descriptor"
  | .nameTooLong => "File name too long"
  | .linkLoop => "Too many levels of symbolic links"
  | .nulInName => "file name contained an unexpected NUL byte"
  | .nulInCommand => "nul byte found in provided data"
  | .notText => "stream did not contain valid UTF-8"

/-- The number that the system has for a fault it finds itself. -/
def number? : Fault → Option Nat
  | .missing => some 2
  | .tooLong => some 7
  | .closed => some 9
  | .denied => some 13
  | .notFolder => some 20
  | .isFolder => some 21
  | .noSpace => some 28
  | .nameTooLong => some 36
  | .linkLoop => some 40
  | .nulInName | .nulInCommand | .notText => none

/-- The text of a fault, with its number where it has one. -/
def message (fault : Fault) : String :=
  match fault.number? with
  | some number => s!"{fault.reason} (os error {number})"
  | none => fault.reason

end Fault

namespace FileTree

/-- What a place is looked for.  A link at the end of a path is itself inspected, and it is followed to visit or to
create what it leads to. -/
inductive Purpose
  | inspect
  | visit
  | create
deriving DecidableEq, Repr

/-- The steps that a path takes.  A slash at the end is an empty step. -/
def steps (text : String) : List String :=
  let segments := (Path.segments text.toList).map String.ofList
  segments.dropLast.filter (· ≠ "") ++ segments.getLast?.toList

/-- The most bytes that a name may have. -/
def nameLimit : Nat := 255

/-- The most bytes that a path may have. -/
def pathLimit : Nat := 4095

/-- Takes steps from a folder.  The last name may be one where nothing stands yet.  A link is handed to `jump` with
the folder it is in, its target and the remaining steps. -/
def advance (tree : FileTree) (jump : Location → String → List String → Except Fault Location)
    (purpose : Purpose) : Location → List String → Except Fault Location
  | folder, [] => .ok folder
  | folder, step :: rest =>
    if step = "" || step = "." then advance tree jump purpose folder rest
    else if step = ".." then advance tree jump purpose folder.dropLast rest
    else if purpose = .create && rest = [""] then .error .isFolder
    else if nameLimit < step.utf8ByteSize then .error .nameTooLong
    else
      let location := folder ++ [step]
      match tree.node? location with
      | none => if rest = [] then .ok location else .error .missing
      | some .folder => advance tree jump purpose location rest
      | some (.file _) | some (.device _) => if rest = [] then .ok location else .error .notFolder
      | some (.link target) =>
        if rest = [] && purpose = .inspect then .ok location else jump folder target rest

/-- Whether a path starts at the root. -/
def startsAtRoot (text : String) : Bool := text.toList.head? = some '/'

/-- The place that steps lead to, following at most `links` links. -/
def resolveSteps (tree : FileTree) (purpose : Purpose) : (links : Nat) → Location → List String →
    Except Fault Location
  | 0 => tree.advance (fun _ _ _ => .error .linkLoop) purpose
  | links + 1 => tree.advance
      (fun folder target rest =>
        tree.resolveSteps purpose links (if startsAtRoot target then [] else folder) (steps target ++ rest))
      purpose

/-- How many links a path may pass. -/
def linkLimit : Nat := 40

/-- The place that a path leads to. -/
def resolve (tree : FileTree) (purpose : Purpose) (path : Path) : Except Fault Location :=
  if path.text.toList.contains '\x00' then .error .nulInName
  else if path.text = "" then .error .missing
  else if pathLimit < path.text.utf8ByteSize then .error .nameTooLong
  else
    tree.resolveSteps purpose linkLimit (if startsAtRoot path.text then [] else tree.working) (steps path.text)

/-- The place of something that exists, and what stands there. -/
def find (tree : FileTree) (purpose : Purpose) (path : Path) : Except Fault (Location × Node) := do
  let location ← tree.resolve purpose path
  match tree.node? location with
  | some node => return (location, node)
  | none => throw .missing

def exists? (tree : FileTree) (path : Path) : Bool := (tree.find .visit path).toBool

def isFile (tree : FileTree) (path : Path) : Bool :=
  match tree.find .visit path with
  | .ok (_, .file _) => true
  | _ => false

def isFolder (tree : FileTree) (path : Path) : Bool :=
  match tree.find .visit path with
  | .ok (_, .folder) => true
  | _ => false

/-- The bytes of a file. -/
def readBytes (tree : FileTree) (path : Path) : Except Fault ByteArray := do
  match ← tree.find .visit path with
  | (_, .file content) => return content
  | (_, .device _) => return .empty
  | (_, .folder) => throw .isFolder
  | (_, .link _) => throw .linkLoop

/-- The text of a file. -/
def read (tree : FileTree) (path : Path) : Except Fault String := do
  match String.fromUTF8? (← tree.readBytes path) with
  | some text => return text
  | none => throw .notText

/-- Writes bytes to a file, in the place of its content if it exists. -/
def writeBytes (tree : FileTree) (path : Path) (content : ByteArray) : Except Fault FileTree := do
  let location ← tree.resolve .create path
  match tree.node? location with
  | some .folder => throw .isFolder
  | some (.device .null) => return tree
  | some (.device .full) => if content.isEmpty then return tree else throw .noSpace
  | _ => return tree.put location (.file content)

/-- Writes a text to a file. -/
def write (tree : FileTree) (path : Path) (text : String) : Except Fault FileTree :=
  tree.writeBytes path text.toUTF8

end FileTree

end Offside
