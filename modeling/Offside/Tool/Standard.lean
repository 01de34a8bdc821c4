import Offside.Tool.Edit
import Offside.Tool.Shell

/-!
# The standard tools

The programs that every system has.  A shell can start all of them, and shells inside it up to a depth.
-/

namespace Offside.Tool

/-- The name of a program that is given by its name or by a path to one of the folders of programs. -/
def nameOf? (program : String) : Option String :=
  if !program.toList.contains '/' then some program
  else
    match FileTree.startsAtRoot program, FileTree.steps program with
    | true, ["bin", name] | true, ["usr", "bin", name] => some name
    | _, _ => none

/-- Why a program that is not among the tools cannot be started.  What stands in a tree is no program. -/
def startFault (tree : FileTree) (program : String) : Fault :=
  if program.toList.contains '/' then
    match tree.find .visit ⟨program⟩ with
    | .ok _ => .denied
    | .error fault => fault
  else if program = "." || program = ".." then .denied
  else if FileTree.nameLimit < program.utf8ByteSize then .nameTooLong
  else .missing

def simple? : (name : String) → Option Program
  | "tr" => some fun launch => (Exchange.run launch, launch.tree)
  | "sed" => some Edit.run
  | name => (plain? name).map fun run launch => (run launch, launch.tree)

def shelf : (depth : Nat) → Shelf
  | depth, tree, program =>
    let found : Option Program := match depth, nameOf? program with
      | depth + 1, some "sh" => some (Shell.run (shelf depth))
      | _, some name => simple? name
      | _, none => none
    match found with
    | some run => .ok run
    | none => .error (startFault tree program)

def standard (environment : Environment) : Box := (shelf 8).box environment

end Offside.Tool
