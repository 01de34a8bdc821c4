import Offside.Environment
import Offside.FileTree.Access

/-!
# Tools

A tool is a program that turns bytes into bytes.  It ends with a status, says what it has to say about failures,
and may leave some of what it was given unread.
-/

namespace Offside

abbrev Bytes := List UInt8

def Bytes.ofText (text : String) : Bytes := text.toUTF8.toList

namespace Tool

/-- How a program ends. -/
inductive Status
  | exited (code : Nat)
  | killed (signal : Nat)
deriving DecidableEq, Repr

namespace Status

def ok : Status := .exited 0

/-- The names of the signals that programs are ended by. -/
def signalNames : List (Nat × String) :=
  [(1, "SIGHUP"), (2, "SIGINT"), (3, "SIGQUIT"), (4, "SIGILL"), (5, "SIGTRAP"), (6, "SIGABRT"), (7, "SIGBUS"),
    (8, "SIGFPE"), (9, "SIGKILL"), (10, "SIGUSR1"), (11, "SIGSEGV"), (12, "SIGUSR2"), (13, "SIGPIPE"),
    (14, "SIGALRM"), (15, "SIGTERM"), (16, "SIGSTKFLT"), (24, "SIGXCPU"), (25, "SIGXFSZ"), (26, "SIGVTALRM"),
    (27, "SIGPROF"), (29, "SIGIO"), (30, "SIGPWR"), (31, "SIGSYS")]

def text : Status → String
  | .exited code => s!"exit status: {code}"
  | .killed signal =>
    match signalNames.lookup signal with
    | some name => s!"signal: {signal} ({name})"
    | none => s!"signal: {signal}"

end Status

/-- What a program did with its input.  What it read `ahead` it had no use for. -/
structure Outcome where
  status : Status := .ok
  output : Bytes := []
  errors : Bytes := []
  ahead : Bytes := []
  unread : Bytes := []
deriving DecidableEq

/-- The programs that can be started on a file tree: what each does with arguments and an input, and the tree
afterwards. -/
abbrev Box :=
  FileTree → (program : String) → (arguments : List String) → (input : Bytes) →
    Except Fault (Outcome × FileTree)

/-- The box without programs. -/
def Box.empty : Box := fun _ _ _ _ => .error .missing

/-- What a program reads: bytes, the place of the file that they come from with the position in it, and why nothing can
be read. -/
structure Inlet where
  bytes : Bytes := []
  place : Option (Location × Nat) := none
  fault : Option Fault := none

/-- What a program is started with: a file tree, variables, arguments, what it reads, the place of the file that it
writes to, and why it cannot write. -/
structure Launch where
  tree : FileTree
  environment : Environment := []
  arguments : List String
  inlet : Inlet
  outletPlace : Option Location := none
  outletFault : Option Fault := none

namespace Launch

def input (launch : Launch) : Bytes := launch.inlet.bytes

/-- The size of the file that is read. -/
def inputSize? (launch : Launch) : Option Nat :=
  launch.inlet.place.bind fun (location, _) =>
    match launch.tree.node? location with
    | some (.file content) => some content.size
    | _ => none

end Launch

/-- A program: what it does, and the tree afterwards. -/
abbrev Program := Launch → Outcome × FileTree

/-- Programs that are found by their names or paths. -/
abbrev Shelf := FileTree → (program : String) → Except Fault Program

/-- The most bytes that a word of a command line may have. -/
def wordLimit : Nat := 131071

/-- Why no program can be started with some words. -/
def wordsFault? (words : List String) : Option Fault :=
  if words.any fun word => word.toList.contains '\x00' then some .nulInCommand
  else if words.any fun word => wordLimit < word.utf8ByteSize then some .tooLong
  else none

/-- The programs of a shelf, started with the same variables. -/
def Shelf.box (shelf : Shelf) (environment : Environment) : Box := fun tree program arguments input =>
  match wordsFault? (program :: arguments) with
  | some fault => .error fault
  | none => (shelf tree program).map fun run => run { tree, environment, arguments, inlet := { bytes := input } }

/-- A program that gives up with a message before it reads anything of its input. -/
def refuse (code : Nat) (message : String) (input : Bytes) : Outcome :=
  { status := .exited code, errors := Bytes.ofText message, unread := input }

/-- Reports a failure of a program. -/
def Outcome.complain (outcome : Outcome) (code : Nat) (message : String) : Outcome :=
  { outcome with status := .exited code, errors := outcome.errors ++ Bytes.ofText message }

/-- What a program did that may not be able to write what it wants to. -/
def Outcome.through (outcome : Outcome) (outletFault : Option Fault) (code : Nat) (message : Fault → String) :
    Outcome :=
  match outletFault with
  | some fault => if outcome.output.isEmpty then outcome else { outcome.complain code (message fault) with output := [] }
  | none => outcome

end Tool

end Offside
