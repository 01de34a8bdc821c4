import Offside.Tool.Shell.Options

/-!
# What names stand for

The name of a command can be that of a function, of a command of the shell, or of a program in one of some folders.
-/

namespace Offside.Tool.Shell

def plainNames : List String :=
  ["alias", "bg", "cd", "chdir", "command", "echo", "false", "fg", "getopts", "hash", "jobs", "kill", "printf", "pwd",
    "read", "test", "[", "true", "type", "ulimit", "umask", "unalias", "wait"]

def isBuiltin (name : String) : Bool := Reader.specialNames.contains name || plainNames.contains name

def usualFolders : String := "/usr/local/sbin:/usr/local/bin:/usr/sbin:/usr/bin:/sbin:/bin"

def colonParts (text : String) : List String := text.splitOn ":"

/-- The path of a name in a folder.  An empty folder is the one where the shell works. -/
def joinedPath (folder name : String) : String := if folder = "" then name else folder ++ "/" ++ name

def programAt (shelf : Shelf) (tree : FileTree) (path : String) : Except Fault Program :=
  shelf tree (readable (if path.toList.contains '/' then path else "./" ++ path))

/-- The first program with a name in some folders, with its path.  `fault` is why there was none so far. -/
def programIn (shelf : Shelf) (tree : FileTree) (name : String) :
    (fault : Fault) → (folders : List String) → Except Fault (String × Program)
  | fault, [] => .error fault
  | fault, folder :: rest =>
    let path := joinedPath folder name
    match programAt shelf tree path with
    | .ok program => .ok (path, program)
    | .error .missing | .error .notFolder => programIn shelf tree name fault rest
    | .error other => programIn shelf tree name other rest

def programNamed (shelf : Shelf) (tree : FileTree) (folders name : String) : Except Fault (String × Program) :=
  if name.toList.contains '/' then (programAt shelf tree name).map (name, ·)
  else programIn shelf tree name .missing (colonParts folders)

def startReason : Fault → String
  | .missing | .notFolder => "not found"
  | fault => fault.reason

def startCode : Fault → Nat
  | .missing | .notFolder | .linkLoop | .nameTooLong => 127
  | _ => 126

def State.folders (state : State) : String := (state.value? "PATH").getD usualFolders

def tablePlace (size : Nat) (name : String) : Nat :=
  let first : Nat := (name.toList.head?.map Char.toNat).getD 0
  let sum : Nat := name.toList.foldl (fun sum c => sum + c.toNat) (16 * first)
  sum % size

def tableOrder (size : Nat) (entries : List (String × String)) : List (String × String) :=
  (List.range size).flatMap fun index => entries.filter fun (name, _) => tablePlace size name = index

def Run.remember (shelf : Shelf) (name : String) : Run (Except Fault (String × Program)) := do
  let state ← get
  match programNamed shelf state.tree state.folders name with
  | .ok (path, program) =>
    if !name.toList.contains '/' && (state.hashed.lookup name).isNone then
      set { state with hashed := state.hashed ++ [(name, path)] }
    return .ok (path, program)
  | .error fault => return .error fault

/-- What a name stands for, in words or as something that can be run.  Without an answer there is none.  `folders` are
set if programs are looked for elsewhere. -/
def describe? (shelf : Shelf) (state : State) (folders : Option String) (isVerbose : Bool) (name : String) :
    Option String :=
  let said (text : String) : String := if isVerbose then s!"{name} is {text}" else name
  let tracked := if folders.isNone then state.hashed.lookup name else none
  let path? : Option String :=
    if name.toList.contains '/' then
      if state.tree.exists? ⟨readable name⟩ || (programAt shelf state.tree name).toBool then some name else none
    else
      (programNamed shelf state.tree (folders.getD state.folders) name).toOption.map (·.1)
  if Reader.keywords.contains name then some (said "a shell keyword")
  else if let some text := state.aliases.lookup name then
    some (if isVerbose then said s!"an alias for {text}" else s!"alias {name}={quoted text}")
  else if (state.functions.lookup name).isSome then some (said "a shell function")
  else if Reader.specialNames.contains name then some (said "a special shell builtin")
  else if plainNames.contains name then some (said "a shell builtin")
  else if let some path := tracked then some (if isVerbose then said s!"a tracked alias for {path}" else path)
  else path?.map fun path => if isVerbose then said path else path

/-- Says what a name stands for.  Where a program is found is remembered. -/
def Run.describe (shelf : Shelf) (folders : Option String) (isVerbose : Bool) (name : String) :
    Run (Option String) := do
  let state ← get
  let found := describe? shelf state folders isVerbose name
  let isOther := Reader.keywords.contains name || (state.aliases.lookup name).isSome || isBuiltin name
    || (state.functions.lookup name).isSome
  if found.isSome && folders.isNone && !isOther then
    let _ ← Run.remember shelf name
  return found

end Offside.Tool.Shell
