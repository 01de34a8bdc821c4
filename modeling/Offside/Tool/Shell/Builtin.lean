import Offside.Tool.Shell.Builtin.Signals
import Offside.Tool.Shell.Builtin.Surroundings
import Offside.Tool.Shell.Builtin.Text

/-!
# Commands of the shell

The commands that the shell has itself and that run no other ones.
-/

namespace Offside.Tool.Shell.Builtin

def type (shelf : Shelf) (words : List String) : Run Nat := do
  let mut code := 0
  for name in words do
    match ← Run.describe shelf none true name with
    | some text => Run.out (text ++ "\n")
    | none =>
      Run.out s!"{name}: not found\n"
      code := 127
  return code

def hash (shelf : Shelf) (words : List String) : Run Nat :=
  Run.withOptions [('r', false)] words fun options words => do
    if !options.isEmpty then
      modify ({ · with hashed := [] })
      return 0
    else if words.isEmpty then
      Run.out (String.join ((tableOrder 31 (← get).hashed).map fun (_, path) => path ++ "\n"))
      return 0
    else
      let mut code := 0
      for name in words do
        let state ← get
        if !(name.toList.contains '/' || isBuiltin name || (state.functions.lookup name).isSome) then
          set { state with hashed := state.hashed.filter (·.1 ≠ name) }
          match ← Run.remember shelf name with
          | .ok _ => pure ()
          | .error fault =>
            Run.report s!"{name}: {startReason fault}"
            code := 1
      return code

def leaveLoops (isContinued : Bool) (words : List String) : Run Nat := do
  let asked := words.headD "1"
  match count? asked with
  | some (n + 1) =>
    let loops := (← get).loops
    if 0 < loops then
      let count := min (n + 1) loops
      modify ({ · with flow := if isContinued then .nextRound count else .leaveLoops count })
    return 0
  | _ =>
    Run.raise s!"Illegal number: {asked}"
    return 2

def leaveFunction (words : List String) : Run Nat := do
  match words with
  | [] =>
    let state ← get
    modify ({ · with flow := .leaveFunction })
    return state.savedCode.getD state.code
  | word :: _ =>
    withCount word fun code => do
      modify ({ · with flow := .leaveFunction })
      return code

def exit (words : List String) : Run Nat := do
  match words with
  | [] =>
    let state ← get
    let code := state.savedCode.getD state.code
    modify ({ · with flow := .ended (.exited (code % 256)) })
    return code
  | word :: _ =>
    withCount word fun code => do
      modify ({ · with flow := .ended (.exited (code % 256)) })
      return code

/-- The command of a name, as far as it runs no other ones: what it does with its words, and how it ends. -/
def find? (shelf : Shelf) : (name : String) → Option (List String → Run Nat)
  | ":" | "true" => some fun _ => return 0
  | "false" => some fun _ => return 1
  | "[" => some (bracket shelf)
  | "alias" => some shorten
  | "bg" | "fg" => some resume
  | "break" => some (leaveLoops false)
  | "cd" | "chdir" => some cd
  | "continue" => some (leaveLoops true)
  | "echo" => some echo
  | "exit" => some exit
  | "export" => some handOver
  | "getopts" => some getopts
  | "hash" => some (hash shelf)
  | "jobs" => some jobs
  | "kill" => some kill
  | "local" => some localize
  | "printf" => some printf
  | "pwd" => some pwd
  | "read" => some read
  | "readonly" => some protect
  | "return" => some leaveFunction
  | "set" => some configure
  | "shift" => some shift
  | "test" => some (test shelf)
  | "times" => some times
  | "trap" => some trap
  | "type" => some (type shelf)
  | "ulimit" => some ulimit
  | "umask" => some umask
  | "unalias" => some unalias
  | "unset" => some unset
  | "wait" => some wait
  | _ => none

end Offside.Tool.Shell.Builtin
