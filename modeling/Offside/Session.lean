import Offside.CommandLine
import Offside.CommandLine.Help
import Offside.Settings.File
import Offside.Watch

/-!
# Sessions

A session is one run of the program: a command line and an environment over a file tree, and what comes of it.
-/

namespace Offside.Session

/-- The file of configuration that is used if it exists and no other is named. -/
def defaultFile : Path := ⟨"cleanscript.toml"⟩

/-- The variable of the environment that names a file of configuration. -/
def fileVariable : String := "CLEANSCRIPT_CONFIG"

/-- The settings of a file. -/
def settingsOf (tree : FileTree) (path : Path) : Except Failure Settings := do
  let text ← (tree.read path).mapError (.file path)
  match Settings.ofText? text with
  | some settings => return settings
  | none => throw (.configuration path)

/-- The settings before flags are applied.  A file that is named must exist. -/
def loadSettings (tree : FileTree) (named : Option Path) (environment : Environment) :
    Except Failure Settings := do
  let settings ← match named with
    | some path => settingsOf tree path
    | none => if tree.exists? defaultFile then settingsOf tree defaultFile else pure .initial
  return settings.applyVariables environment

/-- What comes of a session: its exit status, what it printed and the tree afterwards.  A session may go on to
watch. -/
structure Ending where
  status : Nat
  printout : Printout := {}
  tree : FileTree
  watching : Option Watch := none

/-- A text behind a mark, with spaces in front of its further lines. -/
def indented (mark : String) (text : String) : String :=
  let spaces := String.ofList (List.replicate mark.length ' ')
  mark ++ ("\n" ++ spaces).intercalate (text.splitOn "\n")

/-- The text about a failure that ends a session, with its causes.  Several causes are numbered. -/
def failureText (failure : Failure) : String :=
  let causes := match failure.causes with
    | [] => []
    | [cause] => ["", "Caused by:", indented "    " cause]
    | causes => "" :: "Caused by:" :: causes.mapIdx fun i cause => indented s!"    {i}: " cause
  String.join ((("Error: " ++ failure.message) :: causes).map (· ++ "\n"))

/-- The line that sums up a build, on the output if all went well. -/
def summary (build : Build) : String :=
  let compiled := Terminal.yellow (toString build.compiled)
  if build.success then Terminal.bold (Terminal.green "Compiled") ++ s!" {compiled} file(s)"
  else
    let failed := Terminal.red (toString build.failed)
    Terminal.bold (Terminal.red "Error") ++ s!" {compiled} file(s) compiled, {failed} failed"

/-- The text about the version, for the program or one of its commands. -/
def versionText (command : Option CommandLine.Command) : String :=
  match command with
  | none => "cleanscript 0.1.0\n"
  | some command => s!"cleanscript-{command.name} 0.1.0\n"

/-- Compiles a target. -/
def compileTarget (tools : Tool.Box) (job : Job) (tree : FileTree) (target : Path) :
    Except Failure Ending := do
  let build ← Build.run tools job tree target
  let summed : Printout :=
    if job.toStdout then {}
    else if build.success then { output := summary build ++ "\n" }
    else { errors := summary build ++ "\n" }
  return {
    status := if build.success then 0 else 1
    printout := Printout.append ⟨build.printed, build.report⟩ summed
    tree := build.tree }

/-- Starts to watch a target.  The session goes on until it is stopped. -/
def watchTarget (tools : Tool.Box) (job : Job) (tree : FileTree) (target : Path) :
    Except Failure Ending := do
  let (watch, printout) ← Watch.start tools job tree target
  return { status := 0, printout, tree := watch.tree, watching := some watch }

/-- Runs what a command line asks for. -/
def perform (tools : Tool.Box) (invocation : CommandLine.Invocation) (environment : Environment)
    (tree : FileTree) : Except Failure Ending := do
  let settings ← loadSettings tree (invocation.config.map Path.mk) environment
  let job := Job.ofFlags settings invocation.flags
  match invocation.command with
  | .compile => compileTarget tools job tree invocation.target
  | .watch => watchTarget tools job tree invocation.target

/-- Runs a session. -/
def run (tools : Tool.Box) (words : List String) (environment : Environment) (tree : FileTree) :
    Ending :=
  let named := environment.lookup fileVariable
  match CommandLine.read named words with
  | .error (.version command) => { status := 0, printout := { output := versionText command }, tree }
  | .error (.help topic) => { status := 0, printout := { output := CommandLine.helpText named topic }, tree }
  | .error refusal => { status := refusal.status, tree }
  | .ok invocation =>
    match perform tools invocation environment tree with
    | .ok ending => ending
    | .error failure => { status := failure.status, printout := { errors := failureText failure }, tree }

end Offside.Session
