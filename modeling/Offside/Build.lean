import Offside.Compile
import Offside.FileTree.Walk
import Offside.Pipeline
import Offside.Terminal

/-!
# Builds

A build finds the sources that a target names and compiles each of them.  The compiled text goes beside its source,
under the output extension, or to the standard output.  A source that fails is reported and changes nothing.
-/

namespace Offside

/-- Why a build, or one source of it, failed. -/
inductive Failure
  | file (path : Path) (cause : Fault)
  | configuration (path : Path)
  | source (path : Path) (cause : Rejection)
  | step (name : String) (cause : StepFault)
  | walk (cause : WalkFault)
  | noTarget (target : Path)
  | needsFile (target : Path)
  | badExtension (extension : String)

namespace Failure

def message : Failure → String
  | .file path cause => s!"{path.text}: {cause.message}"
  | .configuration path => s!"Invalid configuration in {path.text}"
  | .source path cause => s!"{path.text}: {cause.message}"
  | .step name cause => s!"Post-processor '{name}' failed: {cause.message}"
  | .walk cause => s!"Failed to read directory: {cause.message}"
  | .noTarget target => s!"No such file or directory: {target.text}"
  | .needsFile target => s!"--stdout needs a single file target, got directory {target.text}"
  | .badExtension extension => s!"extension cannot contain path separators: {extension}"

/-- Whether a failure ends the whole program. -/
def isFatal : Failure → Bool
  | .badExtension _ => true
  | _ => false

/-- The exit status of a program that a failure ends. -/
def status (failure : Failure) : Nat := if failure.isFatal then 101 else 1

/-- The texts of the causes behind a failure. -/
def causes : Failure → List String
  | .file _ cause => [cause.message]
  | .walk (.unreadable path cause) => [(WalkFault.unreadable path cause).message, cause.message]
  | .walk cause => [cause.message]
  | _ => []

/-- The text that reports a failure.  A source has one line for each of its diagnostics. -/
def report (failure : Failure) : String :=
  let start := Terminal.bold (Terminal.red "error")
  match failure with
  | .source path cause =>
    String.join (cause.diagnostics.map fun diagnostic =>
      s!"{start}: {Terminal.cyan path.text}: {diagnostic.display}\n")
  | other => s!"{start}: {other.message}\n"

end Failure

/-- What a build does with each source. -/
structure Job where
  settings : Settings
  pipeline : Pipeline
  toStdout : Bool

namespace Job

/-- The job that settings and flags stand for. -/
def ofFlags (settings : Settings) (flags : Flags) : Job :=
  let settings := settings.applyFlags flags
  { settings, pipeline := Pipeline.ofFlags settings flags, toStdout := flags.stdout }

/-- What stands before every compiled text unless it is switched off. -/
def banner : String := "/* Compiled by Cleanscript */\n\n"

/-- Compiles a source text, with post-processing and the banner: the text, and the tree afterwards. -/
def compileText (tools : Tool.Box) (job : Job) (tree : FileTree) (source : String) :
    Except Rejection (String × FileTree) := do
  let (script, tree) := job.pipeline.run tools tree (← compile source)
  return (if job.settings.banner then banner ++ script else script, tree)

/-- The files that a target names: itself, or the sources in a folder. -/
def sources (job : Job) (tree : FileTree) (target : Path) : Except Failure (List Path) :=
  if tree.isFile target then .ok [target]
  else if !tree.isFolder target then .error (.noTarget target)
  else if job.toStdout then .error (.needsFile target)
  else
    match tree.discover target job.settings.sourceExtension job.settings.recursive with
    | .ok files => .ok files
    | .error cause => .error (.walk cause)

/-- Compiles one file: the tree afterwards, and what is printed. -/
def compileFile (tools : Tool.Box) (job : Job) (tree : FileTree) (path : Path) :
    Except Failure (FileTree × String) := do
  let source ← (tree.read path).mapError (.file path)
  let (script, tree) ← (job.compileText tools tree source).mapError (.source path)
  if job.toStdout then return (tree, script)
  else
    match path.withExtension? job.settings.outputExtension with
    | none => throw (.badExtension job.settings.outputExtension)
    | some output => return (← (tree.write output script).mapError (.file output), "")

end Job

/-- What a build did: the tree afterwards, what was printed, and which files failed. -/
structure Build where
  tree : FileTree
  printed : String := ""
  compiled : Nat := 0
  failures : List Failure := []

namespace Build

def failed (build : Build) : Nat := build.failures.length

def success (build : Build) : Bool := build.failed = 0

/-- Compiles one more file.  A fatal failure ends the build. -/
def next (tools : Tool.Box) (job : Job) (build : Build) (path : Path) : Except Failure Build :=
  match job.compileFile tools build.tree path with
  | .ok (tree, text) =>
    .ok { build with tree, printed := build.printed ++ text, compiled := build.compiled + 1 }
  | .error failure =>
    if failure.isFatal then .error failure else .ok { build with failures := build.failures ++ [failure] }

/-- Compiles files one after another. -/
def files (tools : Tool.Box) (job : Job) (tree : FileTree) (paths : List Path) : Except Failure Build :=
  paths.foldlM (next tools job) { tree }

/-- Builds a target. -/
def run (tools : Tool.Box) (job : Job) (tree : FileTree) (target : Path) : Except Failure Build := do
  files tools job tree (← job.sources tree target)

/-- The text that reports the failures of a build. -/
def report (build : Build) : String := String.join (build.failures.map Failure.report)

end Build

end Offside
