import Offside.Settings
import Offside.Text.Repaired
import Offside.Tool

/-!
# Post-processing

The compiled text may go through programs that shorten or format it.  A program that fails costs nothing: the text
stays what it was before it.
-/

namespace Offside

/-- A program that the compiled text goes through. -/
structure Step where
  name : String
  program : String
  arguments : List String
deriving DecidableEq, Repr

/-- Why a program gave no text. -/
inductive StepFault
  | notStarted (program : String) (cause : Fault)
  | brokenPipe
  | failed (status : Tool.Status) (errors : String)
  | notText
deriving DecidableEq, Repr

def StepFault.message : StepFault → String
  | .notStarted program cause => s!"could not start '{program}': {cause.message}"
  | .brokenPipe => "writing input: Broken pipe (os error 32)"
  | .failed status errors => s!"{status.text}: {errors}"
  | .notText => "output was not UTF-8"

namespace Step

/-- The step that a command line stands for, if it is not empty. -/
def ofCommand? (name : String) : List String → Option Step
  | [] => none
  | program :: arguments => some ⟨name, program, arguments⟩

/-- How many bytes can be handed to a program that does not read them. -/
def pipeCapacity : Nat := 65536

/-- The text that a program gave, or why it gave none. -/
def result (outcome : Tool.Outcome) : Except StepFault String :=
  if pipeCapacity < outcome.unread.length then .error .brokenPipe
  else if outcome.status ≠ .ok then
    .error (.failed outcome.status (String.ofList (Text.trim (Text.Repaired.decode outcome.errors))))
  else
    match String.fromUTF8? ⟨outcome.output.toArray⟩ with
    | some text => .ok text
    | none => .error .notText

/-- Sends a text through the program of a step: its result, and the tree afterwards. -/
def run (tools : Tool.Box) (tree : FileTree) (step : Step) (text : String) :
    Except StepFault String × FileTree :=
  match tools tree step.program step.arguments (Bytes.ofText text) with
  | .error cause => (.error (.notStarted step.program cause), tree)
  | .ok (outcome, tree) => (result outcome, tree)

end Step

/-- The programs that the compiled text goes through, in order. -/
abbrev Pipeline := List Step

namespace Pipeline

/-- The pipeline that flags select.  Shortening comes before formatting, and empty commands are left out. -/
def ofFlags (settings : Settings) (flags : Flags) : Pipeline :=
  let minify := settings.minifyCommand ++ (if flags.mangle then settings.mangleArgs else [])
  (if flags.minify then (Step.ofCommand? "minify" minify).toList else [])
    ++ (if flags.prettify then (Step.ofCommand? "prettify" settings.prettifyCommand).toList else [])

/-- Sends a text through all programs: what comes of it, and the tree afterwards.  Where a program fails the text
goes on unchanged. -/
def run (tools : Tool.Box) (tree : FileTree) (pipeline : Pipeline) (text : String) : String × FileTree :=
  pipeline.foldl
    (fun (text, tree) step =>
      let (result, tree) := step.run tools tree text
      (result.toOption.getD text, tree))
    (text, tree)

end Pipeline

end Offside
