import Offside.CommandLine.Option
import Offside.Path
import Offside.Settings

/-!
# The command line

Options stand before the command or behind it, and each part is read on its own.  A value is checked and recorded
only when the next option or target comes, so a mistake further on can be found first.
-/

namespace Offside.CommandLine

/-- A value that was read and not recorded yet, or the option that still waits for one. -/
inductive Pending
  | config (value : Option String)
  | target (value : String)
deriving DecidableEq, Repr

/-- What one part of the command line gave so far. -/
structure Given where
  switches : List Switch := []
  config : Option String := none
  target : Option String := none
  pending : Option Pending := none
deriving DecidableEq, Repr

namespace Given

/-- Records a file of configuration.  It is given once and is not empty. -/
def setConfig (given : Given) (value : String) : Except Refusal Given :=
  if given.config.isSome then .error .conflict
  else if value = "" then .error .badValue
  else .ok { given with config := some value }

/-- Records the value that is pending. -/
def settle (given : Given) : Except Refusal Given :=
  let settled := { given with pending := none }
  match given.pending with
  | none => .ok given
  | some (.config none) => .error .badValue
  | some (.config (some value)) => settled.setConfig value
  | some (.target value) =>
    if value = "" then .error .badValue else .ok { settled with target := some value }

/-- Whether an option waits for its value. -/
def awaits (given : Given) : Bool := given.pending = some (.config none)

/-- Whether a target was read. -/
def hasTarget (given : Given) : Bool :=
  given.target.isSome ||
    match given.pending with
    | some (.target _) => true
    | _ => false

/-- Answers a request that has no value. -/
def request (given : Given) (scope : Scope) : Request → Except Refusal Given
  | .switch switch => do
    let given ← given.settle
    if given.switches.contains switch then throw .conflict
    else return { given with switches := given.switches ++ [switch] }
  | .config => do
    let given ← given.settle
    return { given with pending := some (.config none) }
  | .help => do
    let _ ← given.settle
    throw (.help scope.topic)
  | .version => do
    let _ ← given.settle
    throw (.version scope)

/-- Reads a long option. -/
def long (given : Given) (scope : Scope) (name : String) (value : Option String) : Except Refusal Given :=
  match longRequest? scope name, value with
  | none, _ => .error .unknownArgument
  | some .config, some value => do (← given.settle).setConfig value
  | some _, some _ => .error .needlessValue
  | some request, none => given.request scope request

/-- Reads one-letter options. -/
def short (given : Given) (scope : Scope) : List Char → Except Refusal Given
  | [] => .ok given
  | letter :: letters =>
    match shortRequest? scope letter with
    | none => .error .unknownArgument
    | some request => do (← given.request scope request).short scope letters

/-- Reads the target of a command, of which there is one. -/
def addTarget (given : Given) (text : String) : Except Refusal Given :=
  if given.hasTarget then .error .unknownArgument
  else do
    let given ← given.settle
    return { given with pending := some (.target text) }

/-- Reads words as targets only. -/
def addTargets (given : Given) : List String → Except Refusal Given
  | [] => .ok given
  | text :: rest => do (← given.addTarget text).addTargets rest

/-- Reads the words behind a command. -/
def behind (given : Given) (command : Command) : List String → Except Refusal Given
  | [] => .ok given
  | text :: rest =>
    match Word.ofText text with
    | .escape => given.addTargets rest
    | .long name value => do (← given.long command name value).behind command rest
    | .short letters => do (← given.short command letters).behind command rest
    | .plain text => do
      let given ←
        if given.awaits then pure { given with pending := some (.config (some text)) }
        else given.addTarget text
      given.behind command rest

/-- Takes the file of configuration from the environment where the command line gave none. -/
def orElseConfig (given : Given) (variableValue : Option String) : Except Refusal Given :=
  match given.config, variableValue with
  | none, some value => given.setConfig value
  | _, _ => .ok given

/-- Checks what the words behind a command gave as a whole. -/
def check (given : Given) : Except Refusal Given :=
  if given.switches.contains .stdout && given.switches.contains .recursive then .error .conflict
  else if given.target.isNone then .error .missingArgument
  else if given.switches.contains .mangle && !given.switches.contains .minify then .error .missingArgument
  else .ok given

end Given

/-- What a command line asks for. -/
structure Invocation where
  verbose : Bool
  config : Option String
  command : Command
  target : Path
  flags : Flags
deriving DecidableEq, Repr

/-- Reads the names that help is asked for. -/
def helpFor (names : List String) : Refusal :=
  match names with
  | [] => .help .program
  | [name] =>
    if name = "help" then .help .help
    else
      match Command.ofName? name with
      | some command => .help (.command command)
      | none => .unknownCommand
  | _ => .unknownCommand

/-- Reads the words behind a command and joins them with what stood before it. -/
def finish (variableValue : Option String) (before : Given) (command : Command) (words : List String) :
    Except Refusal Invocation := do
  let given ← (← Given.behind {} command words).settle
  let given' ← given.orElseConfig variableValue
  let given' ← given'.check
  let before ← before.settle
  let before' ← before.orElseConfig variableValue
  let has (switch : Switch) : Bool := given'.switches.contains switch
  return {
    verbose := has .verbose || before.switches.contains .verbose
    config := given.config <|> before.config <|> before'.config
    command
    target := ⟨given'.target.getD ""⟩
    flags := {
      recursive := has .recursive
      minify := has .minify
      mangle := has .mangle
      prettify := has .prettify
      noBanner := has .noBanner
      stdout := has .stdout } }

/-- Reads the words before the command, up to the command. -/
def readFrom (variableValue : Option String) (given : Given) : List String → Except Refusal Invocation
  | [] => do
    let given ← given.settle
    let given ← given.orElseConfig variableValue
    if given.switches.isEmpty && given.config.isNone then throw .nothingGiven else throw .missingCommand
  | text :: rest =>
    match Word.ofText text with
    | .escape =>
      match rest with
      | [] => readFrom variableValue given rest
      | word :: _ =>
        if word = "help" || (Command.ofName? word).isSome then .error .unknownArgument
        else .error .unknownCommand
    | .long name value => do readFrom variableValue (← given.long none name value) rest
    | .short letters => do readFrom variableValue (← given.short none letters) rest
    | .plain word =>
      if given.awaits then
        readFrom variableValue { given with pending := some (.config (some word)) } rest
      else if word = "help" then .error (helpFor rest)
      else
        match Command.ofName? word with
        | some command => finish variableValue given command rest
        | none => .error .unknownCommand

/-- Reads a command line.  `variableValue` is the file of configuration that the environment names. -/
def read (variableValue : Option String) (words : List String) : Except Refusal Invocation :=
  readFrom variableValue {} words

end Offside.CommandLine
