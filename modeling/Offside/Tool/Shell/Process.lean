import Offside.Tool.Shell.Builtin
import Offside.Tool.Shell.Parameter
import Offside.Tool.Shell.Redirect

/-!
# Processes

Programs that the shell starts, and shells inside of it that have what it has and change nothing of it.
-/

namespace Offside.Tool.Shell

def signalText? : Nat → Option String
  | 1 => some "Hangup"
  | 2 | 13 => none
  | 3 => some "Quit"
  | 4 => some "Illegal instruction"
  | 5 => some "Trace/breakpoint trap"
  | 6 => some "Aborted"
  | 7 => some "Bus error"
  | 8 => some "Floating point exception"
  | 9 => some "Killed"
  | 10 => some "User defined signal 1"
  | 11 => some "Segmentation fault"
  | 12 => some "User defined signal 2"
  | 14 => some "Alarm clock"
  | 15 => some "Terminated"
  | 16 => some "Stack fault"
  | 24 => some "CPU time limit exceeded"
  | 25 => some "File size limit exceeded"
  | 26 => some "Virtual timer expired"
  | 27 => some "Profiling timer expired"
  | 29 => some "I/O possible"
  | 30 => some "Power failure"
  | 31 => some "Bad system call"
  | signal =>
    if signal < 34 then some s!"Unknown signal {signal}" else some s!"Real-time signal {signal - 34}"

namespace Run

def conclude (status : Status) : Run Unit := do
  match status with
  | .exited code => setCode code
  | .killed signal =>
    if let some text := signalText? signal then
      let _ ← print 2 (text ++ "\n")
    setCode (128 + signal)

def replaceJob : Run Unit := modify fun state =>
  match state.jobs.reverse.find? (·.isWaitedFor) with
  | some job => { state with jobs := state.jobs.filter (·.number ≠ job.number) }
  | none => state

/-- Runs a program with words.  It takes what it reads from the input. -/
def start (program : Program) (words : List String) : Run (Except Fault Status) := do
  let arguments := (words.drop 1).map readable
  match wordsFault? arguments with
  | some fault => return .error fault
  | none =>
    let state ← get
    let (outcome, tree) := program {
      tree := state.tree
      environment := state.environment
      arguments
      inlet := state.inlet
      outletPlace := state.outletPlace?
      outletFault := state.outletFault? }
    set ({ state with tree := { tree with working := state.tree.working } }.leaveInput outcome.unread outcome.ahead)
    let _ ← print 2 (ofBytes outcome.errors)
    let _ ← print 1 (ofBytes outcome.output)
    return .ok outcome.status

def stop (status : Status) : Run Unit := modify ({ · with flow := .ended status })

def runProgram (shelf : Shelf) (folders : Option String) (words : List String) : Run Unit := do
  let name := words.headD ""
  let state ← get
  let isPath := name.toList.contains '/'
  let found ← match folders with
    | some folders => pure (programNamed shelf state.tree folders name)
    | none => remember shelf name
  let refused (code : Nat) (fault : Fault) : Run Unit := do
    report s!"{name}: {startReason fault}"
    setCode code
  match found with
  | .error fault => refused (if isPath then startCode fault else 127) fault
  | .ok (_, program) =>
    replaceJob
    match ← start program words with
    | .ok status => conclude status
    | .error fault => refused (startCode fault) fault

def becomeProgram (shelf : Shelf) (words : List String) : Run Unit := do
  let name := words.headD ""
  let state ← get
  let refused (fault : Fault) : Run Unit := do
    report s!"{name}: {startReason fault}"
    setCode (startCode fault)
    stop (.exited (startCode fault))
  match programNamed shelf state.tree state.folders name with
  | .error fault => refused fault
  | .ok (_, program) =>
    match ← start program words with
    | .ok status =>
      modify fun state => { state with traps := state.traps.filter (·.1 ≠ 0) }
      stop status
    | .error fault => refused fault

/-- Ends a round of a loop: whether there may be another one. -/
def closeRound : Run Bool := do
  let state ← get
  match state.flow with
  | .on => return true
  | .nextRound n =>
    set { state with flow := if n ≤ 1 then .on else .nextRound (n - 1) }
    return n ≤ 1
  | .leaveLoops n =>
    set { state with flow := if n ≤ 1 then .on else .leaveLoops (n - 1) }
    return false
  | _ => return false

def isOver : Run Bool := do
  match (← get).flow with
  | .failed | .ended _ => return true
  | _ => return false

end Run

def State.status (state : State) : Status :=
  match state.flow with
  | .ended status => status
  | _ => .exited (state.code % 256)

/-- The state of a new shell inside of another one.  Only signals that are ignored stay so. -/
def State.nested (state : State) : State :=
  { state with
    level := state.level + 1
    traps := state.traps.filter (·.2 = "")
    rootTraps := if state.level = 0 then state.traps else state.rootTraps
    jobs := [] }

def State.behind (before inner : State) : State :=
  let isEnded := before.level = 0 && inner.rootSignal.isSome
  { before with
    tree := { inner.tree with working := before.tree.working }
    streams := inner.streams
    nextStream := inner.nextStream
    texts := inner.texts
    pending := inner.pending
    rootSignal := inner.rootSignal
    flow := if isEnded then .ended (.killed (inner.rootSignal.getD 0)) else .on }

/-- A command as it was started: the words that were given, those that are run, whether functions are left out, the
folders for the program if they are others, and whether the first command of the shell among them is special. -/
structure Invocation where
  words : List String
  skipsFunctions : Bool := false
  folders : Option String := none
  isSpecial : Option Bool := none

namespace Invocation

/-- The words behind `command` that are run, and whether the usual folders are searched.  There are none if it only
says something about names. -/
def behindCommand : (isUsual : Bool) → List String → Option (Bool × List String)
  | _, [] => none
  | isUsual, word :: rest =>
    match word.toList with
    | ['-', '-'] => if rest.isEmpty then none else some (isUsual, rest)
    | '-' :: letter :: letters =>
      if (letter :: letters).all (· = 'p') then behindCommand true rest else none
    | _ => some (isUsual, word :: rest)

def resolve (isFunction : String → Bool) : (rounds : Nat) → Invocation → Invocation
  | 0, invocation => invocation
  | rounds + 1, invocation =>
    match invocation.words with
    | [] => invocation
    | name :: rest =>
      if (!invocation.skipsFunctions && isFunction name) || !isBuiltin name then invocation
      else
        let isSpecial := invocation.isSpecial <|> some (Reader.specialNames.contains name)
        match (if name = "command" then behindCommand false rest else none) with
        | some (isUsual, words) =>
          resolve isFunction rounds {
            words
            skipsFunctions := true
            folders := if isUsual then some usualFolders else invocation.folders
            isSpecial }
        | none => { invocation with isSpecial }

def of (state : State) (words : List String) : Invocation :=
  resolve (fun name => (state.functions.lookup name).isSome) (words.length + 1) { words }

def assigns (state : State) (invocation : Invocation) : Bool :=
  match invocation.words with
  | [] => false
  | name :: _ =>
    let isFunction := !invocation.skipsFunctions && (state.functions.lookup name).isSome
    !isFunction && ["alias", "export", "local", "readonly"].contains name

end Invocation

end Offside.Tool.Shell
