import Offside.Tool.Shell.Builtin.Variables

/-!
# Signals and jobs

The commands of the shell for signals, for what is done when they come, and for commands in the background.
-/

namespace Offside.Tool.Shell.Builtin

/-- The names of the signals in the order of their numbers.  Zero stands for the end of the shell. -/
def signalNames : List String :=
  ["EXIT", "HUP", "INT", "QUIT", "ILL", "TRAP", "ABRT", "BUS", "FPE", "KILL", "USR1", "SEGV", "USR2", "PIPE", "ALRM",
    "TERM", "16", "CHLD", "CONT", "STOP", "TSTP", "TTIN", "TTOU", "URG", "XCPU", "XFSZ", "VTALRM", "PROF", "WINCH",
    "IO", "PWR", "SYS", "32", "33", "RTMIN"]
    ++ ((List.range 15).map fun n => s!"RTMIN+{n + 1}")
    ++ ((List.range 14).map fun n => s!"RTMAX-{14 - n}")
    ++ ["RTMAX"]

def signalNumber? (text : String) : Option Nat :=
  if text ≠ "" && text.toList.all Char.isDigit then (count? text).filter (· < signalNames.length) else none

/-- The number of a signal that is given by its number or its name, among the names from `least` on. -/
def signal? (least : Nat) (text : String) : Option Nat :=
  signalNumber? text <|>
    (List.range signalNames.length).find? fun n =>
      least ≤ n && (signalNames[n]?).any (·.toUpper = text.toUpper)

def trap (words : List String) : Run Nat :=
  Run.withOptions [] words fun _ words => do
    match words with
    | [] =>
      let traps := (← get).traps
      for (name, n) in signalNames.zipIdx do
        if let some action := traps.lookup n then Run.out s!"trap -- {quoted action} {name}\n"
      return 0
    | first :: rest =>
      let (action, names) :=
        if rest.isEmpty || (signalNumber? first).isSome then (none, words)
        else (some first, rest)
      let action := if action = some "-" then none else action
      let mut code := 0
      for name in names do
        if code = 0 then
          match signal? 0 name with
          | none =>
            let _ ← Run.print 2 s!"trap: {name}: bad trap\n"
            code := 1
          | some signal =>
            modify fun state =>
              let others := state.traps.filter (·.1 ≠ signal)
              { state with traps := match action with
                  | some action => (signal, action) :: others
                  | none => others }
      return code

/-! ## Jobs -/

def job? (jobs : List Job) (name : Option String) (isOwn : Bool) : Except String Job :=
  let shown := name.getD "(null)"
  let found : Except String Job := match name.map String.toList with
    | none | some ['%'] | some ['%', '+'] | some ['%', '%'] =>
      match jobs with
      | job :: _ => .ok job
      | [] => .error "No current job"
    | some ['%', '-'] =>
      match jobs with
      | _ :: job :: _ => .ok job
      | _ => .error "No previous job"
    | some ('%' :: text) =>
      match jobs.find? fun job => toString job.number = String.ofList text with
      | some job => .ok job
      | none => .error s!"No such job: {shown}"
    | some _ => .error s!"No such job: {shown}"
  match found with
  | .ok job => if isOwn then .error s!"job {shown} not created under job control" else .ok job
  | .error fault => .error fault

/-- Uses the job that a word names.  It is a mistake if there is none. -/
def withJob (name : Option String) (isOwn : Bool) (use : Job → Run Nat) : Run Nat := do
  match job? (← get).jobs name isOwn with
  | .ok job => use job
  | .error fault =>
    Run.raise fault
    return 2

/-- Goes on with a job.  None can be, since no job has a terminal. -/
def resume (words : List String) : Run Nat :=
  Run.withOptions [] words fun _ words => withJob words.head? true fun _ => return 0

def Job.line (job : Job) (showsProcess : Bool) : String :=
  let process := if showsProcess then s!"{job.process} " else ""
  let state := if job.code = 0 then "Done" else s!"Done({job.code})"
  let text := s!"[{job.number}] + {process}{state}"
  text ++ String.ofList (List.replicate (33 - text.length) ' ') ++ "\n"

def jobs (words : List String) : Run Nat :=
  Run.withOptions [('l', false), ('p', false)] words fun options words => do
    let line (job : Job) : String :=
      match options.getLast?.map (·.1) with
      | some 'p' => s!"{job.process}\n"
      | some _ => Job.line job true
      | none => Job.line job false
    if words.isEmpty then
      let found := (← get).jobs
      Run.out (String.join (found.map line))
      modify ({ · with jobs := [] })
      return 0
    else
      for word in words do
        if ← Run.goesOn then
          let _ ← withJob (some word) false fun job => do
            Run.out (line job)
            modify fun state => { state with jobs := state.jobs.filter (·.number ≠ job.number) }
            return 0
      return 0

/-- Waits for jobs, which have all ended: only how they ended is still to be known. -/
def wait (words : List String) : Run Nat :=
  Run.withOptions [] words fun _ words => do
    let finish (isMeant : Job → Bool) : Run Unit := modify fun state =>
      { state with jobs := state.jobs.map fun job => if isMeant job then { job with isWaitedFor := true } else job }
    if words.isEmpty then
      finish fun _ => true
      return 0
    else
      let mut code := 127
      for word in words do
        if ← Run.goesOn then
          if word.toList.head? = some '%' then
            code ← withJob (some word) false fun job => do
              finish (·.number = job.number)
              return job.code
          else
            let before := code
            code ← withCount word fun process => do
              match (← get).jobs.find? (·.process = process) with
              | some job =>
                finish (·.number = job.number)
                return job.code
              | none => return before
      return code

/-! ## Sending signals -/

def idleSignals : List Nat := [0, 17, 18, 19, 20, 21, 22, 23, 28]

def sendToRoot (signal : Nat) : Run Unit := do
  let state ← get
  let traps := if state.level = 0 then state.traps else state.rootTraps
  if signal = 0 then pure ()
  else
    match (if signal = 9 then none else traps.lookup signal) with
    | some "" => pure ()
    | some _ => modify ({ · with pending := state.pending.filter (· ≠ signal) ++ [signal] })
    | none =>
      if idleSignals.contains signal then pure ()
      else if state.level = 0 then modify ({ · with flow := .ended (.killed signal) })
      else modify ({ · with rootSignal := some signal })

/-- Sends a signal to a process; `false` means that there is none. -/
def send (signal : Nat) (process : Nat) : Run Bool := do
  if process = ownProcess then
    sendToRoot signal
    return true
  else return (← get).jobs.any (·.process = process)

def killUsage : String :=
  "Usage: kill [-s sigspec | -signum | -sigspec] [pid | job]... or\nkill -l [exitstatus]"

def listSignals (words : List String) : Run Nat := do
  match words with
  | [] =>
    Run.out (String.join ("0\n" :: (signalNames.drop 1).map (· ++ "\n")))
    return 0
  | word :: _ =>
    withCount word fun number => do
      let signal := if 128 < number then number - 128 else number
      match (if signal = 0 then none else signalNames[signal]?) with
      | some name =>
        Run.out (name ++ "\n")
        return 0
      | none =>
        Run.raise s!"invalid signal number or exit status: {word}"
        return 2

def sendAll (signal : Nat) (words : List String) : Run Nat := do
  let mut code := 0
  for word in words do
    if ← Run.goesOn then
      let found ← match word.toList with
        | '%' :: _ => withJob (some word) false fun _ => return 0
        | '-' :: digits => withCount (String.ofList digits) fun _ => return 1
        | _ => withCount word fun process => do return if ← send signal process then 0 else 1
      if found = 1 then
        Run.report "No such process\n"
        code := 1
  return code

def kill (words : List String) : Run Nat := do
  let use (isList : Bool) (signal : Option Nat) (words : List String) : Run Nat := do
    if isList && signal.isNone then listSignals words
    else if isList || words.isEmpty then
      Run.raise killUsage
      return 2
    else sendAll (signal.getD 15) words
  match words with
  | [] =>
    Run.raise killUsage
    return 2
  | first :: rest =>
    match first.toList with
    | '-' :: text =>
      match signal? 1 (String.ofList text) with
      | some signal => use false (some signal) rest
      | none =>
        Run.withOptions [('l', false), ('s', true)] words fun options words => do
          let isList := options.any (·.1 = 'l')
          let bad := options.find? fun (letter, value) => letter = 's' && (signal? 1 value).isNone
          match bad with
          | some (_, value) =>
            Run.raise s!"invalid signal number or name: {value}"
            return 2
          | none =>
            let named := options.reverse.find? (·.1 = 's')
            use isList (named.bind fun (_, value) => signal? 1 value) words
    | _ => use false none words

end Offside.Tool.Shell.Builtin
