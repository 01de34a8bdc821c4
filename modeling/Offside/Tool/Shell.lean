import Offside.Tool.Shell.Process

/-!
# The shell

Runs scripts: words are replaced by what they stand for, channels are led elsewhere, and the commands of the shell
and other programs are run.
-/

namespace Offside.Tool.Shell

open Run (goesOn setCode raise assign)

/-- Items of a word inside of another one: what is not quoted in it is divided too. -/
def loosened (items : List Item) : List Item :=
  items.foldr
    (fun item found =>
      match item, found with
      | .glyph ⟨c, false⟩, .region false glyphs :: rest => .region false (⟨c, false⟩ :: glyphs) :: rest
      | .glyph ⟨c, false⟩, found => .region false [⟨c, false⟩] :: found
      | item, found => item :: found)
    []

/-- The number of bytes of a parameter.  Positional parameters have something between them. -/
def State.lengthOf (state : State) (isDivided inDouble : Bool) (name value : String) : Nat :=
  let isBroken := isDivided && (name = "@" || (name = "*" && !inDouble))
  if isBroken then state.positional.foldr (·.length + ·) 0 + (state.positional.length - 1) else value.length

/-- The output of a command as a text: without the lines that end it. -/
def outputText (bytes : Bytes) : String :=
  let text := bytes.reverse.dropWhile fun byte => byte = 10 || byte = 0
  ofBytes (text.reverse.filter (· ≠ 0))

def State.freeJobNumber (state : State) : Nat :=
  ((List.range (state.jobs.length + 1)).map (· + 1)).find? (fun n => !state.jobs.any (·.number = n)) |>.getD 1

def Command.isChecked : Command → Bool
  | .simple _ _ _ _ | .subshell _ _ _ | .background _ _ _ | .pipe _ => true
  | _ => false

def Command.plainName? : Command → Option String
  | .simple _ _ (word :: _) _ => (Word.plain? word).bind fun name => if isName name then some (String.ofList name) else none
  | _ => none

def callLimit : Nat := 1000

/-- Ends a shell that stops on failures, if nothing depends on the command that failed. -/
def stopOnFailure (tested : Bool) : Run Unit := do
  let state ← get
  if !tested && state.code ≠ 0 && state.isOn "errexit" && !(← Run.isOver) then
    Run.stop (.exited (state.code % 256))

mutual

def expand (shelf : Shelf) : (depth : Nat) → (isDivided : Bool) → Word → Run (List Item)
  | 0, _, _ => return []
  | depth + 1, isDivided, word => do
    let mut found : List Item := []
    for part in word do
      match part with
      | .char c isQuoted => found := .glyph ⟨c, isQuoted⟩ :: found
      | .quotation => found := .quotation :: found
      | part => if ← goesOn then found := (← expandPart shelf depth isDivided part).reverse ++ found
    return found.reverse

def expandPart (shelf : Shelf) : (depth : Nat) → (isDivided : Bool) → Part → Run (List Item)
  | 0, _, _ => return []
  | depth + 1, isDivided, part => do
    match part with
    | .char c isQuoted => return [.glyph ⟨c, isQuoted⟩]
    | .quotation => return [.quotation]
    | .parameter name use inDouble => expandParameter shelf depth isDivided name use inDouble
    | .output none _ =>
      modify ({ · with substituted := 0 })
      return []
    | .output (some body) inDouble =>
      let before ← get
      let bytes ← Run.capture (inside shelf depth (runCommand shelf depth false body))
      modify fun after => { after with code := before.code, substituted := after.code }
      return replaced inDouble (outputText bytes)
    | .arithmetic text inDouble =>
      let text := textOf (glyphsOf (← expand shelf depth false text))
      let state ← get
      if !(← goesOn) then return []
      let table : Arithmetic.Table := {
        value? := state.value?
        isFixed := fun name => (state.binding? name).any (·.isFixed) }
      match Arithmetic.evaluate table text.toList with
      | .ok (value, assignments) =>
        for (name, value) in assignments.reverse do
          assign name value
        return replaced inDouble (toString value)
      | .error fault =>
        if fault.isOfVariable then raise fault.message
        else raise s!"arithmetic expression: {fault.message}: \"{text}\""
        return []

def expandParameter (shelf : Shelf) :
    (depth : Nat) → (isDivided : Bool) → (name : String) → Use → (inDouble : Bool) → Run (List Item)
  | 0, _, _, _, _ => return []
  | depth + 1, isDivided, name, use, inDouble => do
    let state ← get
    let value := state.parameter? name
    let known := state.items isDivided inDouble name (value.getD "")
    let checked (found : List Item) : Run (List Item) := do
      if value.isNone && state.isOn "nounset" then
        raise s!"{name}: parameter not set"
        return []
      else return found
    match use with
    | .unknown =>
      raise "Bad substitution"
      return []
    | .value => checked (if value.isSome then known else [])
    | .length =>
      let length := match value with
        | some value => state.lengthOf isDivided inDouble name value
        | none => 0
      checked (replaced inDouble (toString length))
    | .operated operator mindsEmpty word =>
      let isMissing := value.isNone || (mindsEmpty && value = some "")
      match operator with
      | .orElse =>
        if isMissing then return loosened (← expand shelf depth isDivided (state.atHome false word))
        else return known
      | .insteadOf =>
        if isMissing then return []
        else return loosened (← expand shelf depth isDivided (state.atHome false word))
      | .orAssign =>
        if !isMissing then return known
        let text := textOf (glyphsOf (← expand shelf depth false (state.atHome false word)))
        if ← goesOn then assign name text
        return (← get).items isDivided inDouble name text
      | .orFail =>
        if !isMissing then return known
        let text := textOf (glyphsOf (← expand shelf depth false (state.atHome false word)))
        let reason :=
          if !word.isEmpty then text
          else if mindsEmpty then "parameter not set or null"
          else "parameter not set"
        if ← goesOn then raise s!"{name}: {reason}"
        return []
      | .cut atEnd isLongest =>
        if value.isNone then checked []
        else
          let pattern := glyphsOf (← expand shelf depth false (state.atHome false word))
          let cut (texts : List String) : List String :=
            (Glob.cut pattern atEnd isLongest (texts.map String.toList)).map String.ofList
          if state.isBroken isDivided inDouble name then return brokenItems inDouble (cut state.positional)
          else return replaced inDouble (String.join (cut [value.getD ""]))

def glyphsOfWord (shelf : Shelf) : (depth : Nat) → Word → Run (List Glyph)
  | 0, _ => return []
  | depth + 1, word => do return glyphsOf (← expand shelf depth false ((← get).atHome false word))

def valueText (shelf : Shelf) : (depth : Nat) → Word → Run String
  | 0, _ => return ""
  | depth + 1, word => do
    return textOf (glyphsOf (← expand shelf depth false ((← get).atHomes (word.length + 1) word)))

def fieldsOfWord (shelf : Shelf) : (depth : Nat) → Word → Run (List String)
  | 0, _ => return []
  | depth + 1, word => do
    let items ← expand shelf depth true ((← get).atHome false word)
    let state ← get
    let fields := fieldsOf state.separators items
    return if state.isOn "noglob" then fields.map textOf else fields.flatMap (Glob.expand state.tree)

def fieldsOfWords (shelf : Shelf) : (depth : Nat) → List Word → Run (List String)
  | 0, _ => return []
  | depth + 1, words => do
    let mut found : List String := []
    for word in words do
      if ← goesOn then found := (← fieldsOfWord shelf depth word).reverse ++ found
    return found.reverse

/-- The fields of the words of a command.  Some commands take words for assignments. -/
def fieldsOfCommand (shelf : Shelf) : (depth : Nat) → List Word → Run (List String)
  | 0, _ => return []
  | depth + 1, words => do
    let mut found : Array String := #[]
    for word in words do
      if ← goesOn then
        let state ← get
        match (if (Invocation.of state found.toList).assigns state then Word.assignment? word else none) with
        | some (name, value) => found := found.push (name ++ "=" ++ (← valueText shelf depth value))
        | none => found := found ++ (← fieldsOfWord shelf depth word)
    return found.toList

/-- Redirections with the texts of their targets.  Texts that stand in the script are not replaced yet. -/
def targetsOf (shelf : Shelf) : (depth : Nat) → List Redirection → Run (List (Redirection × String))
  | 0, _ => return []
  | depth + 1, redirections => do
    let mut found : List (Redirection × String) := []
    for redirection in redirections do
      if ← goesOn then found := (redirection, textOf (← glyphsOfWord shelf depth redirection.target)) :: found
    return found.reverse

/-- Applies redirections in their order up to one that fails; `false` means that one did.  A text in the script fails if
something in it cannot be replaced. -/
def redirectAll (shelf : Shelf) : (depth : Nat) → List (Redirection × String) → Run Bool
  | 0, _ => return false
  | _, [] => return true
  | depth + 1, (redirection, target) :: rest => do
    let isLed ← match redirection.direction with
      | .hereText index => do
        let word := ((← get).texts[index]?).getD []
        let text := textOf (glyphsOf (← expand shelf depth false word))
        if (← get).flow = .failed then
          modify ({ · with flow := .on })
          pure false
        else Run.redirect redirection text
      | _ => Run.redirect redirection target
    if isLed then redirectAll shelf depth rest else return false

def trace (shelf : Shelf) : (depth : Nat) → (before : State) → (words : List String) → Run Unit
  | 0, _, _ => pure ()
  | depth + 1, before, words => do
    let state ← get
    if state.isOn "xtrace" && !state.isTracing then
      let text := ((state.value? "PS4").getD "").toList
      let start ← match (Reader.parts (text.length + 1) (.text [] false false)).run { rest := text } with
        | .ok (parts, _) => do
          modify ({ · with isTracing := true })
          let items ← expand shelf depth false parts
          modify ({ · with isTracing := false })
          pure (textOf (glyphsOf items))
        | .error _ => pure (String.ofList text)
      modify (·.lead 2 (before.channels.lookup 2))
      let _ ← Run.print 2 (start ++ " ".intercalate words ++ "\n")
      modify (·.lead 2 (state.channels.lookup 2))

def inside (shelf : Shelf) : (depth : Nat) → Run Unit → Run Unit
  | 0, _ => pure ()
  | depth + 1, run => do
    Run.replaceJob
    let before ← get
    set before.nested
    run
    finish shelf depth
    let inner ← get
    set (before.behind inner)
    Run.conclude inner.status

/-- Ends a shell: what was to be done at the end is done. -/
def finish (shelf : Shelf) : (depth : Nat) → Run Unit
  | 0 => pure ()
  | depth + 1 => do
    let state ← get
    match state.status, (state.traps.lookup 0).filter (· ≠ "") with
    | .exited code, some action =>
      set { state with
        flow := .on, code, savedCode := some code, loops := 0, traps := state.traps.filter (·.1 ≠ 0) }
      let _ ← runText shelf depth false action.toList
      modify fun after =>
        match after.flow with
        | .ended _ => after
        | .failed => { after with flow := .ended (.exited after.code) }
        | _ => { after with flow := .ended (.exited code) }
    | _, _ => pure ()

def runTraps (shelf : Shelf) : (depth : Nat) → Run Unit
  | 0 => pure ()
  | depth + 1 => do
    let state ← get
    if !state.pending.isEmpty && state.level = 0 && state.flow = .on then
      let code := state.savedCode.getD state.code
      set { state with pending := [], savedCode := some code }
      for signal in state.pending.mergeSort (· ≤ ·) do
        if ← goesOn then
          if let some action := (← get).traps.lookup signal then
            let _ ← runText shelf depth false action.toList
            let flow := (← get).flow
            if !(flow = .leaveFunction || (← Run.isOver)) then setCode code
        else modify fun after => { after with pending := after.pending ++ [signal] }
      modify ({ · with savedCode := state.savedCode })

def call (shelf : Shelf) : (depth : Nat) → (tested : Bool) → Command → List String → Run Unit
  | 0, _, _, _ => pure ()
  | depth + 1, tested, body, arguments => do
    let before ← get
    if callLimit ≤ before.calls then raise s!"Maximum function recursion depth ({callLimit}) reached"
    else
      set { before with positional := arguments, scan := {}, loops := 0, calls := before.calls + 1 }
      runCommand shelf depth tested body
    modify fun after => { after with
      positional := before.positional
      scan := before.scan
      loops := before.loops
      calls := before.calls
      flow := if after.flow = .leaveFunction then .on else after.flow }

/-- Runs the lines of a file.  Leaving a function leaves the file. -/
def runFile (shelf : Shelf) : (depth : Nat) → List String → Run Nat
  | 0, _ => return 0
  | depth + 1, words =>
    Run.withOptions [] words fun _ words => do
      match words with
      | [] => return 0
      | name :: _ =>
        let state ← get
        let path? := if name.toList.contains '/' then some name
          else ((colonParts state.folders).map (joinedPath · name)).find? fun path =>
            state.tree.isFile ⟨readable path⟩
        match path? with
        | none =>
          raise s!"{name}: not found"
          return 2
        | some path =>
          let run (content : Bytes) : Run Nat := do
            modify ({ · with speaker := some path })
            let hasRun ← runText shelf depth false (ofBytes content).toList
            modify fun after =>
              { after with flow := if after.flow = .leaveFunction then .on else after.flow }
            let after ← get
            return if hasRun then after.code else 0
          match state.tree.readBytes ⟨readable path⟩ with
          | .ok content => run content.toList
          | .error .isFolder => run []
          | .error fault =>
            raise s!"cannot open {path}: {openFault fault}"
            return 2

def runBuiltin (shelf : Shelf) : (depth : Nat) → (tested : Bool) → Invocation → Run Unit
  | 0, _, _ => pure ()
  | depth + 1, tested, invocation => do
    let name := invocation.words.headD ""
    let arguments := invocation.words.drop 1
    let before ← get
    modify ({ · with speaker := some name, hasWriteFault := false })
    let code ← match name with
      | "eval" => do
        let hasRun ← runText shelf depth tested (" ".intercalate arguments).toList
        let after ← get
        pure (if hasRun then after.code else 0)
      | "exec" => do
        if !arguments.isEmpty then Run.becomeProgram shelf arguments
        pure 0
      | "." => runFile shelf depth arguments
      | "command" =>
        Run.withOptions [('p', false), ('v', false), ('V', false)] arguments fun options names => do
          match names.head? with
          | none => return 0
          | some name =>
            let folders := if options.any (·.1 = 'p') then some usualFolders else none
            let isVerbose := options.any (·.1 = 'V')
            match ← Run.describe shelf folders isVerbose name with
            | some text =>
              Run.out (text ++ "\n")
              return 0
            | none =>
              if isVerbose then Run.out s!"{name}: not found\n"
              return 127
      | name =>
        match Builtin.find? shelf name with
        | some run => run arguments
        | none => pure 127
    let after ← get
    if after.flow = .failed then
      if invocation.isSpecial = some false then modify ({ · with flow := .on, code := 2 })
    else if !(← Run.isOver) then
      if after.hasWriteFault then
        Run.report s!"{name}: I/O error"
        setCode (code ||| 1)
      else setCode code
    modify ({ · with speaker := before.speaker, hasWriteFault := false })

def runWords (shelf : Shelf) : (depth : Nat) → (tested : Bool) → Invocation → Run Unit
  | 0, _, _ => pure ()
  | depth + 1, tested, invocation => do
    match invocation.words with
    | [] => setCode (← get).substituted
    | name :: arguments =>
      let state ← get
      match (if invocation.skipsFunctions then none else state.functions.lookup name) with
      | some body => call shelf depth tested body arguments
      | none =>
        if isBuiltin name then runBuiltin shelf depth tested invocation
        else Run.runProgram shelf invocation.folders invocation.words

/-- Runs a simple command: its words are replaced, then its channels are led elsewhere, then its assignments are made,
which last only as long as the command unless it is special. -/
def runSimple (shelf : Shelf) : (depth : Nat) → (tested : Bool) → (line : Nat) → List (String × Word) → List Word →
    List Redirection → Run Unit
  | 0, _, _, _, _, _ => pure ()
  | depth + 1, tested, line, assignments, words, redirections => do
    modify ({ · with line, substituted := 0 })
    let fields ← fieldsOfCommand shelf depth words
    let targets ← targetsOf shelf depth redirections
    if ← goesOn then
      let before ← get
      let invocation := Invocation.of before fields
      let isSpecial := invocation.isSpecial = some true
      let isScoped := !fields.isEmpty && !isSpecial
      let isExec := invocation.words.head? = some "exec"
      if isScoped then modify fun state => { state with scopes := [] :: state.scopes }
      if ← redirectAll shelf depth targets then
        let mut shown : List String := []
        for (name, word) in assignments do
          if ← goesOn then
            let value ← valueText shelf depth word
            if ← goesOn then
              if isScoped then Run.saveBinding name
              assign name value (isScoped || (isExec && 1 < invocation.words.length))
              shown := s!"{name}={value}" :: shown
        if ← goesOn then
          trace shelf depth before (shown.reverse ++ fields)
          runWords shelf depth tested invocation
      else if isSpecial then modify ({ · with flow := .failed })
      if !(isExec && (← goesOn)) then Run.restoreChannels before redirections
      if isScoped then modify State.leaveScope

def runStages (shelf : Shelf) : (depth : Nat) → (tested : Bool) → List Command → Run Unit
  | 0, _, _ | _, _, [] => pure ()
  | depth + 1, tested, [stage] => inside shelf depth (runCommand shelf depth tested stage)
  | depth + 1, tested, stage :: rest => do
    let before ← get
    let bytes ← Run.capture (inside shelf depth (runCommand shelf depth tested stage))
    if ← goesOn then
      setCode before.code
      Run.withInput bytes (runStages shelf depth tested rest)

def runCases (shelf : Shelf) : (depth : Nat) → (tested : Bool) → (text : List Char) →
    List (List Word × Option Command) → Run Unit
  | 0, _, _, _ => pure ()
  | _, _, _, [] => setCode 0
  | depth + 1, tested, text, (patterns, body) :: rest => do
    let mut isCovered := false
    for pattern in patterns do
      if !isCovered && (← goesOn) then
        let glyphs ← glyphsOfWord shelf depth pattern
        isCovered := Glob.covers (Glob.parse glyphs) text
    if ← goesOn then
      if isCovered then
        match body with
        | some body => runCommand shelf depth tested body
        | none => setCode 0
      else runCases shelf depth tested text rest

def runCommand (shelf : Shelf) : (depth : Nat) → (tested : Bool) → Command → Run Unit
  | 0, _, _ => pure ()
  | depth + 1, tested, command => do
    if !(← get).isOn "noexec" then
      runTraps shelf depth
      if ← goesOn then runKind shelf depth tested command
      runTraps shelf depth
      if command.isChecked then stopOnFailure tested

def runKind (shelf : Shelf) : (depth : Nat) → (tested : Bool) → Command → Run Unit
  | 0, _, _ => pure ()
  | depth + 1, tested, command => do
    match command with
    | .simple line assignments words redirections =>
      runSimple shelf depth tested line assignments words redirections
    | .redirected line body redirections =>
      modify ({ · with line })
      let targets ← targetsOf shelf depth redirections
      if ← goesOn then
        let before ← get
        let isLed ← redirectAll shelf depth targets
        if isLed then runCommand shelf depth tested body
        Run.restoreChannels before redirections
        if !isLed then stopOnFailure tested
    | .pipe stages =>
      for stage in stages do
        if let some name := stage.plainName? then
          if !(isBuiltin name || ((← get).functions.lookup name).isSome) then
            let _ ← Run.remember shelf name
      runStages shelf depth tested stages
    | .opposite body =>
      runCommand shelf depth true body
      if ← goesOn then setCode (if (← get).code = 0 then 1 else 0)
    | .sequence first second =>
      runCommand shelf depth tested first
      if ← goesOn then runCommand shelf depth tested second
    | .both first second =>
      runCommand shelf depth true first
      if (← goesOn) && (← get).code = 0 then runCommand shelf depth tested second
    | .either first second =>
      runCommand shelf depth true first
      if (← goesOn) && (← get).code ≠ 0 then runCommand shelf depth tested second
    | .background line body redirections =>
      modify ({ · with line })
      let targets ← targetsOf shelf depth redirections
      if ← goesOn then
        Run.replaceJob
        let before ← get
        let process := before.lastProcess.getD ownProcess + 1
        Run.withInput [] (inside shelf depth (do
          if ← redirectAll shelf depth targets then runCommand shelf depth false body))
        modify fun after => { after with
          code := 0
          lastProcess := some process
          jobs := { number := before.freeJobNumber, process, code := after.code } :: after.jobs }
    | .subshell line body redirections =>
      modify ({ · with line })
      let targets ← targetsOf shelf depth redirections
      if ← goesOn then
        let before ← get
        inside shelf depth (do
          if ← redirectAll shelf depth targets then runCommand shelf depth tested body)
        modify (·.closeStreams before.nextStream)
    | .branch condition yes no =>
      runCommand shelf depth true condition
      if ← goesOn then
        if (← get).code = 0 then runCommand shelf depth tested yes
        else
          match no with
          | some no => runCommand shelf depth tested no
          | none => setCode 0
    | .loop isUntil condition body =>
      modify fun state => { state with loops := state.loops + 1 }
      runLoop shelf depth tested isUntil condition body 0
      modify fun state => { state with loops := state.loops - 1 }
    | .forEach line name words body =>
      modify ({ · with line })
      let values ← fieldsOfWords shelf depth words
      if ← goesOn then
        modify fun state => { state with loops := state.loops + 1 }
        if values.isEmpty then setCode 0
        let mut isOpen := true
        for value in values do
          if isOpen then
            assign name value
            if ← goesOn then runCommand shelf depth tested body
            isOpen ← Run.closeRound
        modify fun state => { state with loops := state.loops - 1 }
    | .choose line word cases =>
      modify ({ · with line })
      let text := textOf (← glyphsOfWord shelf depth word)
      if ← goesOn then runCases shelf depth tested text.toList cases
    | .define name body =>
      modify fun state => { state with
        functions := (name, body) :: state.functions.filter (·.1 ≠ name)
        code := 0 }

/-- Runs rounds of a loop.  `code` is how the round before ended. -/
def runLoop (shelf : Shelf) : (depth : Nat) → (tested isUntil : Bool) → (condition body : Command) → (code : Nat) →
    Run Unit
  | 0, _, _, _, _, _ => pure ()
  | depth + 1, tested, isUntil, condition, body, code => do
    runCommand shelf depth true condition
    let state ← get
    if state.flow = .on then
      if (state.code = 0) != isUntil then
        runCommand shelf depth tested body
        let code := (← get).code
        if ← Run.closeRound then runLoop shelf depth tested isUntil condition body code
      else setCode code
    else if ← Run.closeRound then runLoop shelf depth tested isUntil condition body code
    else if state.flow ≠ .leaveFunction && !(← Run.isOver) then setCode code

/-- Runs the lines of a script one after another: whether there was a command among them. -/
def runLines (shelf : Shelf) : (depth : Nat) → (tested hasRun : Bool) → Source → Run Bool
  | 0, _, hasRun, _ => return hasRun
  | depth + 1, tested, hasRun, source => do
    let state ← get
    if state.flow ≠ .on then return hasRun
    else
      match Reader.nextLine.run { source with texts := state.texts, aliases := state.aliases } with
      | .error complaint =>
        modify ({ · with line := complaint.line })
        raise s!"Syntax error: {complaint.mistake.message}"
        return hasRun
      | .ok (.finish, _) => return hasRun
      | .ok (.empty, rest) =>
        modify ({ · with texts := rest.texts })
        runLines shelf depth tested hasRun rest
      | .ok (.command command, rest) =>
        modify ({ · with texts := rest.texts })
        runCommand shelf depth tested command
        runLines shelf depth tested true rest

/-- Runs the text of a script: whether there was a command in it. -/
def runText (shelf : Shelf) : (depth : Nat) → (tested : Bool) → List Char → Run Bool
  | 0, _, _ => return false
  | depth + 1, tested, text => do
    let before ← get
    let hasRun ← runLines shelf depth tested false { rest := text }
    modify ({ · with line := before.line })
    return hasRun

end

def depthLimit : Nat := 100000000

def startTable (environment : Environment) (folder : String) : List Variable :=
  let given := environment.filterMap fun (name, value) =>
    if isName name.toList && name ≠ "IFS" && name ≠ "OPTIND" && name ≠ "PPID" && name ≠ "PWD" then
      some { name, value := some (bytewise value), isExported := true : Variable }
    else none
  let own : List (String × String) :=
    [("IFS", " \t\n"), ("OPTIND", "1"), ("PATH", usualFolders), ("PPID", toString (ownProcess - 1)), ("PS1", "# "),
      ("PS2", "> "), ("PS4", "+ ")]
  let missing := own.filter fun (name, _) => !given.any (·.name = name)
  { name := "PWD", value := some folder, isExported := true } :: given
    ++ missing.map fun (name, value) => { name, value := some value }

def State.start (launch : Launch) (switches : List String) (name : String) (positional : List String) : State :=
  let tree := launch.tree
  let working := Builtin.pathOf tree.working
  let folder := match launch.environment.lookup "PWD" with
    | some path =>
      match FileTree.startsAtRoot path, tree.find .visit ⟨path⟩ with
      | true, .ok (location, .folder) => if location = tree.working then bytewise path else working
      | _, _ => working
    | none => working
  let source : Stream := match launch.inlet.place with
    | some (location, position) => .file location position false
    | none => .source launch.input
  let sink : Stream := match launch.outletFault with
    | some .noSpace => .file ["dev", "full"] 0 false
    | _ => .collector []
  let isClosed (channel : Nat) : Bool :=
    (channel = 0 && launch.inlet.fault = some .closed) || (channel = 1 && launch.outletFault = some .closed)
  { tree, name, positional, switches, folder
    table := startTable launch.environment folder
    channels := [(0, 0), (1, 1), (2, 2)].filter fun (channel, _) => !isClosed channel
    streams := [(0, source), (1, sink), (2, .collector [])] }

def State.outcome (state : State) : Outcome where
  status := state.status
  output := state.collected 1
  errors := state.collected 2
  unread := ((state.streams.lookup 0).map state.contentOf).getD []

def interpret (shelf : Shelf) (start : State) (text : List Char) : Outcome × FileTree :=
  let run : Run Unit := do
    if start.isOn "monitor" || start.isOn "interactive" then
      modify fun state => { state with line := 0, switches := state.switches.filter (· ≠ "monitor") }
      Run.report "can't access tty; job control turned off"
    let _ ← runText shelf depthLimit false text
    finish shelf depthLimit
  let (_, state) := run.run start
  (state.outcome, { state.tree with working := start.tree.working })

/-- The program.  Without a script it takes its input for one. -/
def run (shelf : Shelf) : Program := fun launch =>
  let words := launch.arguments.map bytewise
  let call := Switching.read true (words.length + 1) { switches := [], words }
  let refused (message : String) : Outcome × FileTree := (refuse 2 s!"sh: 0: {message}\n" launch.input, launch.tree)
  match call.fault with
  | some fault => refused fault
  | none =>
    match call.takesText, call.words with
    | true, [] => refused "-c requires an argument"
    | true, script :: rest =>
      interpret shelf (State.start launch call.switches (rest.headD "sh") (rest.drop 1)) script.toList
    | false, words =>
      if words.isEmpty || call.switches.contains "stdin" then
        let switches := "stdin" :: call.switches.filter (· ≠ "stdin")
        let started := State.start { launch with inlet := {} } switches "sh" words
        interpret shelf started (ofBytes launch.input).toList
      else
        let name := words.headD ""
        let started := State.start launch call.switches name (words.drop 1)
        match launch.tree.readBytes ⟨readable name⟩ with
        | .ok content => interpret shelf started (ofBytes content.toList).toList
        | .error .isFolder => interpret shelf started []
        | .error fault => refused s!"cannot open {readable name}: {openFault fault}"

end Offside.Tool.Shell
