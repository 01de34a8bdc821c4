import Offside.Tool.Shell.Lookup

/-!
# Variables

The commands of the shell for variables, positional parameters, switches and short names.
-/

namespace Offside.Tool.Shell.Builtin

def assignmentOf (word : String) : String × Option String :=
  let name := word.toList.takeWhile (· ≠ '=')
  let rest := word.toList.drop name.length
  (String.ofList name, if rest.isEmpty then none else some (String.ofList (rest.drop 1)))

def onEach (words : List String) (use : String → Run Unit) : Run Unit := do
  for word in words do
    if ← Run.goesOn then use word

def listing (start : String) (table : List Variable) : String :=
  String.join ((table.mergeSort fun a b => a.name ≤ b.name).map fun found =>
    let value := match found.value with
      | some value => "=" ++ quoted value
      | none => ""
    s!"{start}{found.name}{value}\n")

def mark (command : String) (isMarked : Variable → Bool) (change : Variable → Variable) (words : List String) :
    Run Nat := do
  let lists := match words.head?.map String.toList with
    | some ('-' :: 'p' :: _) => true
    | _ => false
  if lists then list
  else
    Run.withOptions [('p', false)] words fun _ words => do
      if words.isEmpty then list
      else
        onEach words fun word => do
          let (name, value) := assignmentOf word
          let isKnown := ((← get).binding? name).isSome
          match value with
          | some value =>
            Run.assign name value
            if ← Run.goesOn then Run.update name change
          | none =>
            if isKnown then Run.update name change
            else if ← Run.mayChange name then Run.update name change
        return 0
where
  list : Run Nat := do
    Run.out (listing (command ++ " ") ((← get).table.filter isMarked))
    return 0

def handOver : List String → Run Nat := mark "export" (·.isExported) ({ · with isExported := true })

def protect : List String → Run Nat := mark "readonly" (·.isFixed) ({ · with isFixed := true })

/-- Makes variables those of a function.  A dash stands for the switches. -/
def localize (words : List String) : Run Nat := do
  if (← get).scopes.isEmpty then
    Run.raise "not in a function"
    return 2
  else
    onEach words fun word => do
      if word = "-" then Run.save (.switches (← get).switches)
      else
        let (name, value) := assignmentOf word
        let before := (← get).binding? name
        match value with
        | some value =>
          Run.saveBinding name
          Run.assign name value
        | none =>
          if before.isSome then Run.saveBinding name
          else if ← Run.mayChange name then
            Run.saveBinding name
            Run.update name id
    return 0

def unset (words : List String) : Run Nat :=
  Run.withOptions [('v', false), ('f', false)] words fun options words => do
    if (options.getLast?.map (·.1)) = some 'f' then
      modify fun state => { state with functions := state.functions.filter fun (name, _) => !words.contains name }
    else onEach words Run.unset
    return 0

def configure (words : List String) : Run Nat := do
  if words.isEmpty then
    Run.out (listing "" ((← get).table.filter (·.value.isSome)))
    return 0
  else
    let switching := Switching.read false (words.length + 1) { switches := (← get).switches, words }
    let isWatched := switching.switches.contains "monitor"
    modify ({ · with switches := switching.switches.filter (· ≠ "monitor") })
    for isTable in switching.listings do
      Run.out ((← get).switchListing isTable)
    if let some fault := switching.fault then
      Run.raise fault
      return 2
    else
      if isWatched then Run.report "can't access tty; job control turned off"
      if switching.clears || !switching.words.isEmpty then
        modify ({ · with positional := switching.words, scan := {} })
      return 0

def count? (text : String) : Option Nat :=
  match wholeNumber? (some 10) text with
  | some value => if 0 ≤ value && value < 2147483648 then some value.toNat else none
  | none => none

/-- Uses a word as a number.  It is a mistake if it is none. -/
def withCount (text : String) (use : Nat → Run Nat) : Run Nat := do
  match count? text with
  | some count => use count
  | none =>
    Run.raise s!"Illegal number: {text}"
    return 2

def shift (words : List String) : Run Nat :=
  withCount (words.headD "1") fun count => do
    let state ← get
    if state.positional.length < count then
      Run.raise "can't shift that many"
      return 2
    else
      modify ({ · with positional := state.positional.drop count, scan := {} })
      return 0

/-! ## Options of a script -/

def expected? (letter : Char) : List Char → Option (List Char)
  | [] => none
  | c :: rest =>
    if c = letter then some rest
    else
      match rest with
      | ':' :: behind => expected? letter behind
      | rest => expected? letter rest

/-- An option that was found: its letter, what is left of its word, and how many words were used. -/
structure FoundOption where
  letter : Char
  rest : Option (List Char)
  used : Nat

def nextOption? (scan : Scan) (words : List String) : Option FoundOption × Nat :=
  let used := scan.index - 1
  let rest := match scan.offset with
    | some offset => if 0 < used then ((words[used - 1]?).getD "").toList.drop offset else []
    | none => []
  match rest with
  | letter :: rest => (some { letter, rest := some rest, used }, used)
  | [] =>
    match (words[used]?).map String.toList with
    | some ['-', '-'] => (none, used + 1)
    | some ('-' :: letter :: rest) => (some { letter, rest := some rest, used := used + 1 }, used + 1)
    | _ => (none, used)

/-- Takes the next option from words: the value that the variable gets, and how many words were used. -/
def takeOption (letters : List Char) (words : List String) (found : FoundOption) : Run (Char × FoundOption) := do
  let isQuiet := letters.head? = some ':'
  let complain (message : String) (quietly : Char) : Run Char := do
    if isQuiet then
      Run.assign "OPTARG" found.letter.toString
      return quietly
    else
      let _ ← Run.print 2 (message ++ "\n")
      Run.unset "OPTARG"
      return '?'
  match expected? found.letter letters with
  | none => return (← complain (OptionFault.unknown found.letter).message '?', found)
  | some (':' :: _) =>
    match found.rest, words[found.used]? with
    | some (c :: rest), _ =>
      Run.assign "OPTARG" (String.ofList (c :: rest))
      return (found.letter, { found with rest := none })
    | _, some word =>
      Run.assign "OPTARG" word
      return (found.letter, { found with rest := none, used := found.used + 1 })
    | _, none => return (← complain (OptionFault.noValue found.letter).message ':', { found with rest := none })
  | some _ =>
    Run.assign "OPTARG" ""
    return (found.letter, found)

def getopts (words : List String) : Run Nat := do
  match words with
  | letters :: name :: others =>
    let state ← get
    let words := if others.isEmpty then state.positional else others
    let scan : Scan := if words.length + 1 < state.scan.index then {} else state.scan
    let (found, used) := nextOption? scan words
    let (letter, used, offset, code) ← match found with
      | none => pure ('?', used, none, 1)
      | some found => do
        let (letter, found) ← takeOption letters.toList words found
        let offset := found.rest.map fun rest => ((words[found.used - 1]?).getD "").length - rest.length
        pure (letter, found.used, offset, 0)
    Run.assign "OPTIND" (toString (used + 1))
    Run.assign name letter.toString
    modify ({ · with scan := { index := used + 1, offset } })
    return code
  | _ =>
    Run.raise "Usage: getopts optstring var [arg]"
    return 2

/-! ## Short names -/

def noAlias (command name : String) : Run Unit := do
  let _ ← Run.print 2 s!"{command}: {name} not found\n"

def shorten (words : List String) : Run Nat := do
  let line (entry : String × String) : String := s!"{entry.1}={quoted entry.2}\n"
  if words.isEmpty then
    Run.out (String.join ((tableOrder 39 (← get).aliases).map line))
    return 0
  else
    let mut code := 0
    for word in words do
      let (start, rest) := (word.toList.take 1, (word.toList.drop 1).takeWhile (· ≠ '='))
      let name := String.ofList (start ++ rest)
      if name.length < word.length then
        let text := String.ofList (word.toList.drop (name.length + 1))
        modify fun state =>
          if (state.aliases.lookup name).isSome then
            { state with aliases := state.aliases.map fun (other, old) => (other, if other = name then text else old) }
          else { state with aliases := state.aliases ++ [(name, text)] }
      else
        match (← get).aliases.lookup name with
        | some text => Run.out (line (name, text))
        | none =>
          noAlias "alias" name
          code := 1
    return code

def unalias (words : List String) : Run Nat :=
  Run.withOptions [('a', false)] words fun options words => do
    if !options.isEmpty then
      modify ({ · with aliases := [] })
      return 0
    else
      let mut code := 0
      for name in words do
        if ((← get).aliases.lookup name).isNone then
          noAlias "unalias" name
          code := 1
        modify fun state => { state with aliases := state.aliases.filter (·.1 ≠ name) }
      return code

end Offside.Tool.Shell.Builtin
