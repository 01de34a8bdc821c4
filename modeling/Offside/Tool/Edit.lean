import Offside.Tool.Edit.Script

/-!
# Editing lines

The program that runs a script of commands on each line of its input.  A command may be limited to some lines, and
the lines are printed when the script is done with them.
-/

namespace Offside.Tool.Edit

/-! ## Printing -/

/-- What was printed, the last part first.  The end of a line may still be missing, also of one that a command wrote
to the output by its name. -/
structure Printed where
  parts : List Bytes := []
  isOpen : Bool := false
  isNamedOpen : Bool := false
deriving DecidableEq, Repr

namespace Printed

def raw (printed : Printed) (delimiter : UInt8) (text : Bytes) : Printed :=
  { printed with parts := (if printed.isOpen then delimiter :: text else text) :: printed.parts, isOpen := false }

def line (printed : Printed) (delimiter : UInt8) (text : Bytes) (ends : Bool) : Printed :=
  let printed := printed.raw delimiter text
  if ends then { printed with parts := [delimiter] :: printed.parts } else { printed with isOpen := true }

def namedLine (printed : Printed) (delimiter : UInt8) (text : Bytes) (ends : Bool) : Printed :=
  let start := if printed.isNamedOpen then [delimiter] else []
  let stop := if ends then [delimiter] else []
  { printed with parts := (start ++ text ++ stop) :: printed.parts, isNamedOpen := !ends }

def bytes (printed : Printed) : Bytes := printed.parts.reverse.flatten

end Printed

/-- The bytes of a text with everything invisible named, in pieces that stay together. -/
def shown (text : Bytes) : List Bytes :=
  text.map fun byte =>
    match byte with
    | 92 => [92, 92]
    | 7 => [92, 97]
    | 8 => [92, 98]
    | 9 => [92, 116]
    | 10 => [92, 110]
    | 11 => [92, 118]
    | 12 => [92, 102]
    | 13 => [92, 114]
    | byte =>
      if 32 ≤ byte && byte < 127 then [byte]
      else [92, 48 + byte / 64, 48 + byte / 8 % 8, 48 + byte % 8]

def wrapped (width : Nat) : (used : Nat) → List Bytes → Bytes
  | _, [] => [36, 10]
  | used, piece :: rest =>
    if 1 < width && width - 1 < used + piece.length then 92 :: 10 :: (piece ++ wrapped width piece.length rest)
    else piece ++ wrapped width (used + piece.length) rest

/-! ## Replacing -/

def Casing.apply (byte : UInt8) : Casing → UInt8
  | .kept => byte
  | .lower => Pattern.lowered byte
  | .upper => if 97 ≤ byte && byte ≤ 122 then byte - 32 else byte

/-- The text of a replacement.  `casing` is how letters are written, and `next` how the next one is. -/
def filled (group : Nat → Bytes) : (casing : Casing) → (next : Option Casing) → List Segment → Bytes
  | _, _, [] => []
  | casing, next, segment :: rest =>
    let write (text : Bytes) : Bytes :=
      match text with
      | [] => filled group casing next rest
      | byte :: others =>
        (next.getD casing).apply byte :: (others.map casing.apply ++ filled group casing none rest)
    match segment with
    | .literal value => write [value]
    | .group number => write (group number)
    | .casing casing => filled group casing none rest
    | .nextCasing casing' => filled group casing (some casing') rest

/-- Replaces matches behind a place, at most `rounds` of them: the new text, and whether anything was replaced.
`seen` matches came before, and `stop` is where the last one ended. -/
def replaced (pattern : Pattern) (manner : Pattern.Manner) (replacement : List Segment) (flags : Flags) :
    (rounds seen : Nat) → (stop : Option Nat) → Pattern.Place → Bytes × Bool
  | 0, _, _, place => (place.behind, false)
  | rounds + 1, seen, stop, place =>
    match Pattern.find? manner pattern { place with groups := [] } place.behind with
    | none => (place.behind, false)
    | some (start, found) =>
      let before := place.behind.take (start.position - place.position)
      let isEmpty : Bool := found.position = start.position
      let isRepeated := isEmpty && stop = some start.position
      let whole := found.since start
      let occurrence := flags.occurrence.getD 1
      let isWanted := !isRepeated && (seen + 1 = occurrence || (flags.all && occurrence ≤ seen + 1))
      let written :=
        if isWanted then
          filled (fun number => if number = 0 then whole else (found.groups.lookup number).getD []) .kept none
            replacement
        else whole
      if isWanted && !flags.all then (before ++ written ++ found.behind, true)
      else
        let seen := if isRepeated then seen else seen + 1
        match isEmpty, found.behind with
        | true, [] => (before ++ written, isWanted)
        | true, byte :: rest =>
          let (text, changed) :=
            replaced pattern manner replacement flags rounds seen (some found.position) (found.pass byte rest)
          (before ++ written ++ byte :: text, changed || isWanted)
        | false, _ =>
          let (text, changed) :=
            replaced pattern manner replacement flags rounds seen (some found.position) found
          (before ++ written ++ text, changed || isWanted)

/-! ## Running scripts -/

/-- A line, and whether it has an end. -/
structure Line where
  text : Bytes
  ends : Bool := true
deriving DecidableEq, Repr

/-- A line of a file that is edited: the name of the file, and whether the line is its first or its last one. -/
structure FileLine extends Line where
  file : String
  isFirst : Bool
  isLast : Bool
deriving DecidableEq, Repr

/-- What a script works on: the current text, the text that is kept aside, and the lines that are left.  A range
that is open has the number of its last line, if that is known.  `written` are the files that commands write, `unread`
the rest of those that they read line by line, and `edited` the files that are complete. -/
structure State where
  space : Bytes := []
  ends : Bool := true
  number : Nat := 0
  file : String := "-"
  isLastOfFile : Bool := false
  held : Line := ⟨[], true⟩
  left : List FileLine
  written : List (Bytes × Printed) := []
  unread : List (Bytes × List Line) := []
  edited : List (String × Bytes) := []
  queue : List Bytes := []
  printed : Printed := {}
  errors : Bytes := []
  hasReplaced : Bool := false
  openRanges : List (Nat × Option Nat) := []
  closedRanges : List Nat := []
  recent : Option Pattern := none
  lacksPattern : Bool := false

/-- How a script runs: whether lines are printed at its end, what ends lines, how wide they are shown, the files that
it can read, whether each file is edited by itself or in its place, and the ranges that are open before a file. -/
structure Setting where
  tree : FileTree
  quiet : Bool := false
  delimiter : UInt8 := 10
  width : Nat := 70
  isSeparate : Bool := false
  isInPlace : Bool := false
  earlyRanges : List (Nat × Option Nat) := []

def linesOf (delimiter : UInt8) (input : Bytes) : List Line :=
  let step : UInt8 → List Line → List Line := fun byte lines =>
    if byte = delimiter then ⟨[], true⟩ :: lines
    else
      match lines with
      | line :: lines => { line with text := byte :: line.text } :: lines
      | [] => [⟨[byte], false⟩]
  let lines := input.foldr step [⟨[], false⟩]
  if lines.getLast? = some ⟨[], false⟩ then lines.dropLast else lines

def Setting.content? (setting : Setting) (name : Bytes) : Option Bytes :=
  match (String.fromUTF8? ⟨name.toArray⟩).map fun name => setting.tree.readBytes ⟨name⟩ with
  | some (.ok content) => some content.toList
  | _ => none

namespace State

def print (state : State) (setting : Setting) (text : Bytes) (ends : Bool) : State :=
  { state with printed := state.printed.line setting.delimiter text ends }

def printRaw (state : State) (setting : Setting) (text : Bytes) : State :=
  { state with printed := state.printed.raw setting.delimiter text }

def flush (state : State) (setting : Setting) : State :=
  { state.queue.foldl (fun state text => state.printRaw setting text) state with queue := [] }

def finishLine (state : State) (setting : Setting) : State :=
  if state.printed.isOpen then state.printRaw setting [] else state

def closeFile (state : State) : State :=
  { state with edited := state.edited ++ [(state.file, state.printed.bytes)], printed := {} }

def openFile (state : State) (setting : Setting) : State :=
  let state := if setting.isInPlace && 0 < state.number then state.closeFile else state
  { state with number := 0, openRanges := setting.earlyRanges, closedRanges := [], unread := [] }

def advance? (state : State) (setting : Setting) (join : Bytes → Bytes) : Option State :=
  match state.left with
  | [] => none
  | line :: left =>
    let flushed := state.flush setting
    let opened := if setting.isSeparate && line.isFirst then flushed.openFile setting else flushed
    some { opened with
      space := join line.text
      ends := line.ends
      number := opened.number + 1
      file := line.file
      isLastOfFile := line.isLast
      hasReplaced := false
      left }

def isAtEnd (state : State) (setting : Setting) : Bool :=
  state.left.isEmpty || (setting.isSeparate && state.isLastOfFile)

def patternOf (state : State) (query : Query) : Option Pattern × State :=
  match query.pattern, state.recent with
  | some pattern, _ => (some pattern, { state with recent := some pattern })
  | none, some pattern => (some pattern, state)
  | none, none => (none, { state with lacksPattern := true })

def isAt (state : State) (setting : Setting) : Address → Bool × State
  | .line number => (state.number = number, state)
  | .last => (state.isAtEnd setting, state)
  | .every first step =>
    (if step = 0 then state.number = first else first ≤ state.number && (state.number - first) % step = 0, state)
  | .matching query =>
    let (pattern, state) := state.patternOf query
    (pattern.any fun pattern => pattern.occursIn query.manner state.space, state)

def closeRange (state : State) (index : Nat) : State :=
  { state with
    openRanges := state.openRanges.filter (·.1 ≠ index)
    closedRanges := index :: state.closedRanges }

def openRange (state : State) (index : Nat) (last : Option Nat) : State :=
  { state with openRanges := (index, last) :: state.openRanges.filter (·.1 ≠ index) }

/-- Opens a range at the current line, if it does not end there.  A pattern is first looked for in the next line. -/
def startRange (state : State) (setting : Setting) (index : Nat) : Stop → State
  | .at (.line number) =>
    if state.number < number then state.openRange index (some number) else state.closeRange index
  | .at (.matching _) => state.openRange index none
  | .at address => if (state.isAt setting address).1 then state.closeRange index else state.openRange index none
  | .after 0 | .multipleOf 0 => state.closeRange index
  | .after count => state.openRange index (some (state.number + count))
  | .multipleOf number => state.openRange index (some (state.number + number - state.number % number))

/-- Whether a range starts at the current line.  One that starts at a numbered line starts only once, and behind that
line too if the line was passed over. -/
def startsRange (state : State) (setting : Setting) (index : Nat) (first : Address) (stop : Stop) : Bool × State :=
  match first, stop with
  | .line number, .at (.line last) =>
    let isPassed := number ≤ state.number && state.number ≤ last && !state.closedRanges.contains index
    (state.number = number || isPassed, state)
  | .line number, _ => (number ≤ state.number && !state.closedRanges.contains index, state)
  | first, _ => state.isAt setting first

def selects (state : State) (setting : Setting) (index : Nat) (command : Command) : Bool × State :=
  match command.first, command.second with
  | none, _ => (true, state)
  | some first, none => state.isAt setting first
  | some first, some stop =>
    match state.openRanges.lookup index, stop with
    | some (some last), stop =>
      let isBefore := state.number ≤ last || !stop.isLine
      (isBefore, if last ≤ state.number then state.closeRange index else state)
    | some none, .at address =>
      let (isLast, state) := state.isAt setting address
      (true, if isLast then state.closeRange index else state)
    | _, stop =>
      let (isFirst, state) := state.startsRange setting index first stop
      if isFirst then (true, state.startRange setting index stop) else (false, state)

end State

/-- How a script goes on behind a command. -/
inductive Flow
  | next
  | goto (index : Nat)
  | finish (prints : Bool)
  | restart
  | stop (code : Nat) (prints : Bool)
deriving DecidableEq, Repr

/-- The index behind the block that starts before the given commands.  `depth` blocks are open inside of it. -/
def behindBlock : (index depth : Nat) → List Command → Nat
  | index, _, [] => index
  | index, depth, command :: rest =>
    match command.action with
    | .block => behindBlock (index + 1) (depth + 1) rest
    | .blockEnd => if depth = 0 then index + 1 else behindBlock (index + 1) (depth - 1) rest
    | _ => behindBlock (index + 1) depth rest

/-- The index of a label; without a name it is the end of the script. -/
def target (commands : List Command) (name : Bytes) : Nat :=
  if name.isEmpty then commands.length else commands.findIdx fun command => command.action = .label name

def Sink.write (setting : Setting) (state : State) (text : Bytes) (ends : Bool) : Sink → State
  | .output => { state with printed := state.printed.namedLine setting.delimiter text ends }
  | .errors => { state with errors := state.errors ++ text ++ [setting.delimiter] }
  | .file name =>
    let before := (state.written.lookup name).getD {}
    let after := before.line setting.delimiter text ends
    { state with written := (name, after) :: state.written.filter (·.1 ≠ name) }

def perform (setting : Setting) (commands : List Command) (index : Nat) (command : Command) (state : State) :
    State × Flow :=
  let firstLine := state.space.takeWhile (· ≠ setting.delimiter)
  let hasSeveral := state.space.contains setting.delimiter
  match command.action with
  | .block | .blockEnd | .label _ | .nothing => (state, .next)
  | .jump .always name => (state, .goto (target commands name))
  | .jump .ifReplaced name =>
    ({ state with hasReplaced := false }, if state.hasReplaced then .goto (target commands name) else .next)
  | .jump .unlessReplaced name =>
    ({ state with hasReplaced := false }, if state.hasReplaced then .next else .goto (target commands name))
  | .substitute query replacement flags =>
    match state.patternOf query with
    | (none, state) => (state, .next)
    | (some pattern, state) =>
      let (space, changed) :=
        replaced pattern query.manner replacement flags (state.space.length + 2) 0 none { behind := state.space }
      if !changed then (state, .next)
      else
        let state := { state with space, hasReplaced := true }
        let state := if flags.print then state.print setting space state.ends else state
        (match flags.sink with
          | some sink => sink.write setting state space state.ends
          | none => state, .next)
  | .exchange source target => ({ state with space := state.space.map (Exchange.replace source target) }, .next)
  | .append text => ({ state with queue := state.queue ++ [text] }, .next)
  | .insert text => (state.printRaw setting text, .next)
  | .change text =>
    let isInside := command.second.isSome && (state.openRanges.lookup index).isSome && !command.negated
    (if isInside then state else state.printRaw setting text, .finish false)
  | .appendFile name =>
    match setting.content? name with
    | some content => ({ state with queue := state.queue ++ [content] }, .next)
    | none => (state, .next)
  | .appendLine name =>
    let lines := (state.unread.lookup name).getD (linesOf setting.delimiter ((setting.content? name).getD []))
    match lines with
    | line :: rest =>
      let text := line.text ++ (if line.ends then [setting.delimiter] else [])
      ({ state with
        queue := state.queue ++ [text]
        unread := (name, rest) :: state.unread.filter (·.1 ≠ name) }, .next)
    | [] => (state, .next)
  | .delete => (state, .finish false)
  | .deleteFirst =>
    if hasSeveral then ({ state with space := state.space.drop (firstLine.length + 1) }, .restart)
    else (state, .finish false)
  | .print => (state.print setting state.space state.ends, .next)
  | .printFirst => (state.print setting firstLine (hasSeveral || state.ends), .next)
  | .write sink => (sink.write setting state state.space state.ends, .next)
  | .writeFirst sink => (sink.write setting state firstLine (hasSeveral || state.ends), .next)
  | .next =>
    let printed := if setting.quiet then state else state.print setting state.space state.ends
    match printed.advance? setting id with
    | some state => (state, .next)
    | none => (state, .finish true)
  | .join =>
    match state.advance? setting fun text => state.space ++ setting.delimiter :: text with
    | some state => (state, .next)
    | none => (state, .finish true)
  | .hold => ({ state with held := ⟨state.space, state.ends⟩ }, .next)
  | .holdMore =>
    let held := state.held.text ++ setting.delimiter :: state.space
    ({ state with held := ⟨held, state.ends⟩ }, .next)
  | .recall => ({ state with space := state.held.text, ends := state.held.ends }, .next)
  | .recallMore =>
    let space := state.space ++ setting.delimiter :: state.held.text
    ({ state with space, ends := state.held.ends }, .next)
  | .swap =>
    let held : Line := ⟨state.space, state.ends⟩
    ({ state with space := state.held.text, ends := state.held.ends, held }, .next)
  | .clear => ({ state with space := [] }, .next)
  | .lineNumber => (state.printRaw setting (Bytes.ofText s!"{state.number}\n"), .next)
  | .fileName => (state.printRaw setting (Bytes.ofText s!"{state.file}\n"), .next)
  | .show width => (state.printRaw setting (wrapped (width.getD setting.width) 0 (shown state.space)), .next)
  | .quit code isSilent => (state, .stop code !isSilent)

/-- What a script comes to: its state, and the status it ends with. -/
structure Finish where
  state : State
  code : Nat := 0

def runFrom (setting : Setting) (commands : List Command) :
    (rounds index : Nat) → State → Finish
  | 0, _, state => { state }
  | rounds + 1, index, state =>
    let (state, flow) : State × Flow :=
      match commands[index]? with
      | none => (state, .finish true)
      | some command =>
        let (selected, state) := state.selects setting index command
        if selected != command.negated then perform setting commands index command state
        else if command.action = .block then
          (state, .goto (behindBlock (index + 1) 0 (commands.drop (index + 1))))
        else (state, .next)
    let printed (prints : Bool) (ends : Bool) : State :=
      (if prints && !setting.quiet then state.print setting state.space ends else state).flush setting
    if state.lacksPattern then { state, code := 1 }
    else
      match flow with
      | .next => runFrom setting commands rounds (index + 1) state
      | .goto index => runFrom setting commands rounds index state
      | .restart => runFrom setting commands rounds 0 (state.flush setting)
      | .stop code prints => { state := if prints then (printed true state.ends).finishLine setting else state, code }
      | .finish prints =>
        let state := printed prints state.ends
        match state.advance? setting id with
        | some state => runFrom setting commands rounds 0 state
        | none => { state }

def stepLimit : Nat := 10000000

/-- The ranges that are open before the first line: those that start at line zero. -/
def earlyRanges (commands : List Command) : List (Nat × Option Nat) :=
  (commands.mapIdx fun i command => (i, command.first)).filterMap fun (i, first) =>
    if first = some (.line 0) then some (i, none) else none

def runScript (setting : Setting) (commands : List Command) (lines : List FileLine) : Finish :=
  let state : State := { left := lines, openRanges := setting.earlyRanges }
  match state.advance? setting id with
  | some state => runFrom setting commands stepLimit 0 state
  | none => { state }

/-! ## The program -/

def fileLines (name : String) (lines : List Line) : List FileLine :=
  let count := lines.length
  lines.mapIdx fun i line => { line with file := name, isFirst := i = 0, isLast := i + 1 = count }

/-- The lines of operands, what is wrong with operands, whether the input was read, and whether reading was given
up. -/
structure Lines where
  lines : List FileLine := []
  errors : String := ""
  code : Nat := 0
  readsInput : Bool := false
  isBroken : Bool := false

namespace Lines

def complain (lines : Lines) (code : Nat) (message : String) : Lines :=
  { lines with errors := lines.errors ++ message ++ "\n", code }

/-- Reads the operands up to one that is a folder.  Only files can be edited in their places. -/
def read (launch : Launch) (setting : Setting) : Lines → List String → Lines
  | lines, [] => lines
  | lines, name :: rest =>
    let isInput := isInputName name && !setting.isInPlace
    let content := if setting.isInPlace then (setting.tree.readBytes ⟨name⟩).map (·.toList)
      else
        operandBytes { launch with tree := setting.tree } (if lines.readsInput then [] else launch.input) name
    let stop (fault : Fault) : Lines :=
      let shown := if name = "-" then "stdin" else name
      { lines.complain 4 s!"sed: read error on {shown}: {fault.reason}" with isBroken := true }
    match content with
    | .ok content =>
      read launch setting
        { lines with
          lines := lines.lines ++ fileLines name (linesOf setting.delimiter content)
          readsInput := lines.readsInput || isInput }
        rest
    | .error .isFolder =>
      if setting.isInPlace then
        read launch setting (lines.complain 4 s!"sed: couldn't edit {name}: not a regular file") rest
      else stop .isFolder
    | .error fault =>
      if isInput then stop fault
      else read launch setting (lines.complain 2 s!"sed: can't read {name}: {fault.reason}") rest

end Lines

/-- The place of a mistake that has `left` bytes behind it: the number of the expression, and of the byte in it. -/
def placeIn : (number : Nat) → (position : Nat) → (expressions : List Bytes) → Nat × Nat
  | number, position, [] => (number, position)
  | number, position, [_] => (number, position)
  | number, position, expression :: rest =>
    if position ≤ expression.length then (number, position)
    else placeIn (number + 1) (position - expression.length - 1) rest

def table : OptionTable where
  letters :=
    [('n', .never), ('e', .required), ('f', .required), ('E', .never), ('r', .never), ('s', .never), ('i', .optional),
      ('l', .required), ('u', .never), ('z', .never), ('b', .never)]
  names :=
    [("quiet", 'n', .never), ("silent", 'n', .never), ("debug", 'D', .never), ("expression", 'e', .required),
      ("file", 'f', .required), ("follow-symlinks", 'F', .never), ("in-place", 'i', .optional),
      ("line-length", 'l', .required), ("posix", 'p', .never), ("regexp-extended", 'E', .never),
      ("separate", 's', .never), ("sandbox", 'S', .never), ("unbuffered", 'u', .never), ("null-data", 'z', .never),
      ("zero-terminated", 'z', .never), ("binary", 'b', .never), ("help", 'h', .never), ("version", 'V', .never)]

def usage : String := "Usage: sed [OPTION]... \x7bscript-only-if-no-other-script\x7d [input-file]...\n"

def expressions (tree : FileTree) (options : List (Char × Option String)) : Except String (List Bytes) :=
  options.foldlM
    (fun found (letter, value) =>
      match letter, value with
      | 'e', some text => .ok (found ++ [Bytes.ofText text])
      | 'f', some name =>
        match tree.readBytes ⟨name⟩ with
        | .ok content =>
          let text := content.toList
          .ok (found ++ [if text.getLast? = some 10 then text.dropLast else text])
        | .error fault => .error s!"sed: couldn't open file {name}: {fault.reason}\n"
      | _, _ => .ok found)
    []

def asksForQuiet (script : Bytes) : Bool := script = [35, 110] || [35, 110, 10].isPrefixOf script

def sinkNames (commands : List Command) : List Bytes :=
  commands.filterMap fun command =>
    match command.action with
    | .write (.file name) | .writeFirst (.file name) => some name
    | .substitute _ _ flags =>
      match flags.sink with
      | some (.file name) => some name
      | _ => none
    | _ => none

def writeFile (tree : FileTree) (name : Bytes) (content : Bytes) : Except String FileTree :=
  let path := Pattern.textOfBytes name
  match tree.writeBytes ⟨path⟩ ⟨content.toArray⟩ with
  | .ok tree => .ok tree
  | .error fault => .error s!"sed: couldn't open file {path}: {fault.reason}\n"

/-- The name under which the content of a file is kept that is edited in its place.  A star stands for the name of the
file. -/
def keptName (suffix name : String) : String :=
  let segments := name.splitOn "/"
  let own := segments.getLast?.getD ""
  let kept := if suffix.toList.contains '*' then own.intercalate (suffix.splitOn "*") else own ++ suffix
  if kept.toList.contains '/' then kept else "/".intercalate (segments.dropLast ++ [kept])

def replaceFile (suffix : String) (tree : FileTree) (name : String) (content : Bytes) : FileTree :=
  let kept := match suffix, tree.readBytes ⟨name⟩ with
    | "", _ | _, .error _ => tree
    | suffix, .ok before => (tree.writeBytes ⟨keptName suffix name⟩ before).toOption.getD tree
  (kept.writeBytes ⟨name⟩ ⟨content.toArray⟩).toOption.getD kept

def blockSize : Nat := 4096

def written (outcome : Outcome) (isBroken : Bool) : Option Fault → Outcome
  | some .closed =>
    if isBroken then { outcome with output := [] }
    else { outcome.complain 4 s!"sed: couldn't close stdout: {Fault.closed.reason}\n" with output := [] }
  | outletFault => outcome.through outletFault 4 fun fault => s!"sed: couldn't flush stdout: {fault.reason}\n"

def runCommands (launch : Launch) (tree : FileTree) (arguments : Arguments) (isQuiet : Bool)
    (commands : List Command) (operands : List String) : Outcome × FileTree :=
  let input := launch.input
  let isInPlace := arguments.has 'i'
  let setting : Setting := {
    tree
    quiet := arguments.has 'n' || isQuiet
    delimiter := if arguments.has 'z' then 0 else 10
    width := (((arguments.options.lookup 'l').bind id).bind (·.toNat?)).getD 70
    isSeparate := isInPlace || arguments.has 's'
    isInPlace
    earlyRanges := earlyRanges commands }
  let lines := Lines.read launch setting {} (if operands.isEmpty then ["-"] else operands)
  let finish := runScript setting commands lines.lines
  let state := if isInPlace && 0 < finish.state.number then finish.state.closeFile else finish.state
  let suffix := ((arguments.options.lookup 'i').bind id).getD ""
  let filled := state.written.foldl (fun tree (name, printed) =>
    (writeFile tree name printed.bytes).toOption.getD tree) tree
  let edited := state.edited.foldl (fun tree (name, content) => replaceFile suffix tree name content) filled
  let errors := lines.errors
    ++ (if state.lacksPattern then "sed: -e expression #1, char 0: no previous regular expression\n" else "")
  let left := if lines.readsInput then state.left.foldl (fun n line => n + line.text.length + 1) 0 else input.length
  let used := input.length - left
  let read := if arguments.has 'u' then used else (used + blockSize - 1) / blockSize * blockSize
  let outcome : Outcome := {
    status := .exited (if finish.code = 0 then lines.code else finish.code)
    output := state.printed.bytes
    errors := Bytes.ofText errors ++ state.errors
    ahead := (input.drop used).take (read - used)
    unread := input.drop read }
  (written outcome lines.isBroken launch.outletFault, edited)

def runExpressions (launch : Launch) (arguments : Arguments) (expressions : List Bytes) (operands : List String) :
    Outcome × FileTree :=
  let script := [10].intercalate expressions
  let extended := arguments.has 'E' || arguments.has 'r'
  let refused (code : Nat) (message : String) : Outcome × FileTree := (refuse code message launch.input, launch.tree)
  match read extended script with
  | .error mistake =>
    let (number, position) := placeIn 1 (script.length - mistake.left) expressions
    let position := if mistake.hasPlace then position else 0
    if mistake.isLate then refused 4 s!"sed: {mistake.reason}\n"
    else refused 1 s!"sed: -e expression #{number}, char {position}: {mistake.reason}\n"
  | .ok commands =>
    match (sinkNames commands).foldlM (fun tree name => writeFile tree name []) launch.tree with
    | .error message => refused 4 message
    | .ok tree =>
      if arguments.has 'i' && operands.isEmpty then (refuse 4 "sed: no input files\n" launch.input, tree)
      else runCommands launch tree arguments (asksForQuiet script) commands operands

def run : Program := fun launch =>
  let refused (code : Nat) (message : String) : Outcome × FileTree := (refuse code message launch.input, launch.tree)
  match Arguments.read table launch.arguments with
  | .error reason => refused 1 s!"sed: {reason}\n{usage}"
  | .ok arguments =>
    match expressions launch.tree arguments.options with
    | .error message => refused 4 message
    | .ok [] =>
      match arguments.operands with
      | [] => refused 1 usage
      | script :: operands => runExpressions launch arguments [Bytes.ofText script] operands
    | .ok expressions => runExpressions launch arguments expressions arguments.operands

end Offside.Tool.Edit
