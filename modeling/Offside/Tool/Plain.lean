import Offside.Tool.Arguments

/-!
# Copying and counting

Programs that copy their inputs, count what is in them, or only succeed or fail.
-/

namespace Offside.Tool

def isInputName (name : String) : Bool := ["-", "/dev/stdin", "/dev/fd/0", "/proc/self/fd/0"].contains name

/-- The bytes of an operand: what is left of the input or those of a file. -/
def operandBytes (launch : Launch) (input : Bytes) (name : String) : Except Fault Bytes :=
  if isInputName name then
    match launch.inlet.fault with
    | some fault => .error fault
    | none => .ok input
  else (launch.tree.readBytes ⟨name⟩).map (·.toList)

/-- Reads operands one after another with `use`.  The input is used up by the first of its names. -/
def onOperands (launch : Launch) (use : Outcome → String → Except Fault Bytes → Outcome) :
    Outcome → List String → Outcome
  | outcome, [] => outcome
  | outcome, name :: rest =>
    let used := use outcome name (operandBytes launch outcome.unread name)
    onOperands launch use (if isInputName name then { used with unread := [] } else used) rest

def isShellMark (c : Char) : Bool := " !\"$&()*:;<=>?[^\x60|\\'".toList.contains c

def isPlainName (name : List Char) : Bool :=
  !name.isEmpty && name.all (fun c => 32 < c.toNat && c.toNat < 127 && !isShellMark c)
    && name.head? ≠ some '#' && name.head? ≠ some '~' && name ≠ ['\x7b'] && name ≠ ['\x7d']

/-- The bytes of a name between quotes.  Bytes that are not visible stand between quotes of their own. -/
def quotedBytes : (isHidden : Bool) → Bytes → String
  | _, [] => "'"
  | isHidden, byte :: rest =>
    let hides := !(32 ≤ byte && byte < 127)
    let start := if hides && !isHidden then "'$'" else if !hides && isHidden then "''" else ""
    let text :=
      if hides then byteEscape byte
      else if byte = 39 then "'\\''"
      else (Char.ofNat byte.toNat).toString
    start ++ text ++ quotedBytes hides rest

def isTame (c : Char) : Bool := 32 ≤ c.toNat && c.toNat < 127 && !("\"$\x60\\!".toList.contains c)

def quotedName (name : String) : String :=
  let chars := name.toList
  if isPlainName chars then name
  else if chars.contains '\x27' && chars.all isTame then
    s!"\"{name}\""
  else "'" ++ quotedBytes false (Bytes.ofText name)

/-! ## Copying -/

/-- How a copy differs from what is copied. -/
structure CopyStyle where
  numbers : Bool
  numbersFilled : Bool
  squeezes : Bool
  showsEnds : Bool
  showsTabs : Bool
  showsOthers : Bool
deriving DecidableEq, Repr

def padded (width n : Nat) : String :=
  let digits := toString n
  String.ofList (List.replicate (width - digits.length) ' ') ++ digits

/-- A byte as visible ASCII characters.  A high bit is written `M-`, and a control character with a caret. -/
def visible (byte : UInt8) : Bytes :=
  let low := byte % 128
  let mark : Bytes := if byte < 128 then [] else [77, 45]
  if low = 127 then mark ++ [94, 63]
  else if low < 32 then mark ++ [94, low + 64]
  else mark ++ [low]

def CopyStyle.byte (style : CopyStyle) (byte : UInt8) : Bytes :=
  if byte = 9 then (if style.showsTabs then [94, 73] else [9])
  else if style.showsOthers then visible byte
  else [byte]

def CopyStyle.line (style : CopyStyle) (line : Bytes) : Bytes := line.flatMap style.byte

def linesOf (input : Bytes) : List Bytes :=
  let step : UInt8 → List Bytes → List Bytes
    | 10, lines => [] :: lines
    | byte, line :: lines => (byte :: line) :: lines
    | byte, [] => [[byte]]
  let lines := input.foldr step [[]]
  if lines.getLast? = some [] then lines.dropLast else lines

/-- Copies lines.  `number` is the next number and `blanks` the number of empty lines before; `ends` says whether
the last line has an end. -/
def CopyStyle.lines (style : CopyStyle) (ends : Bool) : (number blanks : Nat) → List Bytes → Bytes
  | _, _, [] => []
  | number, blanks, line :: rest =>
    let isLast := rest.isEmpty
    let hasEnd := !isLast || ends
    let isBlank := line.isEmpty && hasEnd
    if isBlank && style.squeezes && 0 < blanks then style.lines ends number blanks rest
    else
      let isNumbered := (style.numbers && !style.numbersFilled) || (style.numbersFilled && !isBlank)
      let front := if isNumbered then Bytes.ofText (padded 6 number ++ "\t") else []
      let shown :=
        if style.showsEnds && hasEnd && !style.showsOthers && line.getLast? = some 13 then
          style.line line.dropLast ++ [94, 77]
        else style.line line
      let back := if hasEnd then (if style.showsEnds then [36, 10] else [10]) else []
      front ++ shown ++ back
        ++ style.lines ends (if isNumbered then number + 1 else number) (if isBlank then blanks + 1 else 0) rest

def copyTable : OptionTable where
  letters := ['A', 'b', 'e', 'E', 'n', 's', 't', 'T', 'u', 'v'].map (·, .never)
  names :=
    [("number-nonblank", 'b'), ("number", 'n'), ("squeeze-blank", 's'), ("show-nonprinting", 'v'),
      ("show-ends", 'E'), ("show-tabs", 'T'), ("show-all", 'A'), ("help", 'h'), ("version", 'V')].map
      fun (name, letter) => (name, letter, .never)

def isOwnOutput (launch : Launch) (name : String) : Bool :=
  let place := if isInputName name then launch.inlet.place.map (·.1)
    else (launch.tree.find .visit ⟨name⟩).toOption.map (·.1)
  launch.outletPlace.isSome && place = launch.outletPlace

/-- Copies operands.  A file that has something in it is not copied to itself. -/
def copyOperands (launch : Launch) (operands : List String) : Outcome :=
  let copied := onOperands launch
    (fun outcome name content =>
      match content with
      | .ok bytes =>
        if !bytes.isEmpty && isOwnOutput launch name then
          outcome.complain 1 s!"cat: {quotedName name}: input file is output file\n"
        else { outcome with output := outcome.output ++ bytes }
      | .error fault => outcome.complain 1 s!"cat: {quotedName name}: {fault.reason}\n")
    { unread := launch.input } operands
  if operands.any isInputName && launch.inlet.fault = some .closed then
    copied.complain 1 s!"cat: closing standard input: {Fault.closed.reason}\n"
  else copied

def copy (launch : Launch) : Outcome :=
  match Arguments.read copyTable launch.arguments with
  | .error reason => misuse "cat" reason launch.input
  | .ok arguments =>
    if launch.outletFault = some .closed then
      refuse 1 s!"cat: standard output: {Fault.closed.reason}\n" launch.input
    else
      let any (letters : List Char) : Bool := letters.any arguments.has
      let style : CopyStyle := {
        numbers := any ['n', 'b']
        numbersFilled := any ['b']
        squeezes := any ['s']
        showsEnds := any ['E', 'A', 'e']
        showsTabs := any ['T', 'A', 't']
        showsOthers := any ['v', 'A', 'e', 't'] }
      let read := copyOperands launch (if arguments.operands.isEmpty then ["-"] else arguments.operands)
      let isPlain := !any ['A', 'b', 'e', 'E', 'n', 's', 't', 'T', 'v']
      let copied := if isPlain then read
        else { read with output := style.lines (read.output.getLast? = some 10) 1 0 (linesOf read.output) }
      copied.through launch.outletFault 1 fun fault => s!"cat: write error: {fault.reason}\n"

/-! ## Counting -/

def isSpace (byte : UInt8) : Bool := byte = 32 || (9 ≤ byte && byte ≤ 13)

def isVisible (byte : UInt8) : Bool := 33 ≤ byte && byte ≤ 126

def countWords (input : Bytes) : Nat :=
  (input.foldl
    (fun (inWord, n) byte =>
      if isSpace byte then (false, n)
      else if isVisible byte && !inWord then (true, n + 1)
      else (inWord, n))
    (false, 0)).2

/-- The greatest width of a line on a terminal.  Tabs go to the next column that eight divides. -/
def greatestWidth (input : Bytes) : Nat :=
  let (width, greatest) := input.foldl
    (fun (width, greatest) byte =>
      if byte = 10 || byte = 13 || byte = 12 then (0, max greatest width)
      else if byte = 9 then (width + 8 - width % 8, greatest)
      else if isVisible byte || byte = 32 then (width + 1, greatest)
      else (width, greatest))
    (0, 0)
  max greatest width

/-- What can be counted, in the order of the report. -/
inductive Measure
  | lines | words | characters | bytes | width
deriving DecidableEq, Repr

namespace Measure

def all : List Measure := [.lines, .words, .characters, .bytes, .width]

def count (input : Bytes) : Measure → Nat
  | .lines => input.count 10
  | .words => countWords input
  | .characters | .bytes => input.length
  | .width => greatestWidth input

def letter : Measure → Char
  | .lines => 'l'
  | .words => 'w'
  | .characters => 'm'
  | .bytes => 'c'
  | .width => 'L'

def total (counts : List Nat) : Measure → Nat
  | .width => counts.foldl max 0
  | _ => counts.foldl (· + ·) 0

end Measure

def countTable : OptionTable where
  letters := ['c', 'l', 'L', 'm', 'w'].map (·, .never)
  names :=
    [("bytes", 'c'), ("chars", 'm'), ("lines", 'l'), ("words", 'w'), ("max-line-length", 'L'), ("help", 'h'),
      ("version", 'V')].map fun (name, letter) => (name, letter, .never)

/-- One input of a count: its name, the size of its file, and what was read of it or why nothing was. -/
structure Counted where
  name : String
  size : Option Nat
  content : Except Fault Bytes

namespace Counted

/-- Reads an input.  Without a name it is the program's own. -/
def read (launch : Launch) (input : Bytes) (name : String) : Counted :=
  let isInput := name = "" || isInputName name
  let content := operandBytes launch input (if name = "" then "-" else name)
  let size := if isInput then launch.inputSize?
    else if name = "/dev/null" then none
    else content.toOption.map List.length
  { name, size, content }

def isUnknown (counted : Counted) : Bool :=
  match counted.content with
  | .ok _ => false
  | .error fault => fault ≠ .isFolder

def fault? (counted : Counted) : Option String :=
  match counted.content with
  | .ok _ => none
  | .error fault =>
    let name := if counted.name = "" then "'standard input'" else quotedName counted.name
    some s!"wc: {name}: {fault.reason}\n"

/-- Whether an input has a row in the report.  One that cannot be opened has none. -/
def hasRow (counted : Counted) : Bool :=
  match counted.content with
  | .ok _ | .error .isFolder | .error .closed => true
  | .error _ => false

end Counted

/-- The width of the columns.  A single number stands alone, files have as many digits as their sizes need, and
other inputs have at least seven. -/
def columnWidth (measures : List Measure) (inputs : List Counted) : Nat :=
  if measures.length = 1 && inputs.length = 1 then 1
  else
    let least := if inputs.all fun counted => counted.size.isSome || counted.isUnknown then 1 else 7
    max least (toString ((inputs.filterMap (·.size)).foldl (· + ·) 0)).length

def count (launch : Launch) : Outcome :=
  match Arguments.read countTable launch.arguments with
  | .error reason => misuse "wc" reason launch.input
  | .ok arguments =>
    let asked := Measure.all.filter fun measure => arguments.has measure.letter
    let measures := if asked.isEmpty then [Measure.lines, .words, .bytes] else asked
    let names := if arguments.operands.isEmpty then [""] else arguments.operands
    let readsInput := names.any fun name => name = "" || isInputName name
    let inputs := names.mapIdx fun i name =>
      let isRepeated := isInputName name && (names.take i).any isInputName
      Counted.read launch (if isRepeated then [] else launch.input) name
    let width := columnWidth measures inputs
    let row (name : String) (counts : List Nat) : String :=
      " ".intercalate (counts.map (padded width)) ++ (if name = "" then "\n" else s!" {name}\n")
    let countsOf (counted : Counted) : List Nat :=
      let bytes := counted.content.toOption.getD []
      measures.map (·.count bytes)
    let rows := (inputs.filter Counted.hasRow).map fun counted => row counted.name (countsOf counted)
    let totals := measures.mapIdx fun i measure =>
      measure.total (inputs.map fun counted => (countsOf counted).getD i 0)
    let faults := inputs.filterMap Counted.fault?
      ++ (if readsInput && launch.inlet.fault = some .closed then [s!"wc: -: {Fault.closed.reason}\n"] else [])
    let counted : Outcome := {
      status := if faults.isEmpty then .ok else .exited 1
      output := Bytes.ofText (String.join rows ++ (if 1 < inputs.length then row "total" totals else ""))
      errors := Bytes.ofText (String.join faults)
      unread := if readsInput then [] else launch.input }
    counted.through launch.outletFault 1 fun fault =>
      if fault = .closed then s!"wc: write error: {fault.reason}\n" else "wc: write error\n"

def plain? (program : String) : Option (Launch → Outcome) :=
  match program with
  | "cat" => some copy
  | "wc" => some count
  | "true" => some fun launch => { unread := launch.input }
  | "false" => some fun launch => { status := .exited 1, unread := launch.input }
  | _ => none

end Offside.Tool
