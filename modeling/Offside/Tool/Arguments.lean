import Offside.Tool

/-!
# Arguments of tools

Tools take options by letter or by name, some of them with a value, and operands.  A name may be cut short where
only one option starts like that.
-/

namespace Offside.Tool

/-- Whether an option has a value. -/
inductive Value
  | never | optional | required
deriving DecidableEq, Repr

/-- The options of a tool.  A named option stands for a letter.  Operands may stand before options if they are
`mixed`. -/
structure OptionTable where
  letters : List (Char × Value)
  names : List (String × Char × Value) := []
  mixed : Bool := true

/-- The options that were given, with their values, and the operands. -/
structure Arguments where
  options : List (Char × Option String) := []
  operands : List String := []
deriving DecidableEq, Repr

namespace Arguments

def has (arguments : Arguments) (letter : Char) : Bool := arguments.options.any (·.1 = letter)

def addOption (arguments : Arguments) (letter : Char) (value : Option String) : Arguments :=
  { arguments with options := arguments.options ++ [(letter, value)] }

def addOperands (arguments : Arguments) (words : List String) : Arguments :=
  { arguments with operands := arguments.operands ++ words }

/-- Reads letters in one word; the letter that waits for a value in the next word is returned too. -/
def readLetters (table : OptionTable) : Arguments → List Char → Except String (Arguments × Option Char)
  | arguments, [] => .ok (arguments, none)
  | arguments, letter :: rest =>
    match table.letters.lookup letter with
    | none =>
      -- Only the first byte of a letter is named, which is no text by itself if there are more.
      let shown := if letter.toNat < 128 then letter else '\ufffd'
      .error s!"invalid option -- '{shown}'"
    | some .never => readLetters table (arguments.addOption letter none) rest
    | some .optional =>
      let value := if rest.isEmpty then none else some (String.ofList rest)
      .ok (arguments.addOption letter value, none)
    | some .required =>
      if rest.isEmpty then .ok (arguments, some letter)
      else .ok (arguments.addOption letter (some (String.ofList rest)), none)

def nameOf (table : OptionTable) (name : String) : Except String (String × Char × Value) :=
  let candidates := table.names.filter fun (known, _) => name.toList.isPrefixOf known.toList
  match candidates.find? (·.1 = name), candidates with
  | some found, _ => .ok found
  | none, [] => .error s!"unrecognized option '--{name}'"
  | none, first :: others =>
    if others.all (·.2 = first.2) then .ok first
    else
      let known := String.join (candidates.map fun (known, _) => s!" '--{known}'")
      .error s!"option '--{name}' is ambiguous; possibilities:{known}"

def readName (table : OptionTable) (arguments : Arguments) (text : List Char) :
    Except String (Arguments × Option Char) := do
  let written := text.takeWhile (· ≠ '=')
  let attached := if text.contains '=' then some (String.ofList (text.drop (written.length + 1))) else none
  let (name, letter, value) ← nameOf table (String.ofList written)
  match value, attached with
  | .never, some _ => throw s!"option '--{name}' doesn't allow an argument"
  | .required, none => return (arguments, some letter)
  | _, attached => return (arguments.addOption letter attached, none)

/-- Sorts words into options and operands.  `waiting` is the option whose value is the next word. -/
def readFrom (table : OptionTable) (arguments : Arguments) (waiting : Option Char) :
    List String → Except String Arguments
  | [] =>
    match waiting with
    | some letter => .error s!"option requires an argument -- '{letter}'"
    | none => .ok arguments
  | word :: rest =>
    match waiting, word.toList with
    | some letter, _ => readFrom table (arguments.addOption letter (some word)) none rest
    | none, ['-', '-'] => .ok (arguments.addOperands rest)
    | none, '-' :: '-' :: name => do
      let (arguments, waiting) ← readName table arguments name
      readFrom table arguments waiting rest
    | none, '-' :: letter :: letters => do
      let (arguments, waiting) ← readLetters table arguments (letter :: letters)
      readFrom table arguments waiting rest
    | none, _ =>
      if table.mixed then readFrom table (arguments.addOperands [word]) none rest
      else .ok (arguments.addOperands (word :: rest))

/-- Sorts the words of a command line; the error says what is wrong with them. -/
def read (table : OptionTable) (words : List String) : Except String Arguments := readFrom table {} none words

end Arguments

def byteCode (byte : UInt8) : String := s!"\\{byte / 64}{byte / 8 % 8}{byte % 8}"

def byteEscape (byte : UInt8) : String :=
  match byte with
  | 7 => "\\a"
  | 8 => "\\b"
  | 9 => "\\t"
  | 10 => "\\n"
  | 11 => "\\v"
  | 12 => "\\f"
  | 13 => "\\r"
  | byte => byteCode byte

def quotedText (text : String) : String :=
  let byteText (byte : UInt8) : String :=
    if byte = 39 then "\\'"
    else if byte = 92 then "\\\\"
    else if 32 ≤ byte && byte < 127 then (Char.ofNat byte.toNat).toString
    else byteEscape byte
  "'" ++ String.join ((Bytes.ofText text).map byteText) ++ "'"

def misuse (program reason : String) (input : Bytes) : Outcome :=
  refuse 1 s!"{program}: {reason}\nTry '{program} --help' for more information.\n" input

end Offside.Tool
