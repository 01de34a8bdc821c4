import Offside.Toml
import Offside.Toml.Scalar

/-!
# Reading TOML

A document is read line by line: a key with its value, the header of a table, or nothing.  Reading fails as
soon as the text is no document, without telling why.
-/

namespace Offside.Toml

/-- Takes characters from the front of a text, or fails. -/
abbrev Reader := StateT (List Char) Option

namespace Reader

def peek? : Reader (Option Char) := return (← get).head?

/-- Takes one character that must be the given one. -/
def char (c : Char) : Reader Unit := do
  match ← get with
  | first :: rest => if first = c then set rest else failure
  | [] => failure

/-- Takes the given text if it comes next, and tells whether it did. -/
def accept (text : String) : Reader Bool := do
  let input ← get
  if text.toList.isPrefixOf input then
    set (input.drop text.length)
    return true
  else return false

/-- Takes the longest front whose characters satisfy `p`. -/
def takeWhile (p : Char → Bool) : Reader (List Char) := do
  let input ← get
  set (input.dropWhile p)
  return input.takeWhile p

def isGap (c : Char) : Bool := c = ' ' || c = '\t'

def skipGaps : Reader Unit := do let _ ← takeWhile isGap

/-- The characters that may stand in comments and on one line of a string. -/
def isPrintable (c : Char) : Bool := c = '\t' || (32 ≤ c.toNat && c.toNat ≠ 127)

/-- Takes a comment if there is one. -/
def skipComment : Reader Unit := do
  if (← peek?) = some '#' then let _ ← takeWhile isPrintable

/-- Takes a line break if there is one, and tells whether there was. -/
def newline : Reader Bool := do
  if ← accept "\n" then return true else accept "\r\n"

/-- Takes spaces, a comment and a line break, or the end of the text. -/
def lineEnd : Reader Unit := do
  skipGaps
  skipComment
  if (← get).isEmpty then return ()
  else if ← newline then return ()
  else failure

/-- Takes spaces, comments and line breaks, for at most `rounds` lines. -/
def skipLines : (rounds : Nat) → Reader Unit
  | 0 => return ()
  | rounds + 1 => do
    skipGaps
    skipComment
    if ← newline then skipLines rounds else return ()

/-! ## Strings -/

/-- The character with the given hexadecimal digits as its number. -/
def scalar? (digits : List Char) : Option Char :=
  if digits.all Scalar.isHexDigit then
    let code := Scalar.runValue 16 digits
    if code.isValidChar then some (Char.ofNat code) else none
  else none

/-- The character that a backslash and `c` stand for. -/
def escaped? : Char → Option Char
  | 'b' => some '\x08'
  | 't' => some '\t'
  | 'n' => some '\n'
  | 'f' => some '\x0c'
  | 'r' => some '\r'
  | '"' => some '"'
  | '\\' => some '\\'
  | _ => none

/-- Puts a character in front of the text of a string that was read. -/
def consText (c : Char) : Option (List Char × List Char) → Option (List Char × List Char)
  | some (text, rest) => some (c :: text, rest)
  | none => none

/-- Drops spaces and line breaks. -/
def skipSpace : List Char → List Char
  | ' ' :: rest | '\t' :: rest | '\n' :: rest | '\r' :: '\n' :: rest => skipSpace rest
  | text => text

/-- Drops a line break with the white space around it, behind a backslash; `none` if there is none. -/
def skipBreak (text : List Char) : Option (List Char) :=
  match text.dropWhile isGap with
  | '\n' :: rest | '\r' :: '\n' :: rest => some (skipSpace rest)
  | _ => none

/-- The text of a string between single quotation marks `mark`, behind the opening one.  Escapes are read if
`escapes`. -/
def lineString (mark : Char) (escapes : Bool) : (rounds : Nat) → List Char → Option (List Char × List Char)
  | 0, _ => none
  | _ + 1, [] => none
  | rounds + 1, c :: rest =>
    if c = mark then some ([], rest)
    else if escapes && c = '\\' then
      match rest with
      | 'u' :: rest =>
        (scalar? (rest.take 4)).bind fun d =>
          if rest.length < 4 then none else consText d (lineString mark escapes rounds (rest.drop 4))
      | 'U' :: rest =>
        (scalar? (rest.take 8)).bind fun d =>
          if rest.length < 8 then none else consText d (lineString mark escapes rounds (rest.drop 8))
      | e :: rest => (escaped? e).bind fun d => consText d (lineString mark escapes rounds rest)
      | [] => none
    else if isPrintable c then consText c (lineString mark escapes rounds rest)
    else none

/-- The text of a string between triple quotation marks, behind the opening ones.  Up to two marks may stand
before the closing ones. -/
def blockString (mark : Char) (escapes : Bool) : (rounds : Nat) → List Char → Option (List Char × List Char)
  | 0, _ => none
  | _ + 1, [] => none
  | rounds + 1, c :: rest =>
    if c = mark then
      if (List.replicate 4 mark).isPrefixOf rest then some ([mark, mark], rest.drop 4)
      else if (List.replicate 3 mark).isPrefixOf rest then some ([mark], rest.drop 3)
      else if (List.replicate 2 mark).isPrefixOf rest then some ([], rest.drop 2)
      else consText c (blockString mark escapes rounds rest)
    else if escapes && c = '\\' then
      match rest with
      | 'u' :: rest =>
        (scalar? (rest.take 4)).bind fun d =>
          if rest.length < 4 then none else consText d (blockString mark escapes rounds (rest.drop 4))
      | 'U' :: rest =>
        (scalar? (rest.take 8)).bind fun d =>
          if rest.length < 8 then none else consText d (blockString mark escapes rounds (rest.drop 8))
      | e :: others =>
        match escaped? e with
        | some d => consText d (blockString mark escapes rounds others)
        | none => (skipBreak rest).bind (blockString mark escapes rounds)
      | [] => none
    else if c = '\n' then consText '\n' (blockString mark escapes rounds rest)
    else if c = '\r' && rest.head? = some '\n' then
      consText '\n' (blockString mark escapes rounds (rest.drop 1))
    else if isPrintable c then consText c (blockString mark escapes rounds rest)
    else none

/-- Runs a reader of the rest of a string. -/
def stringRest (read : Nat → List Char → Option (List Char × List Char)) : Reader String := do
  let input ← get
  match read (input.length + 1) input with
  | some (text, rest) =>
    set rest
    return String.ofList text
  | none => failure

/-- A string on one line. -/
def plainString : Reader String := do
  if ← accept "\"" then stringRest (lineString '"' true)
  else
    char '\x27'
    stringRest (lineString '\x27' false)

/-- A string in any of its four forms. -/
def string : Reader String := do
  if ← accept "\"\"\"" then
    let _ ← newline
    stringRest (blockString '"' true)
  else if ← accept "\x27\x27\x27" then
    let _ ← newline
    stringRest (blockString '\x27' false)
  else plainString

/-! ## Keys -/

def isBareKey (c : Char) : Bool := c.isAlphanum || c = '_' || c = '-'

def simpleKey : Reader String := do
  match ← peek? with
  | some '"' | some '\x27' => plainString
  | _ =>
    let name ← takeWhile isBareKey
    if name.isEmpty then failure else return String.ofList name

/-- The parts of a key that follow its first part. -/
def keyRest : (rounds : Nat) → Reader (List String)
  | 0 => return []
  | rounds + 1 => do
    skipGaps
    if ← accept "." then
      skipGaps
      let part ← simpleKey
      return part :: (← keyRest rounds)
    else return []

/-- How many parts a key may have, and how deep values may be nested. -/
def nestingLimit : Nat := 79

/-- A key: the tables it passes through and its last part. -/
def key : Reader (List String × String) := do
  skipGaps
  let first ← simpleKey
  let rest ← keyRest (← get).length
  let parts := first :: rest
  if nestingLimit < parts.length then failure
  else return (parts.dropLast, parts.getLastD first)

/-! ## Values -/

def isWordPart (c : Char) : Bool := c.isAlphanum || ['+', '-', '_', '.', ':'].contains c

/-- A value that is one word, or a date and a time with a space between them. -/
def word : Reader Value := do
  let first ← takeWhile isWordPart
  let text ←
    match ← get with
    | ' ' :: c :: _ =>
      if Scalar.isDate first && c.isDigit then do
        let _ ← takeWhile (· = ' ')
        let second ← takeWhile isWordPart
        pure (first ++ ' ' :: second)
      else pure first
    | _ => pure first
  if text = "true".toList then return .boolean true
  else if text = "false".toList then return .boolean false
  else if Scalar.isInteger text then return .integer
  else if Scalar.isFloat text then return .float
  else if Scalar.isDatetime text then return .datetime
  else failure

/-- A value that holds no other values. -/
def scalar : Reader Value := do
  match ← peek? with
  | some '"' | some '\x27' => return .string (← string)
  | _ => word

mutual

/-- A value with at most `depth` arrays and tables inside each other. -/
def value : (depth : Nat) → Reader Value
  | 0 => scalar
  | depth + 1 => do
    match ← peek? with
    | some '[' =>
      char '['
      let elements ← elements depth (← get).length
      return .array elements
    | some '\x7b' =>
      char '\x7b'
      skipGaps
      if ← accept "\x7d" then return .table
      else
        entries depth (← get).length Document.empty
        return .table
    | _ => scalar
termination_by depth => (depth, 0)

/-- The elements of an array, behind its opening bracket, and the closing one. -/
def elements (depth : Nat) : (rounds : Nat) → Reader (List Value)
  | 0 => failure
  | rounds + 1 => do
    skipLines (← get).length
    if ← accept "]" then return []
    else
      let first ← value depth
      skipLines (← get).length
      if ← accept "," then return first :: (← elements depth rounds)
      else
        char ']'
        return [first]
termination_by rounds => (depth, rounds + 1)

/-- The entries of a table on one line, and the closing brace. -/
def entries (depth : Nat) : (rounds : Nat) → Document → Reader Unit
  | 0, _ => failure
  | rounds + 1, document => do
    let (path, last) ← key
    skipGaps
    char '='
    skipGaps
    let content ← value depth
    let document ← document.insert path last content
    skipGaps
    if ← accept "," then entries depth rounds document else char '\x7d'
termination_by rounds => (depth, rounds + 1)

end

/-! ## Documents -/

/-- The header of a table or of a list of tables. -/
def header (document : Document) : Reader Document := do
  char '['
  if ← accept "[" then
    let (path, last) ← key
    skipGaps
    char ']'
    char ']'
    document.append path last
  else
    let (path, last) ← key
    skipGaps
    char ']'
    document.define path last

/-- A key and its value. -/
def pair (document : Document) : Reader Document := do
  let (path, last) ← key
  skipGaps
  char '='
  skipGaps
  let content ← value nestingLimit
  document.insert path last content

/-- The lines of a document. -/
def lines : (rounds : Nat) → Document → Reader Document
  | 0, document => return document
  | rounds + 1, document => do
    if (← get).isEmpty then return document
    else
      skipGaps
      let next ← match ← peek? with
        | none | some '#' | some '\n' | some '\r' => pure document
        | some '[' => header document
        | some _ => pair document
      lineEnd
      lines rounds next

end Reader

/-- Reads a document. -/
def Document.read? (text : String) : Option Document :=
  let input := match text.toList with
    | '\ufeff' :: rest => rest
    | input => input
  (Reader.lines (input.length + 1) .empty input).map (·.1)

end Offside.Toml
