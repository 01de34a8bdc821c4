/-!
# Shell scripts

Commands are joined in pipes and lists, may depend on each other, and can be repeated.  Their words keep what stands
for other text: it is replaced when the word is used.
-/

namespace Offside.Tool.Shell

/-- What is done with the value of a parameter. -/
inductive Operator
  /-- Another word stands for a value that is missing. -/
  | orElse
  /-- Another word stands for a value that is there. -/
  | insteadOf
  /-- Another word becomes the value that is missing. -/
  | orAssign
  /-- A value that is missing is an error. -/
  | orFail
  /-- A part that a pattern covers is cut from the start or the end, the shortest or the longest one. -/
  | cut (atEnd : Bool) (isLongest : Bool)
deriving DecidableEq, Repr

/-- How a channel of a command is changed. -/
inductive Direction
  | readFile | writeFile | overwriteFile | appendFile | readAndWrite | copyChannel
  | hereText (index : Nat)
deriving DecidableEq, Repr

mutual

/-- A part of a word.  What stands between double quotes is not divided, and a word with a quotation is never left
out. -/
inductive Part
  | char (char : Char) (isQuoted : Bool)
  | quotation
  | parameter (name : String) (use : Use) (inDouble : Bool)
  | output (body : Option Command) (inDouble : Bool)
  | arithmetic (text : List Part) (inDouble : Bool)

/-- How a parameter is used. -/
inductive Use
  | value
  | length
  | unknown
  | operated (operator : Operator) (mindsEmpty : Bool) (word : List Part)

/-- A change of where a channel of a command leads. -/
inductive Redirection
  | mk (channel : Nat) (direction : Direction) (target : List Part)

inductive Command
  | simple (line : Nat) (assignments : List (String × List Part)) (words : List (List Part))
      (redirections : List Redirection)
  | redirected (line : Nat) (body : Command) (redirections : List Redirection)
  | pipe (stages : List Command)
  | opposite (body : Command)
  | sequence (first second : Command)
  | both (first second : Command)
  | either (first second : Command)
  | background (line : Nat) (body : Command) (redirections : List Redirection)
  | subshell (line : Nat) (body : Command) (redirections : List Redirection)
  | branch (condition yes : Command) (no : Option Command)
  | loop (isUntil : Bool) (condition body : Command)
  | forEach (line : Nat) (name : String) (words : List (List Part)) (body : Command)
  | choose (line : Nat) (word : List Part) (cases : List (List (List Part) × Option Command))
  | define (name : String) (body : Command)

end

abbrev Word := List Part

namespace Redirection

def channel : Redirection → Nat
  | .mk channel _ _ => channel

def direction : Redirection → Direction
  | .mk _ direction _ => direction

def target : Redirection → Word
  | .mk _ _ target => target

end Redirection

def isNameStart (c : Char) : Bool := c.isAlpha || c = '_'

def isNameChar (c : Char) : Bool := c.isAlphanum || c = '_'

def isName : List Char → Bool
  | [] => false
  | c :: rest => isNameStart c && rest.all isNameChar

def isSpecial (c : Char) : Bool := c.isDigit || ['?', '$', '#', '@', '*', '!', '-'].contains c

namespace Word

def plain? : Word → Option (List Char)
  | [] => some []
  | .char c false :: rest => (plain? rest).map (c :: ·)
  | _ :: _ => none

def plainStart (accepts : Char → Bool) : Word → List Char × Word
  | .char c false :: rest =>
    if accepts c then
      let (start, rest) := plainStart accepts rest
      (c :: start, rest)
    else ([], .char c false :: rest)
  | word => ([], word)

def assignment? (word : Word) : Option (String × Word) :=
  match plainStart isNameChar word with
  | (name, .char '=' false :: value) => if isName name then some (String.ofList name, value) else none
  | _ => none

def bare : Word → List Char
  | [] => []
  | .char c _ :: rest => c :: bare rest
  | _ :: rest => bare rest

end Word

def allPositional : Word := [.parameter "@" .value true]

end Offside.Tool.Shell
