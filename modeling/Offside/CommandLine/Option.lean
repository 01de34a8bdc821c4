/-!
# Options of the command line

The commands, the options each of them takes, and the ways a command line is refused.
-/

namespace Offside.CommandLine

inductive Command
  | compile
  | watch
deriving DecidableEq, Repr

/-- Options that are given or not. -/
inductive Switch
  | verbose | recursive | minify | mangle | prettify | noBanner | stdout
deriving DecidableEq, Repr

/-- What a word of the command line can ask for. -/
inductive Request
  | switch (switch : Switch)
  | config
  | help
  | version
deriving DecidableEq, Repr

/-- What help is asked for. -/
inductive Topic
  | program
  | command (command : Command)
  | help
deriving DecidableEq, Repr

/-- Why a command line runs no command.  Help and the version are asked for; the rest are mistakes. -/
inductive Refusal
  | help (topic : Topic)
  | version (command : Option Command)
  | nothingGiven
  | missingCommand
  | unknownCommand
  | unknownArgument
  | missingArgument
  | conflict
  | badValue
  | needlessValue
deriving DecidableEq, Repr

/-- The exit status of a refused command line. -/
def Refusal.status : Refusal → Nat
  | .help _ | .version _ => 0
  | _ => 2

namespace Command

def name : Command → String
  | .compile => "compile"
  | .watch => "watch"

/-- The command with a name or a short name. -/
def ofName? (name : String) : Option Command :=
  if name = "compile" || name = "c" then some .compile
  else if name = "watch" || name = "w" then some .watch
  else none

end Command

/-- The part of the command line that options stand in: before the command, or behind it. -/
abbrev Scope := Option Command

/-- What help is about in a part of the command line. -/
def Scope.topic : Scope → Topic
  | none => .program
  | some command => .command command

/-- The request of a long option. -/
def longRequest? (scope : Scope) (name : String) : Option Request :=
  let everywhere : List (String × Request) :=
    [("verbose", .switch .verbose), ("config", .config), ("help", .help), ("version", .version)]
  let inCommand : List (String × Request) :=
    [("recursive", .switch .recursive), ("minify", .switch .minify), ("mangle", .switch .mangle),
      ("prettify", .switch .prettify), ("no-banner", .switch .noBanner), ("stdout", .switch .stdout)]
  (if scope.isSome then everywhere ++ inCommand else everywhere).lookup name

/-- The request of a one-letter option. -/
def shortRequest? (scope : Scope) (letter : Char) : Option Request :=
  let everywhere : List (Char × Request) := [('v', .switch .verbose), ('h', .help), ('V', .version)]
  let inCommand : List (Char × Request) :=
    [('r', .switch .recursive), ('m', .switch .minify), ('p', .switch .prettify)]
  (if scope.isSome then everywhere ++ inCommand else everywhere).lookup letter

/-- A word of the command line by its form. -/
inductive Word
  | escape
  | long (name : String) (value : Option String)
  | short (letters : List Char)
  | plain (text : String)
deriving DecidableEq, Repr

/-- Two dashes start a long option, one dash starts letters, and a dash alone is a word like others. -/
def Word.ofText (text : String) : Word :=
  match text.toList with
  | ['-', '-'] => .escape
  | '-' :: '-' :: rest =>
    let name := rest.takeWhile (· ≠ '=')
    let value := if rest.contains '=' then some (String.ofList (rest.drop (name.length + 1))) else none
    .long (String.ofList name) value
  | '-' :: letter :: letters => .short (letter :: letters)
  | _ => .plain text

end Offside.CommandLine
