import Offside.CommandLine.Option

/-!
# Help

The texts that explain the program and its commands.  A text says what its topic is for and how it is used, and
lists commands, operands and options in two columns.
-/

namespace Offside.CommandLine

/-- A line of a list: what is written on the command line, and what it means. -/
structure Entry where
  form : String
  about : String
deriving DecidableEq, Repr

namespace Entry

/-- An option by its letter, its name and the placeholder of its value. -/
def ofOption (letter : Option Char) (name : String) (value : Option String) (about : String) : Entry :=
  let front := match letter with
    | some letter => String.ofList ['-', letter, ',', ' ']
    | none => "    "
  let placeholder := match value with
    | some value => s!" <{value}>"
    | none => ""
  ⟨front ++ "--" ++ name ++ placeholder, about⟩

def text (width : Nat) (entry : Entry) : String :=
  let gap := String.ofList (List.replicate (width - entry.form.length) ' ')
  s!"  {entry.form}{gap}  {entry.about}\n"

/-- A list under its title.  All meanings start in one column. -/
def list (title : String) (entries : List Entry) : String :=
  let width := (entries.map (·.form.length)).foldl max 0
  s!"\n{title}:\n" ++ String.join (entries.map (text width))

end Entry

/-- What the option for the file of configuration means, with the value it has from the environment. -/
def configEntry (variableValue : Option String) : Entry :=
  .ofOption none "config" (some "CONFIG")
    ("Configuration file (default: ./cleanscript.toml if present) [env: CLEANSCRIPT_CONFIG="
      ++ variableValue.getD "" ++ "]")

def verboseEntry : Entry := .ofOption (some 'v') "verbose" none "Enable verbose output"

/-- The options that every list ends with. -/
def lastEntries : List Entry :=
  [.ofOption (some 'h') "help" none "Print help", .ofOption (some 'V') "version" none "Print version"]

def Command.about : Command → String
  | .compile => "Compile a file, or every source file in a directory"
  | .watch => "Compile, then recompile sources as they change"

def helpAbout : String := "Print this message or the help of the given subcommand(s)"

/-- The text about the program. -/
def programHelp (variableValue : Option String) : String :=
  let commands := [Command.compile, .watch].map fun command => Entry.mk command.name command.about
  "Command line compiler for the Cleanscript language\n\nUsage: cleanscript [OPTIONS] <COMMAND>\n"
    ++ Entry.list "Commands" (commands ++ [⟨"help", helpAbout⟩])
    ++ Entry.list "Options" (verboseEntry :: configEntry variableValue :: lastEntries)

/-- The text about a command. -/
def commandHelp (variableValue : Option String) (command : Command) : String :=
  let options : List Entry :=
    [.ofOption (some 'r') "recursive" none "Descend into subdirectories",
      verboseEntry,
      configEntry variableValue,
      .ofOption (some 'm') "minify" none "Pipe the output through the configured minifier",
      .ofOption none "mangle" none "Mangle top-level names while minifying",
      .ofOption (some 'p') "prettify" none "Pipe the output through the configured formatter",
      .ofOption none "no-banner" none "Omit the \"Compiled by Cleanscript\" comment",
      .ofOption none "stdout" none "Print the JavaScript instead of writing a file"]
  s!"{command.about}\n\nUsage: cleanscript {command.name} [OPTIONS] <TARGET>\n"
    ++ Entry.list "Arguments" [⟨"<TARGET>", "Source file or directory"⟩]
    ++ Entry.list "Options" (options ++ lastEntries)

/-- The text about a topic. -/
def helpText (variableValue : Option String) : Topic → String
  | .program => programHelp variableValue
  | .command command => commandHelp variableValue command
  | .help =>
    s!"{helpAbout}\n\nUsage: cleanscript help [COMMAND]...\n"
      ++ Entry.list "Arguments" [⟨"[COMMAND]...", "Print help for the subcommand(s)"⟩]

end Offside.CommandLine
