import Offside.Environment
import Offside.Text.Blank

/-!
# Settings

A build has seven settings.  They start from defaults, a configuration file replaces some of them, variables of
the environment replace others, and flags of the command line come last.
-/

namespace Offside

/-- What a build is told besides its target. -/
structure Settings where
  sourceExtension : String
  outputExtension : String
  banner : Bool
  recursive : Bool
  minifyCommand : List String
  mangleArgs : List String
  prettifyCommand : List String
deriving DecidableEq, Repr

/-- The flags of a build. -/
structure Flags where
  recursive : Bool := false
  minify : Bool := false
  mangle : Bool := false
  prettify : Bool := false
  noBanner : Bool := false
  stdout : Bool := false
deriving DecidableEq, Repr

namespace Settings

/-- The settings of a build that nobody configured. -/
def initial : Settings where
  sourceExtension := "csc"
  outputExtension := "js"
  banner := true
  recursive := false
  minifyCommand := ["terser", "--compress"]
  mangleArgs := ["--mangle", "--toplevel"]
  prettifyCommand := ["prettier", "--parser", "babel"]

/-- The names of the settings. -/
inductive Key
  | sourceExtension | outputExtension | banner | recursive | minifyCommand | mangleArgs
  | prettifyCommand
deriving DecidableEq, Repr

namespace Key

def text : Key → String
  | .sourceExtension => "source_extension"
  | .outputExtension => "output_extension"
  | .banner => "banner"
  | .recursive => "recursive"
  | .minifyCommand => "minify_command"
  | .mangleArgs => "mangle_args"
  | .prettifyCommand => "prettify_command"

def all : List Key :=
  [.sourceExtension, .outputExtension, .banner, .recursive, .minifyCommand, .mangleArgs,
    .prettifyCommand]

def ofText? (name : String) : Option Key := all.find? (·.text == name)

end Key

/-- An extension without white space around it and without dots in front. -/
def extensionOf (value : String) : String :=
  String.ofList ((Text.trim value.toList).dropWhile (· = '.'))

/-- Whether a text switches something on. -/
def isTruthy (value : String) : Bool :=
  let word := String.ofList ((Text.trim value.toList).map Char.toLower)
  ["1", "true", "yes", "on"].contains word

/-- Gives a setting the value that a text stands for. -/
def set (settings : Settings) (key : Key) (value : String) : Settings :=
  match key with
  | .sourceExtension => { settings with sourceExtension := extensionOf value }
  | .outputExtension => { settings with outputExtension := extensionOf value }
  | .banner => { settings with banner := isTruthy value }
  | .recursive => { settings with recursive := isTruthy value }
  | .minifyCommand => { settings with minifyCommand := Text.words value }
  | .mangleArgs => { settings with mangleArgs := Text.words value }
  | .prettifyCommand => { settings with prettifyCommand := Text.words value }

/-- As `set`, for the name of a setting.  Other names are ignored. -/
def setNamed (settings : Settings) (name value : String) : Settings :=
  match Key.ofText? name with
  | some key => settings.set key value
  | none => settings

/-- What the name of a variable of the environment starts with if it is meant for a build. -/
def variableStart : String := "CLEANSCRIPT_"

/-- The name of the setting that a variable is meant for, in lower case. -/
def variableTarget? (name : String) : Option String :=
  let start := variableStart.toList
  if start.isPrefixOf name.toList then
    some (String.ofList ((name.toList.drop start.length).map Text.lower))
  else none

/-- Applies one variable of the environment. -/
def applyVariable (settings : Settings) : String × String → Settings
  | (name, value) =>
    match variableTarget? name with
    | some target => settings.setNamed target value
    | none => settings

/-- Applies the variables of the environment, later ones over earlier ones. -/
def applyVariables (settings : Settings) (environment : Environment) : Settings :=
  environment.foldl applyVariable settings

/-- Applies the flags of the command line. -/
def applyFlags (settings : Settings) (flags : Flags) : Settings :=
  { settings with
    recursive := settings.recursive || flags.recursive
    banner := settings.banner && !flags.noBanner }

end Settings

end Offside
