import Offside.Settings
import Offside.Toml.Reader

/-!
# Configuration files

A configuration file is a TOML document.  Each setting it names must have a value of the right type; the settings
it does not name have their defaults, and other keys are ignored.
-/

namespace Offside.Settings

open Toml (Item Value Document)

/-- A value of a document that a setting can have. -/
class Setting (α : Type) where
  ofValue? : Value → Option α

/-- The texts of a list in which all elements are texts. -/
def texts? : List Value → Option (List String)
  | [] => some []
  | .string text :: rest => (texts? rest).map (text :: ·)
  | _ :: _ => none

instance : Setting String where
  ofValue?
    | .string text => some text
    | _ => none

instance : Setting Bool where
  ofValue?
    | .boolean value => some value
    | _ => none

instance : Setting (List String) where
  ofValue?
    | .array elements => texts? elements
    | _ => none

/-- The value of a setting in a document, or the default if the document does not name it. -/
def read? [Setting α] (document : Document) (key : Key) (default : α) : Option α :=
  match document.item? key.text with
  | none => some default
  | some (.value content) => Setting.ofValue? content
  | some _ => none

/-- The settings of a document. -/
def ofDocument? (document : Document) : Option Settings := do
  return {
    sourceExtension := ← read? document .sourceExtension initial.sourceExtension
    outputExtension := ← read? document .outputExtension initial.outputExtension
    banner := ← read? document .banner initial.banner
    recursive := ← read? document .recursive initial.recursive
    minifyCommand := ← read? document .minifyCommand initial.minifyCommand
    mangleArgs := ← read? document .mangleArgs initial.mangleArgs
    prettifyCommand := ← read? document .prettifyCommand initial.prettifyCommand }

/-- The settings of a configuration file, from its text. -/
def ofText? (text : String) : Option Settings := do ofDocument? (← Document.read? text)

end Offside.Settings
