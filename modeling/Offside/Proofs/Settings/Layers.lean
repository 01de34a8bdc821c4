import Mathlib.Data.List.Basic
import Offside.Session

/-!
# Layers of settings

A setting is given by the last variable of the environment that is meant for it, or else by the configuration file, or
else by its default; flags come on top.  Each setting has a type of values of its own, so what holds of every setting is
said once, of any key.
-/

namespace Offside

namespace Settings

open Toml (Item Value Document)

/-! ## One setting among the others -/

/-- The type of the values of a setting. -/
@[reducible]
def Key.Value : Key → Type
  | .sourceExtension | .outputExtension => String
  | .banner | .recursive => Bool
  | .minifyCommand | .mangleArgs | .prettifyCommand => List String

/-- The value of a setting. -/
def get (settings : Settings) : (key : Key) → key.Value
  | .sourceExtension => settings.sourceExtension
  | .outputExtension => settings.outputExtension
  | .banner => settings.banner
  | .recursive => settings.recursive
  | .minifyCommand => settings.minifyCommand
  | .mangleArgs => settings.mangleArgs
  | .prettifyCommand => settings.prettifyCommand

/-- What a text stands for as the value of a setting. -/
def Key.valueOf : (key : Key) → String → key.Value
  | .sourceExtension, text | .outputExtension, text => extensionOf text
  | .banner, text | .recursive, text => isTruthy text
  | .minifyCommand, text | .mangleArgs, text | .prettifyCommand, text => Text.words text

instance (key : Key) : Setting key.Value :=
  match key with
  | .sourceExtension | .outputExtension => inferInstanceAs (Setting String)
  | .banner | .recursive => inferInstanceAs (Setting Bool)
  | .minifyCommand | .mangleArgs | .prettifyCommand => inferInstanceAs (Setting (List String))

/-- The settings with the given values. -/
def ofValues (value : (key : Key) → key.Value) : Settings :=
  ⟨value .sourceExtension, value .outputExtension, value .banner, value .recursive, value .minifyCommand,
    value .mangleArgs, value .prettifyCommand⟩

theorem get_ofValues (value : (key : Key) → key.Value) (key : Key) : (ofValues value).get key = value key := by
  cases key <;> rfl

theorem ext_get {settings other : Settings} (h : ∀ key, settings.get key = other.get key) : settings = other :=
  congrArg ofValues (funext h)

theorem get_set (settings : Settings) (key target : Key) (text : String) :
    (settings.set target text).get key = if target = key then key.valueOf text else settings.get key := by
  cases key <;> cases target <;> simp [set, get, Key.valueOf]

/-! ## Variables -/

/-- The variable is meant for the setting: behind the start of all such names, its name is that of the setting in any
mixture of cases. -/
def Key.IsFor (key : Key) (name : String) : Prop :=
  ∃ spelled : String, name = variableStart ++ spelled ∧ spelled.toList.map Text.lower = key.text.toList

theorem Key.isFor_iff {key : Key} {name : String} : key.IsFor name ↔ variableTarget? name = some key.text := by
  simp only [variableTarget?]
  constructor
  · rintro ⟨spelled, rfl, hspelled⟩
    have hstart : variableStart.toList.isPrefixOf (variableStart ++ spelled).toList = true := by
      rw [String.toList_append, List.isPrefixOf_iff_prefix]
      exact List.prefix_append ..
    rw [if_pos hstart, Option.some.injEq, ← String.toList_inj, String.toList_ofList, String.toList_append,
      List.drop_left, hspelled]
  · intro h
    split at h
    · rename_i hstart
      obtain ⟨rest, hrest⟩ := List.isPrefixOf_iff_prefix.1 hstart
      refine ⟨String.ofList rest, ?_, ?_⟩
      · rw [← String.toList_inj, String.toList_append, String.toList_ofList, hrest]
      · rw [← Option.some.inj h, ← hrest, List.drop_left, String.toList_ofList, String.toList_ofList]
    · cases h

instance (key : Key) : DecidablePred key.IsFor := fun _ => decidable_of_iff _ Key.isFor_iff.symm

theorem Key.ofText?_eq_some {name : String} {key : Key} : Key.ofText? name = some key ↔ key.text = name := by
  constructor
  · intro h
    exact beq_iff_eq.1 (List.find?_some (p := fun key : Key => key.text == name) h)
  · rintro rfl
    cases key <;> decide

/-- A variable gives a value to the setting that it is meant for, and to no other. -/
theorem get_applyVariable (settings : Settings) (key : Key) (name text : String) :
    (settings.applyVariable (name, text)).get key =
      if key.IsFor name then key.valueOf text else settings.get key := by
  rw [applyVariable]
  simp only [Key.isFor_iff]
  cases variableTarget? name with
  | none => simp
  | some target =>
    simp only [setNamed, Option.some.injEq]
    cases hkey : Key.ofText? target with
    | none =>
      have hother : target ≠ key.text := fun htarget => by simp [Key.ofText?_eq_some.2 htarget.symm] at hkey
      rw [if_neg hother]
    | some found =>
      have hsame : found = key ↔ target = key.text := by
        rw [← Key.ofText?_eq_some.1 hkey]
        constructor
        · intro hfound
          rw [hfound]
        · intro htext
          have hfound := Key.ofText?_eq_some.2 htext
          rwa [Key.ofText?_eq_some.2 rfl, Option.some.injEq, eq_comm] at hfound
      simp only [get_set, hsame]

/-- What the last variable that is meant for a setting says. -/
def lastFor? (key : Key) (environment : Environment) : Option String :=
  (environment.filter fun (name, _) => key.IsFor name).getLast?.map Prod.snd

/-- Only the last variable that is meant for a setting matters to it. -/
theorem get_applyVariables (settings : Settings) (key : Key) (environment : Environment) :
    (settings.applyVariables environment).get key =
      ((lastFor? key environment).map key.valueOf).getD (settings.get key) := by
  induction environment generalizing settings with
  | nil => rfl
  | cons first rest ih =>
    obtain ⟨name, text⟩ := first
    have hrest := ih (settings.applyVariable (name, text))
    rw [get_applyVariable] at hrest
    rw [applyVariables, List.foldl_cons]
    refine hrest.trans ?_
    by_cases hname : key.IsFor name
    · cases hlast : (rest.filter fun (name, _) => key.IsFor name).getLast? <;>
        simp [lastFor?, hname, List.getLast?_cons, hlast]
    · simp [lastFor?, hname]

/-! ## Files -/

/-- The value that a document gives to a setting. -/
def inDocument? (document : Document) (key : Key) : Option key.Value :=
  match document.item? key.text with
  | some (.value content) => Setting.ofValue? content
  | _ => none

/-- Whether a document gives values of the right types to the settings that it names. -/
def fits (document : Document) : Bool :=
  Key.all.all fun key => (document.item? key.text).isNone || (inDocument? document key).isSome

theorem read?_of_fits {document : Document} (h : fits document = true) (key : Key) :
    read? document key (initial.get key) = some ((inDocument? document key).getD (initial.get key)) := by
  have hall : key ∈ Key.all := by cases key <;> decide
  have hkey := List.all_eq_true.1 h key hall
  unfold inDocument? at hkey ⊢
  unfold read?
  cases hitem : document.item? key.text with
  | none => rfl
  | some item =>
    rw [hitem] at hkey
    cases item with
    | value content =>
      obtain ⟨value, hvalue⟩ := Option.isSome_iff_exists.1 hkey
      simp only at hvalue
      simp [hvalue]
    | table _ _ _ => cases hkey
    | tables _ => cases hkey

/-- A document replaces the defaults of the settings that it names. -/
theorem exists_ofDocument? {document : Document} (h : fits document = true) : ∃ settings,
    ofDocument? document = some settings ∧
      ∀ key, settings.get key = (inDocument? document key).getD (initial.get key) := by
  refine ⟨ofValues fun key => (inDocument? document key).getD (initial.get key), ?_, get_ofValues _⟩
  have hread := read?_of_fits h
  have hsource : read? document .sourceExtension initial.sourceExtension = _ := hread .sourceExtension
  have houtput : read? document .outputExtension initial.outputExtension = _ := hread .outputExtension
  have hbanner : read? document .banner initial.banner = _ := hread .banner
  have hrecursive : read? document .recursive initial.recursive = _ := hread .recursive
  have hminify : read? document .minifyCommand initial.minifyCommand = _ := hread .minifyCommand
  have hmangle : read? document .mangleArgs initial.mangleArgs = _ := hread .mangleArgs
  have hprettify : read? document .prettifyCommand initial.prettifyCommand = _ := hread .prettifyCommand
  rw [ofDocument?, hsource, houtput, hbanner, hrecursive, hminify, hmangle, hprettify]
  rfl

/-! ## Flags -/

/-- What flags make of the value of a setting. -/
def Key.under (flags : Flags) : (key : Key) → key.Value → key.Value
  | .banner, value => value && !flags.noBanner
  | .recursive, value => value || flags.recursive
  | .sourceExtension, value | .outputExtension, value => value
  | .minifyCommand, value | .mangleArgs, value | .prettifyCommand, value => value

theorem get_applyFlags (settings : Settings) (flags : Flags) (key : Key) :
    (settings.applyFlags flags).get key = key.under flags (settings.get key) := by
  cases key <;> rfl

end Settings

namespace Session

open Settings (Key lastFor? inDocument? fits initial)
open Toml (Document)

/-- The document of the configuration file that a session uses, if it uses one. -/
def Configured (tree : FileTree) (named : Option Path) : Option Document → Prop
  | none => named = none ∧ tree.exists? defaultFile = false
  | some document => ∃ path text, (named = some path ∨ named = none ∧ tree.exists? path = true ∧ path = defaultFile) ∧
      (tree.read path).toOption = some text ∧ Document.read? text = some document

/-- The settings in front of the environment. -/
theorem exists_loadSettings {tree : FileTree} {named : Option Path} {file : Option Document}
    (hfile : Configured tree named file) (hfits : ∀ document ∈ file, fits document = true) : ∃ settings : Settings,
      (∀ environment, loadSettings tree named environment = .ok (settings.applyVariables environment)) ∧
      ∀ key, settings.get key = (file.bind (inDocument? · key)).getD (initial.get key) := by
  cases file with
  | none =>
    obtain ⟨rfl, hmissing⟩ := hfile
    refine ⟨initial, fun environment => ?_, fun key => rfl⟩
    simp only [loadSettings, hmissing]
    rfl
  | some document =>
    obtain ⟨path, text, hpath, hread, hdocument⟩ := hfile
    obtain ⟨settings, hsettings, hget⟩ := Settings.exists_ofDocument? (hfits document rfl)
    have htext : Settings.ofText? text = some settings := by simp [Settings.ofText?, hdocument, hsettings]
    have hof : settingsOf tree path = .ok settings := by
      cases hfound : tree.read path with
      | error fault => simp [hfound, Except.toOption] at hread
      | ok found =>
        rw [hfound] at hread
        cases hread
        simp only [settingsOf, hfound, Except.mapError, bind, Except.bind, htext]
        rfl
    refine ⟨settings, fun environment => ?_, hget⟩
    rcases hpath with rfl | ⟨rfl, hexists, rfl⟩
    · simp only [loadSettings, hof]
      rfl
    · simp only [loadSettings, hexists, hof, if_true]
      rfl

/-- Whatever the configuration file sets, the settings of a session are loaded, and each one is what the last variable
meant for it says, or else what the file says, or else its default, with the flags on top.  Only the order of the
variables that are meant for one setting matters, and other variables do not. -/
theorem get_loadSettings {tree : FileTree} {named : Option Path} {file : Option Document}
    (hfile : Configured tree named file) (hfits : ∀ document ∈ file, fits document = true)
    (environment : Environment) (flags : Flags) : ∃ settings : Settings,
      loadSettings tree named environment = .ok settings ∧
      (∀ key : Key, (settings.applyFlags flags).get key = key.under flags
        (((lastFor? key environment).map key.valueOf).getD ((file.bind (inDocument? · key)).getD (initial.get key)))) ∧
      ∀ other : Environment, (∀ key : Key, (other.filter fun (name, _) => key.IsFor name) =
          environment.filter fun (name, _) => key.IsFor name) → loadSettings tree named other = .ok settings := by
  obtain ⟨settings, hload, hget⟩ := exists_loadSettings hfile hfits
  refine ⟨settings.applyVariables environment, hload environment, fun key => ?_, fun other hsame => ?_⟩
  · rw [Settings.get_applyFlags, Settings.get_applyVariables, hget]
  · rw [hload other]
    congr 1
    apply Settings.ext_get
    intro key
    rw [Settings.get_applyVariables, Settings.get_applyVariables, lastFor?, hsame key]
    rfl

/-- A file that sets nothing of a build, and variables that are spelled in several ways. -/
theorem get_loadSettings_spellings :
    let tree : FileTree := ⟨[(["c"], .file "[other]\n".toUTF8)], []⟩
    let environment : Environment := [("CLEANSCRIPT_RECURSIVE", "on"), ("CLEANSCRIPT_source_Extension", " .x "),
      ("CLEANSCRIPT_Recursive", "off"), ("RECURSIVE", "on"), ("CLEANSCRIPT_CONFIG", "c")]
    ∃ document, Configured tree (some ⟨"c"⟩) (some document) ∧ fits document = true ∧ ∃ settings : Settings,
      loadSettings tree (some ⟨"c"⟩) environment = .ok settings ∧
      (settings.applyFlags {}).get .recursive = false ∧ (settings.applyFlags {}).get .sourceExtension = "x" := by
  intro tree environment
  have hread : (tree.read ⟨"c"⟩).toOption = some "[other]\n" := by decide +kernel
  have hsome : (Document.read? "[other]\n").isSome = true := by decide +kernel
  obtain ⟨document, hdocument⟩ := Option.isSome_iff_exists.1 hsome
  have hfits : ∀ found ∈ Document.read? "[other]\n", fits found = true := by decide +kernel
  have hfile : Configured tree (some ⟨"c"⟩) (some document) := ⟨⟨"c"⟩, _, .inl rfl, hread, hdocument⟩
  have hdocumentFits : ∀ found ∈ some document, fits found = true := hdocument ▸ hfits
  obtain ⟨settings, hload, hget, -⟩ := get_loadSettings hfile hdocumentFits environment {}
  have hlast : lastFor? .recursive environment = some "off" ∧ lastFor? .sourceExtension environment = some " .x " := by
    decide +kernel
  refine ⟨document, hfile, hdocumentFits document rfl, settings, hload, ?_, ?_⟩
  · rw [hget, hlast.1, Option.map_some, Option.getD_some]
    decide +kernel
  · rw [hget, hlast.2, Option.map_some, Option.getD_some]
    decide +kernel

end Session

end Offside
