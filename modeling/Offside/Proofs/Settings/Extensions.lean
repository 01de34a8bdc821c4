import Offside.Proofs.Settings.Layers

/-!
# Extensions without dots

The extension that a text stands for is the text without white space around it and then without dots in front.  So it
starts with no dot and ends in no white space, but it starts with white space if the text has some behind its dots.  The
extension in a configuration file is taken as it is.
-/

namespace Offside.Settings

open Toml (Document)

/-- One way to change settings.  A document with values of other types changes nothing. -/
inductive Step
  | set (name text : String)
  | merge (environment : Environment)
  | flags (given : Flags)
  | load (document : Document)

def Step.apply (settings : Settings) : Step → Settings
  | .set name text => settings.setNamed name text
  | .merge environment => settings.applyVariables environment
  | .flags given => settings.applyFlags given
  | .load document => (ofDocument? document).getD settings

/-- The texts that a step gives to settings by their names. -/
def Step.texts : Step → List String
  | .set _ text => [text]
  | .merge environment => environment.map Prod.snd
  | _ => []

def extensions (settings : Settings) : List String := [settings.sourceExtension, settings.outputExtension]

/-- The extensions of the settings that a step loads. -/
def Step.loaded : Step → List String
  | .load document => (ofDocument? document).toList.flatMap extensions
  | _ => []

/-! ## What is cut off -/

theorem head?_extensionOf (text : String) : (extensionOf text).toList.head? ≠ some '.' := by
  have hnot := List.head?_dropWhile_not (fun c => decide (c = '.')) (Text.trim text.toList)
  intro hdot
  rw [extensionOf, String.toList_ofList] at hdot
  rw [hdot] at hnot
  simp at hnot

theorem not_isBlank_head?_dropWhile (text : List Char) : ∀ c ∈ (text.dropWhile Text.isBlank).head?, ¬Text.isBlank c := by
  intro c hc
  have hnot := List.head?_dropWhile_not Text.isBlank text
  rw [Option.mem_def.1 hc] at hnot
  simpa using hnot

theorem not_isBlank_getLast?_trim (text : List Char) : ∀ c ∈ (Text.trim text).getLast?, ¬Text.isBlank c := by
  rw [Text.trim, Text.trimEnd, List.getLast?_reverse]
  exact not_isBlank_head?_dropWhile _

theorem not_isBlank_getLast?_extensionOf (text : String) :
    ∀ c ∈ (extensionOf text).toList.getLast?, ¬Text.isBlank c := by
  obtain ⟨dots, htrim⟩ := List.dropWhile_suffix (fun c => decide (c = '.')) (l := Text.trim text.toList)
  intro c hc
  apply not_isBlank_getLast?_trim text.toList c
  rw [← htrim, List.getLast?_append]
  rw [extensionOf, String.toList_ofList] at hc
  rw [Option.mem_def.1 hc]
  rfl

theorem not_isBlank_head?_trim (text : List Char) : ∀ c ∈ (Text.trim text).head?, ¬Text.isBlank c := by
  obtain ⟨rest, hrest⟩ : Text.trim text <+: text.dropWhile Text.isBlank := by
    rw [← List.reverse_suffix, Text.trim, Text.trimEnd, List.reverse_reverse]
    exact List.dropWhile_suffix _
  intro c hc
  apply not_isBlank_head?_dropWhile text c
  rw [← hrest, List.head?_append, Option.mem_def.1 hc]
  rfl

/-- White space is left in front only behind a dot. -/
theorem head?_trim_of_isBlank {text : String} {c : Char} (hc : (extensionOf text).toList.head? = some c)
    (hblank : Text.isBlank c) : (Text.trim text.toList).head? = some '.' := by
  by_contra hdot
  have hsame : (extensionOf text).toList = Text.trim text.toList := by
    rw [extensionOf, String.toList_ofList]
    cases htrim : Text.trim text.toList with
    | nil => rfl
    | cons first rest => exact List.dropWhile_cons_of_neg (by simpa [htrim] using hdot)
  exact not_isBlank_head?_trim _ c (hsame ▸ hc) hblank

/-! ## Steps -/

/-- A variable changes nothing exactly if its text stands for the value that is there. -/
theorem applyVariable_eq_self {settings : Settings} {key : Key} {name text : String} (hname : key.IsFor name) :
    settings.applyVariable (name, text) = settings ↔ key.valueOf text = settings.get key := by
  constructor
  · intro hsame
    rw [← congrArg (get · key) hsame, get_applyVariable, if_pos hname]
  · intro hvalue
    apply ext_get
    intro other
    rw [get_applyVariable]
    split
    · rename_i hother
      have htexts : key.text = other.text :=
        Option.some.inj ((Key.isFor_iff.1 hname).symm.trans (Key.isFor_iff.1 hother))
      have hkeys : key = other :=
        Option.some.inj ((Key.ofText?_eq_some.2 htexts).symm.trans (Key.ofText?_eq_some.2 rfl))
      rw [← hkeys, hvalue]
    · rfl

theorem mem_extensions_setNamed {settings : Settings} {name text extension : String}
    (h : extension ∈ (settings.setNamed name text).extensions) :
    extension ∈ settings.extensions ∨ extension = extensionOf text := by
  rw [setNamed] at h
  split at h
  · rename_i key hkey
    cases key <;> simp_all [set, extensions]
    all_goals tauto
  · exact .inl h

theorem mem_extensions_applyVariables {environment : Environment} {settings : Settings} {extension : String}
    (h : extension ∈ (settings.applyVariables environment).extensions) :
    extension ∈ settings.extensions ∨ extension ∈ environment.map fun (_, text) => extensionOf text := by
  induction environment generalizing settings with
  | nil => exact .inl h
  | cons first rest ih =>
    obtain ⟨name, text⟩ := first
    rcases ih h with hfirst | hrest
    · rw [applyVariable] at hfirst
      split at hfirst
      · rcases mem_extensions_setNamed hfirst with hold | rfl
        · exact .inl hold
        · exact .inr List.mem_cons_self
      · exact .inl hfirst
    · exact .inr (List.mem_cons_of_mem _ hrest)

/-- The extensions behind a step were there before it, or a text that it gives stands for them, or it loads them. -/
theorem mem_extensions_apply {settings : Settings} {step : Step} {extension : String}
    (h : extension ∈ (step.apply settings).extensions) :
    extension ∈ settings.extensions ∨ extension ∈ step.texts.map extensionOf ∨ extension ∈ step.loaded := by
  cases step with
  | set name text =>
    rcases mem_extensions_setNamed h with hold | rfl
    · exact .inl hold
    · exact .inr (.inl List.mem_cons_self)
  | merge environment =>
    rcases mem_extensions_applyVariables h with hold | hnew
    · exact .inl hold
    · exact .inr (.inl (by simpa [Step.texts] using hnew))
  | flags given => exact .inl h
  | load document =>
    rw [Step.apply] at h
    cases hloaded : ofDocument? document with
    | none => exact .inl (by simpa [hloaded] using h)
    | some found => exact .inr (.inr (by simpa [Step.loaded, hloaded] using h))

theorem mem_extensions_foldl {steps : List Step} {settings : Settings} {extension : String}
    (h : extension ∈ (steps.foldl Step.apply settings).extensions) : extension ∈ settings.extensions ∨
      extension ∈ (steps.flatMap Step.texts).map extensionOf ∨ extension ∈ steps.flatMap Step.loaded := by
  induction steps generalizing settings with
  | nil => exact .inl h
  | cons step steps ih =>
    rw [List.flatMap_cons, List.map_append, List.mem_append, List.flatMap_cons, List.mem_append]
    rcases ih h with hstep | htexts | hloaded
    · rcases mem_extensions_apply hstep with hold | htexts | hloaded
      · exact .inl hold
      · exact .inr (.inl (.inl htexts))
      · exact .inr (.inr (.inl hloaded))
    · exact .inr (.inl (.inr htexts))
    · exact .inr (.inr (.inr hloaded))

/-- Behind any steps, an extension starts with a dot or ends in white space only if it was loaded, and it starts with
white space only if it was loaded or a text with a dot in front stands for it.  To give it again by a variable changes
nothing exactly if it stands for itself. -/
theorem extensions_foldl (steps : List Step) :
    let settings := steps.foldl Step.apply initial
    (∀ extension ∈ settings.extensions,
      (extension.toList.head? = some '.' → extension ∈ steps.flatMap Step.loaded) ∧
      (∀ c ∈ extension.toList.getLast?, Text.isBlank c → extension ∈ steps.flatMap Step.loaded) ∧
      ∀ c ∈ extension.toList.head?, Text.isBlank c → extension ∈ steps.flatMap Step.loaded ∨
        ∃ text ∈ steps.flatMap Step.texts, extension = extensionOf text ∧ (Text.trim text.toList).head? = some '.') ∧
    (∀ name, Key.sourceExtension.IsFor name → (settings.applyVariable (name, settings.sourceExtension) = settings ↔
      extensionOf settings.sourceExtension = settings.sourceExtension)) ∧
    ∀ name, Key.outputExtension.IsFor name → (settings.applyVariable (name, settings.outputExtension) = settings ↔
      extensionOf settings.outputExtension = settings.outputExtension) := by
  intro settings
  refine ⟨fun extension hextension => ?_, ?_, ?_⟩
  · rcases mem_extensions_foldl hextension with hinitial | htexts | hloaded
    · have hdefaults : ∀ extension ∈ initial.extensions, extension.toList.head? ≠ some '.' ∧
          extension.toList.getLast?.any Text.isBlank = false ∧ extension.toList.head?.any Text.isBlank = false := by
        decide +kernel
      obtain ⟨hdot, hlast, hfirst⟩ := hdefaults extension hinitial
      rw [Option.any_eq_false] at hlast hfirst
      exact ⟨fun h => absurd h hdot, fun c hc h => absurd h (Bool.eq_false_iff.1 (hlast c hc)),
        fun c hc h => absurd h (Bool.eq_false_iff.1 (hfirst c hc))⟩
    · obtain ⟨text, htext, rfl⟩ := List.mem_map.1 htexts
      exact ⟨fun h => absurd h (head?_extensionOf text),
        fun c hc h => absurd h (not_isBlank_getLast?_extensionOf text c hc),
        fun c hc h => .inr ⟨text, htext, rfl, head?_trim_of_isBlank hc h⟩⟩
    · exact ⟨fun _ => hloaded, fun _ _ _ => hloaded, fun _ _ _ => .inl hloaded⟩
  · exact fun name hname => applyVariable_eq_self hname
  · exact fun name hname => applyVariable_eq_self hname

/-- A dot stays in an extension of a file and not in one of the environment, and white space stays behind a dot. -/
theorem extensions_foldl_dotted :
    let dotted : Document := ⟨.table false false [("source_extension", .value (.string ".csc"))], []⟩
    ([.load dotted].foldl Step.apply initial).extensions = [".csc", "js"] ∧
    ([.merge [("CLEANSCRIPT_SOURCE_EXTENSION", ".csc")]].foldl Step.apply initial).extensions = ["csc", "js"] ∧
    ([.set "source_extension" ". csc"].foldl Step.apply initial).extensions = [" csc", "js"] := by
  decide +kernel

end Offside.Settings
