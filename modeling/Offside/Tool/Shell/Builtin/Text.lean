import Offside.Tool.Shell.Condition
import Offside.Tool.Shell.Format
import Offside.Tool.Shell.Lookup

/-!
# Texts

The commands of the shell that print, test and read texts.
-/

namespace Offside.Tool.Shell.Builtin

/-- The words of an output with blanks between them, and the end of the line unless a word ends the text. -/
def echoed (ending : List Char) : List String → List Char
  | [] => ending
  | word :: rest =>
    let found := Format.unescaped word
    if found.isCut then found.text
    else if rest.isEmpty then found.text ++ ending
    else found.text ++ ' ' :: echoed ending rest

def echo (words : List String) : Run Nat := do
  match words with
  | "-n" :: rest => Run.out (String.ofList (echoed [] rest))
  | words => Run.out (String.ofList (echoed ['\n'] words))
  return 0

def printf (words : List String) : Run Nat :=
  Run.withOptions [] words fun _ words => do
    match words with
    | [] =>
      Run.raise "usage: printf format [arg ...]"
      return 2
    | format :: arguments =>
      let draft := Format.print format arguments
      for fault in draft.faults do
        Run.report fault
      Run.out (String.ofList draft.text.reverse)
      return draft.code

def test (shelf : Shelf) (words : List String) : Run Nat := do
  let state ← get
  let isProgram (path : String) : Bool := path.toList.contains '/' && (programAt shelf state.tree path).toBool
  match Condition.test { tree := state.tree, isProgram } words with
  | .ok result => return if result then 0 else 1
  | .error fault =>
    Run.raise fault.message
    return 2

def bracket (shelf : Shelf) (words : List String) : Run Nat := do
  if words.getLast? = some "]" then test shelf words.dropLast
  else
    Run.raise "missing ]"
    return 2

/-! ## Reading -/

/-- A line that is being read: what was read of it, with the last part first, whether it has an end, and what follows
it. -/
structure LineDraft where
  items : List Item := []
  plain : List Glyph := []
  hasEnd : Bool := false
  rest : Bytes := []

namespace LineDraft

def close (draft : LineDraft) : LineDraft :=
  { draft with items := .region false draft.plain.reverse :: draft.items, plain := [] }

/-- Reads up to the end of a line.  A backslash keeps the next character from being a separator or the end of the line
unless lines are read as they are. -/
def read (isRaw : Bool) : LineDraft → (isEscaped : Bool) → Bytes → LineDraft
  | draft, _, [] => draft.close
  | draft, isEscaped, byte :: rest =>
    let c := Char.ofNat byte.toNat
    if byte = 0 then read isRaw draft isEscaped rest
    else if isEscaped then
      let closed := draft.close
      read isRaw (if c = '\n' then closed else { closed with items := .glyph ⟨c, true⟩ :: closed.items }) false rest
    else if c = '\\' && !isRaw then read isRaw draft true rest
    else if c = '\n' then { draft.close with hasEnd := true, rest }
    else read isRaw { draft with plain := ⟨c, false⟩ :: draft.plain } false rest

end LineDraft

/-- Gives names their values in turn.  Names without values become empty. -/
def assignAll : (names values : List String) → Run Unit
  | [], _ => pure ()
  | name :: names, values => do
    if ← Run.goesOn then
      Run.assign name (values.headD "")
      assignAll names (values.drop 1)

def read (words : List String) : Run Nat :=
  Run.withOptions [('p', true), ('r', false)] words fun options names => do
    if names.isEmpty then
      Run.raise "arg count"
      return 2
    else
      let state ← get
      let draft := LineDraft.read (options.any (·.1 = 'r')) {} false state.input
      set (state.leaveInput draft.rest)
      assignAll names (sharesOf state.separators names.length draft.items.reverse)
      return if draft.hasEnd then 0 else 1

end Offside.Tool.Shell.Builtin
