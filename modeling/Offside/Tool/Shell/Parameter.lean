import Offside.Tool.Shell.Options

/-!
# Parameters

The values of parameters, and what they come to in a word.
-/

namespace Offside.Tool.Shell

def State.joint (state : State) : String :=
  match state.value? "IFS" with
  | some separators => String.ofList (separators.toList.take 1)
  | none => " "

def State.parameter? (state : State) (name : String) : Option String :=
  match name with
  | "@" | "*" => some (state.joint.intercalate state.positional)
  | "#" => some (toString state.positional.length)
  | "?" => some (toString state.code)
  | "$" => some (toString ownProcess)
  | "!" => state.lastProcess.map toString
  | "-" => some state.switchLetters
  | "0" => some state.name
  | name =>
    if name.toList.all Char.isDigit then
      match name.toNat? with
      | some 0 => some state.name
      | some (n + 1) => state.positional[n]?
      | none => none
    else state.value? name

def glyphsOfText (isQuoted : Bool) (text : String) : List Glyph := text.toList.map fun c => ⟨c, isQuoted⟩

def replaced (inDouble : Bool) (text : String) : List Item :=
  if inDouble then (glyphsOfText true text).map .glyph else [.region false (glyphsOfText false text)]

def State.isBroken (state : State) (isDivided inDouble : Bool) (name : String) : Bool :=
  isDivided && ((name = "@" && inDouble)
    || ((name = "@" || name = "*") && !inDouble && (state.value? "IFS").isSome))

def brokenItems (inDouble : Bool) (texts : List String) : List Item :=
  if inDouble && texts.isEmpty then []
  else
    [.region inDouble (List.intercalate [⟨fieldBreak, inDouble⟩] (texts.map (glyphsOfText inDouble)))]

def State.items (state : State) (isDivided inDouble : Bool) (name value : String) : List Item :=
  if state.isBroken isDivided inDouble name then brokenItems inDouble state.positional
  else if isDivided && (name = "@" || name = "*") && !inDouble then replaced false (" ".intercalate state.positional)
  else replaced inDouble value

/-! ## Homes -/

/-- The home of a user.  Without a name it is that of the variable. -/
def State.home? (state : State) (user : String) : Option String :=
  match user with
  | "" => state.value? "HOME"
  | "root" => some "/root"
  | _ => none

/-- A word whose tilde at the front is replaced by a home.  In assignments a name ends at a colon too. -/
def State.atHome (state : State) (isAssignment : Bool) (word : Word) : Word :=
  match word with
  | .char '~' false :: rest =>
    let (user, behind) := Word.plainStart (fun c => c ≠ '/' && !(isAssignment && c = ':')) rest
    let isEnded := match behind with
      | [] => true
      | .char c false :: _ => c = '/' || c = ':'
      | _ => false
    match (if isEnded then state.home? (String.ofList user) else none) with
    | some home => (home.toList.map fun c => .char c true) ++ behind
    | none => word
  | word => word

/-- A word of an assignment whose tildes are replaced behind colons as well, at most `rounds` of them. -/
def State.atHomes (state : State) : (rounds : Nat) → Word → Word
  | 0, word => word
  | rounds + 1, word =>
    let found := state.atHome true word
    let start := found.takeWhile fun
      | .char ':' false => false
      | _ => true
    match found.drop start.length with
    | colon :: rest => start ++ colon :: state.atHomes rounds rest
    | [] => start

end Offside.Tool.Shell
