import Offside.Tool.Shell.State

/-!
# Leading channels elsewhere

A channel of a command can be led to a file or to where another channel leads.
-/

namespace Offside.Tool.Shell

def openFault : Fault → String
  | .missing | .notFolder => "No such file"
  | fault => fault.reason

def makeFault : Fault → String
  | .missing | .notFolder => "Directory nonexistent"
  | fault => fault.reason

def channelOfPath? (path : String) : Option Nat :=
  match path with
  | "/dev/stdin" => some 0
  | "/dev/stdout" => some 1
  | "/dev/stderr" => some 2
  | path =>
    let start := "/dev/fd/".toList
    match path.toList.drop start.length with
    | [c] => if start.isPrefixOf path.toList && c.isDigit then some (c.toNat - 48) else none
    | _ => none

/-- How a file is opened. -/
structure Opening where
  isMade : Bool
  isEmptied : Bool
  appends : Bool
  mustBeNew : Bool := false

def Opening.place (opening : Opening) (tree : FileTree) (path : Path) : Except Fault (Location × FileTree) := do
  if !opening.isMade then
    let (location, _) ← tree.find .visit path
    return (location, tree)
  else
    let location ← tree.resolve .create path
    match tree.node? location with
    | some .folder => throw .isFolder
    | some (.device _) => return (location, tree)
    | some (.file _) =>
      return (location, if opening.isEmptied then tree.put location (.file .empty) else tree)
    | _ => return (location, tree.put location (.file .empty))

namespace Run

def refuse (message : String) : Run Bool := do
  report message
  setCode 2
  return false

def openFile (channel : Nat) (opening : Opening) (target : String) : Run Bool := do
  let state ← get
  let verb := if opening.isMade then "create" else "open"
  let isTaken := opening.mustBeNew && state.tree.isFile ⟨readable target⟩
  if isTaken then refuse s!"cannot create {target}: File exists"
  else
    match opening.place state.tree ⟨readable target⟩ with
    | .ok (location, tree) =>
      set ({ state with tree }.openStream channel (.file location 0 opening.appends))
      return true
    | .error fault =>
      let reason := if opening.isMade then makeFault fault else openFault fault
      refuse s!"cannot {verb} {target}: {reason}"

/-- Leads a channel to a file that is already open, if a path stands for a channel, or to one that is opened. -/
def openPath (channel : Nat) (opening : Opening) (target : String) : Run Bool := do
  let state ← get
  match channelOfPath? target with
  | none => openFile channel opening target
  | some other =>
    match state.channels.lookup other, state.stream? other with
    | some _, some (.file location _ _) =>
      let tree := if opening.isEmptied then
          match state.tree.node? location with
          | some (.file _) => state.tree.put location (.file .empty)
          | _ => state.tree
        else state.tree
      set ({ state with tree }.openStream channel (.file location 0 opening.appends))
      return true
    | some id, some _ =>
      set (state.lead channel (some id))
      return true
    | _, _ =>
      let (verb, reason) := if opening.isMade then ("create", makeFault .missing) else ("open", openFault .missing)
      refuse s!"cannot {verb} {target}: {reason}"

def copyChannel (channel : Nat) (target : String) : Run Bool := do
  match target.toList with
  | ['-'] =>
    modify (·.lead channel none)
    return true
  | [c] =>
    if c.isDigit then
      let other := c.toNat - 48
      match (← get).channels.lookup other with
      | some id =>
        modify (·.lead channel (some id))
        return true
      | none => if other = channel then return true else refuse s!"{other}: Bad file descriptor"
    else fail
  | _ => fail
where
  fail : Run Bool := do
    raise s!"Syntax error: {Mistake.badChannel.message}"
    return false

/-- Applies a redirection whose target is known; `false` means that it failed. -/
def redirect (redirection : Redirection) (target : String) : Run Bool := do
  let channel := redirection.channel
  match redirection.direction with
  | .hereText _ =>
    modify (·.openStream channel (.source (toBytes target)))
    return true
  | .readFile => openPath channel { isMade := false, isEmptied := false, appends := false } target
  | .readAndWrite => openPath channel { isMade := true, isEmptied := false, appends := false } target
  | .writeFile =>
    let mustBeNew := (← get).isOn "noclobber"
    openPath channel { isMade := true, isEmptied := true, appends := false, mustBeNew } target
  | .overwriteFile => openPath channel { isMade := true, isEmptied := true, appends := false } target
  | .appendFile => openPath channel { isMade := true, isEmptied := false, appends := true } target
  | .copyChannel => copyChannel channel target

def restoreChannels (before : State) (redirections : List Redirection) : Run Unit := modify fun after =>
  (redirections.foldl (fun state redirection =>
    state.lead redirection.channel (before.channels.lookup redirection.channel)) after).closeStreams before.nextStream

end Run

end Offside.Tool.Shell
