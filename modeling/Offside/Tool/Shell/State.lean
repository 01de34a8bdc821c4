import Offside.Tool.Shell.Arithmetic
import Offside.Tool.Shell.Field
import Offside.Tool.Shell.Reader

/-!
# The state of a shell

Variables, where channels lead, what is to be done with signals, and how the shell goes on.
-/

namespace Offside.Tool.Shell

/-- A variable.  It may have no value yet, be handed to programs, and be protected from changes. -/
structure Variable where
  name : String
  value : Option String := none
  isExported : Bool := false
  isFixed : Bool := false
deriving DecidableEq, Repr

/-- What a channel can lead to: bytes that are still to be read, bytes that are collected, the last ones first, or a
place in a file. -/
inductive Stream
  | source (rest : Bytes)
  | collector (chunks : List Bytes)
  | file (location : Location) (position : Nat) (appends : Bool)

/-- How a shell goes on. -/
inductive Flow
  | on
  | leaveLoops (count : Nat)
  | nextRound (count : Nat)
  | leaveFunction
  | failed
  | ended (status : Status)
deriving DecidableEq, Repr

/-- What is put back at the end of a scope. -/
inductive Saved
  | binding (name : String) (before : Option Variable)
  | switches (before : List String)

/-- Where the options of positional parameters are read: the number of the next one, and how much of the one before it
was read. -/
structure Scan where
  index : Nat := 1
  offset : Option Nat := none
deriving DecidableEq, Repr

/-- A command that ran in the background, and how it ended. -/
structure Job where
  number : Nat
  process : Nat
  code : Nat
  isWaitedFor : Bool := false
deriving DecidableEq, Repr

/-- What a shell knows.  Of the signals of the `root` shell those are pending that it has not dealt with.  `line` is
that of the current command; the `speaker` stands in front of what is reported.
`code` is how the last command ended, `substituted` how the last one inside a word did, and `savedCode` how the last
one before a trap did.  `folder` is the path that led to where the shell works. -/
structure State where
  tree : FileTree
  name : String := "sh"
  positional : List String := []
  scan : Scan := {}
  table : List Variable := []
  functions : List (String × Command) := []
  aliases : List (String × String) := []
  traps : List (Nat × String) := []
  rootTraps : List (Nat × String) := []
  pending : List Nat := []
  rootSignal : Option Nat := none
  switches : List String := []
  texts : Array Word := #[]
  channels : List (Nat × Nat) := [(0, 0), (1, 1), (2, 2)]
  streams : List (Nat × Stream) := []
  nextStream : Nat := 3
  line : Nat := 1
  speaker : Option String := none
  scopes : List (List Saved) := []
  loops : Nat := 0
  calls : Nat := 0
  code : Nat := 0
  substituted : Nat := 0
  savedCode : Option Nat := none
  flow : Flow := .on
  hashed : List (String × String) := []
  mask : Nat := 18
  jobs : List Job := []
  lastProcess : Option Nat := none
  level : Nat := 0
  isTracing : Bool := false
  folder : String := "/"
  hasWriteFault : Bool := false

/-- The number of the shell's own process.  Those of others follow it. -/
def ownProcess : Nat := 4711

def ownVariables : List String := ["IFS", "MAIL", "MAILPATH", "OPTIND", "PATH", "PS1", "PS2", "PS4"]

abbrev Run := StateM State

namespace State

def isOn (state : State) (switch : String) : Bool := state.switches.contains switch

def binding? (state : State) (name : String) : Option Variable := state.table.find? (·.name = name)

def value? (state : State) (name : String) : Option String := (state.binding? name).bind (·.value)

def separators (state : State) : List Char :=
  match state.value? "IFS" with
  | some text => text.toList
  | none => usualSeparators

def environment (state : State) : Environment :=
  state.table.filterMap fun found =>
    if found.isExported then found.value.map fun value => (readable found.name, readable value) else none

def stream? (state : State) (channel : Nat) : Option Stream :=
  (state.channels.lookup channel).bind fun id => state.streams.lookup id

def setStream (state : State) (id : Nat) (stream : Stream) : State :=
  { state with streams := state.streams.map fun (other, old) => (other, if other = id then stream else old) }

def lead (state : State) (channel : Nat) (id : Option Nat) : State :=
  let others := state.channels.filter (·.1 ≠ channel)
  { state with channels := match id with
      | some id => (channel, id) :: others
      | none => others }

def openStream (state : State) (channel : Nat) (stream : Stream) : State :=
  { state with streams := (state.nextStream, stream) :: state.streams, nextStream := state.nextStream + 1 }.lead
    channel (some state.nextStream)

def closeStreams (state : State) (first : Nat) : State :=
  { state with streams := state.streams.filter fun (id, _) => id < first || state.channels.any (·.2 = id) }

def contentOf (state : State) : Stream → Bytes
  | .source rest => rest
  | .collector _ => []
  | .file location position _ =>
    match state.tree.node? location with
    | some (.file content) => content.toList.drop position
    | _ => []

def input (state : State) (channel : Nat := 0) : Bytes := ((state.stream? channel).map state.contentOf).getD []

/-- Leaves only some bytes to be read from the input.  In a file those that were read `ahead` can still be read. -/
def leaveInput (state : State) (rest : Bytes) (ahead : Bytes := []) : State :=
  match state.channels.lookup 0, state.stream? 0 with
  | some id, some (.source _) => state.setStream id (.source rest)
  | some id, some (.file location position appends) =>
    let read := (state.contentOf (.file location position appends)).length - rest.length - ahead.length
    state.setStream id (.file location (position + read) appends)
  | _, _ => state

def inlet (state : State) : Inlet :=
  match state.stream? 0 with
  | some (.source rest) => { bytes := rest }
  | some (.file location position appends) =>
    match state.tree.node? location with
    | some (.file _) =>
      { bytes := state.contentOf (.file location position appends), place := some (location, position) }
    | some .folder => { fault := some .isFolder }
    | _ => {}
  | _ => { fault := some .closed }

def outletPlace? (state : State) : Option Location :=
  match state.stream? 1 with
  | some (.file location _ _) =>
    match state.tree.node? location with
    | some (.file _) => some location
    | _ => none
  | _ => none

def outletFault? (state : State) : Option Fault :=
  match state.stream? 1 with
  | some (.collector _) => none
  | some (.file location _ _) =>
    match state.tree.node? location with
    | some (.device .full) => some .noSpace
    | _ => none
  | _ => some .closed

def overwritten (content : ByteArray) (position : Nat) (bytes : Bytes) : ByteArray :=
  let old := content.toList
  let start := old.take position ++ List.replicate (position - old.length) 0
  ⟨(start ++ bytes ++ old.drop (position + bytes.length)).toArray⟩

def write? (state : State) (channel : Nat) (bytes : Bytes) : Option State :=
  match state.channels.lookup channel, state.stream? channel with
  | some id, some (.collector chunks) => some (state.setStream id (.collector (bytes :: chunks)))
  | some id, some (.file location position appends) =>
    match state.tree.node? location with
    | some (.file content) =>
      let position := if appends then content.size else position
      let tree := state.tree.put location (.file (overwritten content position bytes))
      some ({ state with tree }.setStream id (.file location (position + bytes.length) appends))
    | some (.device .null) => some state
    | _ => none
  | _, _ => none

def collected (state : State) (id : Nat) : Bytes :=
  match state.streams.lookup id with
  | some (.collector chunks) => chunks.reverse.flatten
  | _ => []

def restore (state : State) : Saved → State
  | .binding name before =>
    let others := state.table.filter (·.name ≠ name)
    { state with
      table := before.toList ++ others
      hashed := if name = "PATH" then [] else state.hashed }
  | .switches switches => { state with switches }

def isScoped (state : State) (name : String) : Bool :=
  state.scopes.any fun scope => scope.any fun
    | .binding other _ => other = name
    | .switches _ => false

def leaveScope (state : State) : State :=
  match state.scopes with
  | [] => state
  | saved :: scopes => saved.foldl restore { state with scopes }

end State

namespace Run

def goesOn : Run Bool := do return (← get).flow = .on

def setCode (code : Nat) : Run Unit := modify ({ · with code })

/-- Prints a text on a channel; `false` means that it could not be written. -/
def print (channel : Nat) (text : String) : Run Bool := do
  if text = "" then return true
  else
    match (← get).write? channel (toBytes text) with
    | some state =>
      set state
      return true
    | none => return false

def out (text : String) : Run Unit := do
  if !(← print 1 text) then modify ({ · with hasWriteFault := true })

def report (message : String) : Run Unit := do
  let state ← get
  let speaker := match state.speaker with
    | some speaker => s!"{speaker}: "
    | none => ""
  let _ ← print 2 s!"{state.name}: {state.line}: {speaker}{message}\n"

def raise (message : String) : Run Unit := do
  report message
  modify ({ · with code := 2, flow := .failed })

def update (name : String) (change : Variable → Variable) : Run Unit := modify fun state =>
  let before := (state.binding? name).getD { name }
  { state with table := change before :: state.table.filter (·.name ≠ name) }

/-- Whether a variable can be changed.  It is a mistake if it cannot. -/
def mayChange (name : String) : Run Bool := do
  if !isName name.toList then
    raise s!"{name}: bad variable name"
    return false
  else if ((← get).binding? name).any (·.isFixed) then
    raise s!"{name}: is read only"
    return false
  else return true

/-- Gives a variable a value.  A new number of the next positional parameter starts to read their options anew, and with
new folders it is not known any more where programs are. -/
def assign (name value : String) (isExported : Bool := false) : Run Unit := do
  if ← mayChange name then
    let all := (← get).isOn "allexport"
    update name fun before =>
      { before with value := some value, isExported := before.isExported || isExported || all }
    if name = "PATH" then modify ({ · with hashed := [] })
    if name = "OPTIND" then
      match wholeNumber? (some 10) value with
      | some index => modify ({ · with scan := { index := max 1 index.toNat } })
      | none => raise s!"Illegal number: {value}"

/-- Takes the value of a variable away.  Only those of scopes and of the shell itself are still known then. -/
def unset (name : String) : Run Unit := do
  if ← mayChange name then
    let state ← get
    if name = "PATH" then modify ({ · with hashed := [] })
    if state.isScoped name || ownVariables.contains name then update name ({ · with value := none })
    else modify fun state => { state with table := state.table.filter (·.name ≠ name) }

def save (saved : Saved) : Run Unit := modify fun state =>
  match state.scopes with
  | scope :: others => { state with scopes := (saved :: scope) :: others }
  | [] => state

def saveBinding (name : String) : Run Unit := do save (.binding name ((← get).binding? name))

def capture (run : Run Unit) : Run Bytes := do
  let before ← get
  let id := before.nextStream
  set (before.openStream 1 (.collector []))
  run
  let after ← get
  let bytes := after.collected id
  set ((after.lead 1 (before.channels.lookup 1)).closeStreams id)
  return bytes

/-- Runs something with another input.  The input from before is used afterwards. -/
def withInput (input : Bytes) (run : Run Unit) : Run Unit := do
  let before ← get
  set (before.openStream 0 (.source input))
  run
  modify fun after => (after.lead 0 (before.channels.lookup 0)).closeStreams before.nextStream

end Run

end Offside.Tool.Shell
