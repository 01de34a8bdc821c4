import Offside.Tool.Shell.State

/-!
# Options of the shell

The options that commands of the shell take, and the switches that change how the shell works.
-/

namespace Offside.Tool.Shell

/-! ## Options of commands -/

/-- Why words are no options. -/
inductive OptionFault
  | unknown (letter : Char)
  | noValue (letter : Char)
deriving DecidableEq, Repr

def OptionFault.message : OptionFault → String
  | .unknown letter => s!"Illegal option -{letter}"
  | .noValue letter => s!"No arg for -{letter} option"

/-- Reads the letters of a word.  `table` says of each letter whether it takes a value; the last letter may still wait
for its own. -/
def optionLetters (table : List (Char × Bool)) :
    List Char → Except OptionFault (List (Char × String) × Option Char)
  | [] => .ok ([], none)
  | letter :: rest =>
    match table.lookup letter with
    | none => .error (.unknown letter)
    | some false => do
      let (found, waiting) ← optionLetters table rest
      return ((letter, "") :: found, waiting)
    | some true => if rest.isEmpty then .ok ([], some letter) else .ok ([(letter, String.ofList rest)], none)

/-- Reads the options at the front of words: each with its value, and the words behind them. -/
def optionsOf (table : List (Char × Bool)) :
    (waiting : Option Char) → List String → Except OptionFault (List (Char × String) × List String)
  | some letter, [] => .error (.noValue letter)
  | none, [] => .ok ([], [])
  | some letter, value :: rest => do
    let (found, words) ← optionsOf table none rest
    return ((letter, value) :: found, words)
  | none, word :: rest =>
    match word.toList with
    | ['-', '-'] => .ok ([], rest)
    | '-' :: letter :: letters => do
      let (start, waiting) ← optionLetters table (letter :: letters)
      let (found, words) ← optionsOf table waiting rest
      return (start ++ found, words)
    | _ => .ok ([], word :: rest)

/-- Uses the options and the other words of a command.  Words that are no options are a mistake. -/
def Run.withOptions (table : List (Char × Bool)) (words : List String)
    (use : List (Char × String) → List String → Run Nat) : Run Nat := do
  match optionsOf table none words with
  | .ok (options, words) => use options words
  | .error fault =>
    raise fault.message
    return 2

/-! ## Switches -/

def switchTable : List (String × Option Char) :=
  [("errexit", some 'e'), ("noglob", some 'f'), ("ignoreeof", some 'I'), ("interactive", some 'i'),
    ("monitor", some 'm'), ("noexec", some 'n'), ("stdin", some 's'), ("xtrace", some 'x'), ("verbose", some 'v'),
    ("vi", some 'V'), ("emacs", some 'E'), ("noclobber", some 'C'), ("allexport", some 'a'), ("notify", some 'b'),
    ("nounset", some 'u'), ("privileged", some 'p'), ("nolog", none), ("debug", none)]

def State.switchLetters (state : State) : String :=
  String.ofList (switchTable.reverse.filterMap fun (name, letter) => if state.isOn name then letter else none)

/-- Switches that are being set: those that are on, the words that are left, whether a letter asked for a script or for
a listing, which can be one of commands, and what is wrong. -/
structure Switching where
  switches : List String
  words : List String
  takesText : Bool := false
  clears : Bool := false
  listings : List Bool := []
  fault : Option String := none

namespace Switching

def turn (switching : Switching) (name : String) (value : Bool) : Switching :=
  let others := switching.switches.filter (· ≠ name)
  { switching with switches := if value then name :: others else others }

/-- Follows a letter.  The shell's own call has two more of them. -/
def letter (isCall value : Bool) (switching : Switching) (letter : Char) : Switching :=
  if switching.fault.isSome then switching
  else if isCall && letter = 'c' then { switching with takesText := true }
  else if isCall && letter = 'l' then switching
  else if letter = 'o' then
    match switching.words with
    | [] => { switching with listings := switching.listings ++ [value] }
    | name :: rest =>
      if (switchTable.lookup name).isSome then { switching with words := rest }.turn name value
      else { switching with fault := some s!"Illegal option -o {name}" }
  else
    match switchTable.find? fun (_, found) => found = some letter with
    | some (name, _) => switching.turn name value
    | none => { switching with fault := some (OptionFault.unknown letter).message }

def read (isCall : Bool) : (rounds : Nat) → Switching → Switching
  | 0, switching => switching
  | rounds + 1, switching =>
    match switching.words with
    | [] => switching
    | word :: rest =>
      let behind := { switching with words := rest }
      if switching.fault.isSome then switching
      else
        match word.toList with
        | ['-'] => if isCall then behind else (behind.turn "xtrace" false).turn "verbose" false
        | ['-', '-'] => { behind with clears := !isCall && rest.isEmpty }
        | '-' :: letters => read isCall rounds (letters.foldl (letter isCall true) behind)
        | '+' :: letters => read isCall rounds (letters.foldl (letter isCall false) behind)
        | _ => switching

end Switching

def State.switchListing (state : State) (isTable : Bool) : String :=
  let lines := switchTable.map fun (name, _) =>
    if isTable then
      name ++ String.ofList (List.replicate (16 - name.length) ' ') ++ (if state.isOn name then "on\n" else "off\n")
    else (if state.isOn name then "set -o " else "set +o ") ++ name ++ "\n"
  (if isTable then "Current option settings\n" else "") ++ String.join lines

end Offside.Tool.Shell
