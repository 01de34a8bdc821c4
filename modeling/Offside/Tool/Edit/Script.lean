import Offside.Tool.Pattern.Reader
import Offside.Tool.Plain

/-!
# Scripts of the line editor

A script is a list of commands.  Each is a letter with what the letter needs, and may have addresses before it that
say which lines it is for.
-/

namespace Offside.Tool.Edit

/-- How letters are written. -/
inductive Casing
  | kept | upper | lower
deriving DecidableEq, Repr

/-- Part of a replacement. -/
inductive Segment
  | literal (value : UInt8)
  | group (number : Nat)
  | casing (casing : Casing)
  | nextCasing (casing : Casing)
deriving DecidableEq, Repr

/-- Where a command writes to besides the output. -/
inductive Sink
  | output
  | errors
  | file (name : Bytes)
deriving DecidableEq, Repr

/-- A pattern as a script writes it.  An empty one is the pattern that was used last. -/
structure Query where
  pattern : Option Pattern
  manner : Pattern.Manner := {}
deriving DecidableEq, Repr

/-- What a substitution does besides replacing. -/
structure Flags where
  occurrence : Option Nat := none
  all : Bool := false
  print : Bool := false
  sink : Option Sink := none
  manner : Pattern.Manner := {}
deriving DecidableEq, Repr

/-- When a jump is made. -/
inductive Condition
  | always | ifReplaced | unlessReplaced
deriving DecidableEq, Repr

inductive Action
  | block
  | blockEnd
  | label (name : Bytes)
  | jump (condition : Condition) (label : Bytes)
  | substitute (query : Query) (replacement : List Segment) (flags : Flags)
  | exchange (source target : Bytes)
  | append (text : Bytes)
  | insert (text : Bytes)
  | change (text : Bytes)
  | appendFile (name : Bytes)
  | appendLine (name : Bytes)
  | delete
  | deleteFirst
  | print
  | printFirst
  | write (sink : Sink)
  | writeFirst (sink : Sink)
  | next
  | join
  | hold
  | holdMore
  | recall
  | recallMore
  | swap
  | clear
  | lineNumber
  | fileName
  | nothing
  | show (width : Option Nat)
  | quit (code : Nat) (isSilent : Bool)
deriving DecidableEq, Repr

inductive Address
  | line (number : Nat)
  | last
  | every (first step : Nat)
  | matching (query : Query)
deriving DecidableEq, Repr

/-- Where a range of lines ends. -/
inductive Stop
  | at (address : Address)
  | after (count : Nat)
  | multipleOf (number : Nat)
deriving DecidableEq, Repr

def Stop.isLine : Stop → Bool
  | .at (.line _) => true
  | _ => false

/-- A command: the lines it is for, and what it does with them. -/
structure Command where
  first : Option Address := none
  second : Option Stop := none
  negated : Bool := false
  action : Action
deriving DecidableEq, Repr

/-- What is wrong with a script, and how much of it is left behind the mistake, if it has a place.  A late mistake
is found when the script is complete. -/
structure Mistake where
  reason : String
  left : Nat := 0
  hasPlace : Bool := true
  isLate : Bool := false
deriving DecidableEq, Repr

/-- Reads something from the front of a script. -/
abbrev Reader (α : Type) := Bytes → Except Mistake (α × Bytes)

def isSeparator (byte : UInt8) : Bool := byte = 59 || byte = 10

def isBlank (byte : UInt8) : Bool := byte = 32 || byte = 9

/-! ## Texts -/

def digitValue? (base : Nat) (byte : UInt8) : Option Nat :=
  let value :=
    if 48 ≤ byte && byte ≤ 57 then byte.toNat - 48
    else if 97 ≤ Pattern.lowered byte && Pattern.lowered byte ≤ 102 then (Pattern.lowered byte).toNat - 87
    else base
  if value < base then some value else none

def coded? (base width : Nat) (text : Bytes) : Option (UInt8 × Bytes) :=
  let digits := (text.takeWhile fun b => (digitValue? base b).isSome).take width
  if digits.isEmpty then none
  else
    let value := digits.foldl (fun n b => base * n + (digitValue? base b).getD 0) 0
    some (UInt8.ofNat value, text.drop digits.length)

/-- The byte that a backslash and the text behind it stand for, if they are the name or the code of a byte. -/
def named? : Bytes → Option (UInt8 × Bytes)
  | [] => none
  | letter :: rest =>
    match Char.ofNat letter.toNat with
    | 'a' => some (7, rest)
    | 'f' => some (12, rest)
    | 'r' => some (13, rest)
    | 't' => some (9, rest)
    | 'v' => some (11, rest)
    | 'd' => coded? 10 3 rest
    | 'o' => coded? 8 3 rest
    | 'x' => coded? 16 2 rest
    | 'c' =>
      match rest with
      | byte :: rest => some ((if 97 ≤ byte && byte ≤ 122 then byte - 32 else byte) ^^^ 64, rest)
      | [] => none
    | _ => none

/-- A text with its named bytes put in, at most `rounds` of its parts.  A byte of `special` gets a backslash. -/
def named (special : Bytes) : (rounds : Nat) → Bytes → Bytes
  | 0, text => text
  | _, [] => []
  | rounds + 1, 92 :: rest =>
    match named? rest, rest with
    | some (byte, rest), _ =>
      (if special.contains byte then [92, byte] else [byte]) ++ named special rounds rest
    | none, next :: rest => 92 :: next :: named special rounds rest
    | none, [] => [92]
  | rounds + 1, byte :: rest => byte :: named special rounds rest

/-- How a bracket of a pattern goes on: at its first members, between members, before the mark that opens a named
class, or inside that class. -/
inductive Inside
  | start | negated | body | opening | named (mark : UInt8)
deriving DecidableEq, Repr

def Inside.behindEscape : Inside → Inside
  | .named mark => .named mark
  | _ => .body

/-- The text of a pattern up to a delimiter, and what follows it.  A delimiter in a bracket or behind a backslash
belongs to the text. -/
def patternUpTo (delimiter : UInt8) : Option Inside → Bytes → Option (Bytes × Bytes)
  | _, [] => none
  | none, 92 :: byte :: rest =>
    (patternUpTo delimiter none rest).map fun (text, rest) =>
      (if byte = delimiter then byte :: text else if byte = 110 then 10 :: text else 92 :: byte :: text, rest)
  | none, byte :: rest =>
    if byte = delimiter then some ([], rest)
    else if byte = 10 then none
    else
      (patternUpTo delimiter (if byte = 91 then some .start else none) rest).map fun (text, rest) =>
        (byte :: text, rest)
  | some inside, 92 :: 92 :: rest =>
    (patternUpTo delimiter (some inside.behindEscape) rest).map fun (text, rest) => (92 :: 92 :: text, rest)
  | some inside, 92 :: 110 :: rest =>
    (patternUpTo delimiter (some inside.behindEscape) rest).map fun (text, rest) => (10 :: text, rest)
  | some inside, byte :: rest =>
    if byte = 10 then none
    else
      let next := match inside with
        | .start => if byte = 94 then some .negated else opened byte rest
        | .negated => opened byte rest
        | .body => if byte = 93 then none else opened byte rest
        | .opening => some (.named byte)
        | .named mark => if byte = mark && rest.head? = some 93 then some .start else some (.named mark)
      (patternUpTo delimiter next rest).map fun (text, rest) => (byte :: text, rest)
where
  /-- How a bracket goes on behind a byte that does not end it. -/
  opened (byte : UInt8) (rest : Bytes) : Option Inside :=
    match rest.head? with
    | some mark => if byte = 91 && [58, 46, 61].contains mark then some .opening else some .body
    | none => some .body

/-- The text up to a delimiter that no backslash stands before, and what follows the delimiter.  A backslash before
the delimiter is dropped. -/
def textUpTo (delimiter : UInt8) : Bytes → Option (Bytes × Bytes)
  | [] => none
  | 92 :: byte :: rest =>
    (textUpTo delimiter rest).map fun (text, rest) =>
      (if byte = delimiter && byte ≠ 38 then byte :: text else 92 :: byte :: text, rest)
  | byte :: rest =>
    if byte = delimiter then some ([], rest)
    else if byte = 10 then none
    else (textUpTo delimiter rest).map fun (text, rest) => (byte :: text, rest)

/-- The parts of a replacement.  An ampersand is the whole match. -/
def segments : Bytes → List Segment
  | [] => []
  | 92 :: byte :: rest =>
    let segment := match Char.ofNat byte.toNat with
      | 'n' => Segment.literal 10
      | 'U' => .casing .upper
      | 'L' => .casing .lower
      | 'E' => .casing .kept
      | 'u' => .nextCasing .upper
      | 'l' => .nextCasing .lower
      | c => if c.isDigit then .group (c.toNat - 48) else .literal byte
    segment :: segments rest
  | 38 :: rest => .group 0 :: segments rest
  | byte :: rest => .literal byte :: segments rest

def exchanged (text : Bytes) : Bytes := plain (named [92] text.length text)
where
  /-- A text without the backslashes before a backslash and a letter for the end of a line. -/
  plain : Bytes → Bytes
    | 92 :: 92 :: rest => 92 :: plain rest
    | 92 :: 110 :: rest => 10 :: plain rest
    | byte :: rest => byte :: plain rest
    | [] => []

/-- The text of a command up to the end of a line that no backslash stands before, and what follows that end. -/
def lines : Bytes → Bytes × Bytes
  | [] => ([], [])
  | 92 :: byte :: rest =>
    let (text, rest) := lines rest
    (92 :: byte :: text, rest)
  | 10 :: rest => ([], rest)
  | byte :: rest =>
    let (text, rest) := lines rest
    (byte :: text, rest)

def unescaped : Bytes → Bytes
  | [] | [92] => []
  | 92 :: byte :: rest => byte :: unescaped rest
  | byte :: rest => byte :: unescaped rest

/-! ## Patterns and flags -/

/-- Reads a pattern.  An empty one is the pattern that was used last. -/
def query (extended : Bool) (manner : Pattern.Manner) (left : Nat) (text : Bytes) : Except Mistake Query :=
  if text.isEmpty then .ok ⟨none, manner⟩
  else
    match Pattern.read extended (named [] text.length text) with
    | .ok pattern => .ok ⟨some pattern, manner⟩
    | .error mistake => .error { reason := mistake.message, left, isLate := mistake = .bareClass }

def fileName : Reader Bytes := fun script =>
  let name := (script.dropWhile isBlank).takeWhile (· ≠ 10)
  let rest := (script.dropWhile isBlank).dropWhile (· ≠ 10)
  if name.isEmpty then .error { reason := "missing filename in r/R/w/W commands", left := rest.length }
  else .ok (name, rest.drop 1)

def sinkOf (name : Bytes) : Sink :=
  if name = Bytes.ofText "/dev/stdout" then .output
  else if name = Bytes.ofText "/dev/stderr" then .errors
  else .file name

/-- Reads the flags of a substitution, at most `rounds` of them, with what ends them. -/
def flagsFrom : (rounds : Nat) → Flags → Reader Flags
  | 0, flags, script => .ok (flags, script)
  | _, flags, [] => .ok (flags, [])
  | rounds + 1, flags, byte :: rest =>
    let fail (reason : String) : Except Mistake (Flags × Bytes) := .error { reason, left := rest.length }
    match Char.ofNat byte.toNat with
    | 'g' =>
      if flags.all then fail "multiple \x60g' options to \x60s' command"
      else flagsFrom rounds { flags with all := true } rest
    | 'p' =>
      if flags.print then fail "multiple \x60p' options to \x60s' command"
      else flagsFrom rounds { flags with print := true } rest
    | 'i' | 'I' => flagsFrom rounds { flags with manner.ignoresCase := true } rest
    | 'm' | 'M' => flagsFrom rounds { flags with manner.seesLines := true } rest
    | 'e' => flagsFrom rounds flags rest
    | 'w' => do
      let (name, rest) ← fileName rest
      return ({ flags with sink := some (sinkOf name) }, rest)
    | ';' | '\n' => .ok (flags, rest)
    | '\x7d' | '#' => .ok (flags, byte :: rest)
    | '\r' => if rest.head? = some 10 then .ok (flags, rest.drop 1) else fail "unknown option to \x60s'"
    | c =>
      if c.isDigit then
        let digits := Pattern.digitsOf (byte :: rest)
        let left := (byte :: rest).drop digits.length
        if flags.occurrence.isSome then
          .error { reason := "multiple number options to \x60s' command", left := left.length }
        else if Pattern.numberOf digits = 0 then
          .error { reason := "number option to \x60s' command may not be zero", left := left.length }
        else flagsFrom rounds { flags with occurrence := some (Pattern.numberOf digits) } left
      else if isBlank byte then flagsFrom rounds flags rest
      else fail "unknown option to \x60s'"

/-! ## Addresses -/

def number? (script : Bytes) : Option (Nat × Bytes) :=
  let digits := Pattern.digitsOf script
  if digits.isEmpty then none else some (Pattern.numberOf digits, script.drop digits.length)

def addressManner : Pattern.Manner → Bytes → Pattern.Manner × Bytes
  | manner, 73 :: rest => addressManner { manner with ignoresCase := true } rest
  | manner, 77 :: rest => addressManner { manner with seesLines := true } rest
  | manner, rest => (manner, rest)

def behindLine (script : Bytes) : Nat := (script.dropWhile (· ≠ 10)).length

def matchingAddress (extended : Bool) (delimiter : UInt8) : Reader Address := fun script =>
  match patternUpTo delimiter none script with
  | none => .error { reason := "unterminated address regex", left := behindLine script }
  | some (text, rest) => do
    let (manner, rest) := addressManner {} rest
    return (.matching (← query extended manner rest.length text), rest)

def address (extended : Bool) : Reader (Option Address) := fun script =>
  match script with
  | 36 :: rest => .ok (some .last, rest)
  | 47 :: rest => do
    let (address, rest) ← matchingAddress extended 47 rest
    return (some address, rest)
  | 92 :: delimiter :: rest => do
    let (address, rest) ← matchingAddress extended delimiter rest
    return (some address, rest)
  | script =>
    match number? script with
    | none => .ok (none, script)
    | some (first, rest) =>
      let behind := rest.dropWhile isBlank
      if behind.head? = some 126 then
        let (step, rest) := (number? (behind.drop 1)).getD (0, behind.drop 1)
        .ok (some (if step = 0 then .line first else .every first step), rest)
      else .ok (some (.line first), rest)

def stop (extended : Bool) : Reader Stop := fun script =>
  let script := script.dropWhile isBlank
  let counted? : Option (Stop × Bytes) := match script with
    | 43 :: rest => (number? rest).map fun (n, rest) => (Stop.after n, rest)
    | 126 :: rest => (number? rest).map fun (n, rest) => (Stop.multipleOf n, rest)
    | _ => none
  match counted? with
  | some found => .ok found
  | none => do
    let (found, rest) ← address extended script
    match found with
    | some found => return (.at found, rest)
    | none => throw { reason := "unexpected \x60,'", left := rest.length - 1 }

/-! ## Commands -/

def ending : Reader Unit := fun script =>
  match script.dropWhile isBlank with
  | [] => .ok ((), [])
  | byte :: rest =>
    if isSeparator byte then .ok ((), rest)
    else if byte = 125 || byte = 35 then .ok ((), byte :: rest)
    else .error { reason := "extra characters after command", left := rest.length }

def alone (action : Action) : Reader Action := fun script => do
  let ((), rest) ← ending script
  return (action, rest)

def withNumber (action : Option Nat → Action) : Reader Action := fun script => do
  let script := script.dropWhile isBlank
  match number? script with
  | some (n, rest) => alone (action (some n)) rest
  | none => alone (action none) script

def labelName (script : Bytes) : Bytes × Bytes :=
  let script := script.dropWhile isBlank
  let name := script.takeWhile fun b => !isSeparator b && !isBlank b
  (name, script.drop name.length)

def ownText (action : Bytes → Action) : Reader Action := fun script =>
  let script := script.dropWhile isBlank
  let read (text : Bytes) : Except Mistake (Action × Bytes) :=
    let (text, rest) := lines text
    .ok (action (unescaped (named [92] (text.length + 1) (text ++ [10]))), rest)
  match script with
  | [] => .error { reason := "expected \\ after \x60a', \x60c' or \x60i'" }
  | [92] => .ok (action [], [])
  | 92 :: rest =>
    let behind := rest.dropWhile isBlank
    if behind.head? = some 10 then read (behind.drop 1) else read rest
  | script => read script

def substitutionTexts : Reader (Bytes × Bytes) := fun script =>
  let unfinished (rest : Bytes) : Mistake := { reason := "unterminated \x60s' command", left := behindLine rest }
  match script with
  | [] => .error (unfinished [])
  | delimiter :: rest =>
    match patternUpTo delimiter none rest with
    | none => .error (unfinished rest)
    | some (pattern, rest) =>
      match textUpTo delimiter rest with
      | none => .error (unfinished rest)
      | some (replacement, rest) => .ok ((pattern, replacement), rest)

def greatestGroup (replacement : List Segment) : Nat :=
  replacement.foldl
    (fun greatest segment =>
      match segment with
      | .group number => max greatest number
      | _ => greatest)
    0

def substitution (extended : Bool) : Reader Action := fun script => do
  let ((pattern, text), rest) ← substitutionTexts script
  let (flags, rest) ← flagsFrom (rest.length + 1) {} rest
  let query ← query extended flags.manner rest.length pattern
  let replacement := segments (named [38, 92] text.length text)
  let greatest := greatestGroup replacement
  if query.pattern.any (·.groupCount < greatest) then
    throw { reason := s!"invalid reference \\{greatest} on \x60s' command's RHS", left := rest.length }
  return (.substitute query replacement flags, rest)

def exchangeCommand : Reader Action := fun script => do
  let unfinished : Mistake := { reason := "unterminated \x60y' command" }
  match script with
  | [] => throw unfinished
  | delimiter :: rest =>
    let some (source, rest) := textUpTo delimiter rest | throw unfinished
    let some (target, rest) := textUpTo delimiter rest | throw unfinished
    let (source, target) := (exchanged source, exchanged target)
    if source.length ≠ target.length then
      throw { reason := "strings for \x60y' command are different lengths", left := rest.length }
    alone (.exchange source target) rest

def version : List Nat := [4, 9]

def isNewer (text : Bytes) : Bool :=
  let parts := (Pattern.textOfBytes text).splitOn "."
  let numbers := parts.map fun part => (part.toNat?).getD 0
  text ≠ [] && numbers > version

def action (extended : Bool) : Reader Action := fun script =>
  match script with
  | [] => .error { reason := "missing command" }
  | letter :: rest =>
    match Char.ofNat letter.toNat with
    | '\x7b' => .ok (.block, rest)
    | '\x7d' => alone .blockEnd rest
    | ':' =>
      let (name, rest) := labelName rest
      if name.isEmpty then .error { reason := "\":\" lacks a label", left := rest.length }
      else alone (.label name) rest
    | 'b' => let (name, rest) := labelName rest; alone (.jump .always name) rest
    | 't' => let (name, rest) := labelName rest; alone (.jump .ifReplaced name) rest
    | 'T' => let (name, rest) := labelName rest; alone (.jump .unlessReplaced name) rest
    | 's' => substitution extended rest
    | 'y' => exchangeCommand rest
    | 'a' => ownText .append rest
    | 'i' => ownText .insert rest
    | 'c' => ownText .change rest
    | 'r' => do
      let (name, rest) ← fileName rest
      return (.appendFile name, rest)
    | 'R' => do
      let (name, rest) ← fileName rest
      return (.appendLine name, rest)
    | 'w' => do
      let (name, rest) ← fileName rest
      return (.write (sinkOf name), rest)
    | 'W' => do
      let (name, rest) ← fileName rest
      return (.writeFirst (sinkOf name), rest)
    | 'd' => alone .delete rest
    | 'D' => alone .deleteFirst rest
    | 'p' => alone .print rest
    | 'P' => alone .printFirst rest
    | 'n' => alone .next rest
    | 'N' => alone .join rest
    | 'h' => alone .hold rest
    | 'H' => alone .holdMore rest
    | 'g' => alone .recall rest
    | 'G' => alone .recallMore rest
    | 'x' => alone .swap rest
    | 'z' => alone .clear rest
    | '=' => alone .lineNumber rest
    | 'F' => alone .fileName rest
    | 'v' =>
      let (version, rest) := labelName rest
      if isNewer version then .error { reason := "expected newer version of sed", left := rest.length }
      else alone .nothing rest
    | 'l' => withNumber .show rest
    | 'q' => withNumber (fun code => .quit (code.getD 0) false) rest
    | 'Q' => withNumber (fun code => .quit (code.getD 0) true) rest
    | c => .error { reason := s!"unknown command: \x60{c}'", left := rest.length }

/-- What is wrong with the addresses of a command.  `left` is what is left behind its letter. -/
def addressFault? (first : Option Address) (second : Option Stop) (letter : Option UInt8) (left : Nat) :
    Option Mistake :=
  let isRange := second.isSome
  match first, letter.map fun byte => Char.ofNat byte.toNat with
  | some _, some ':' => some { reason := ": doesn't want any addresses", left }
  | some _, some '#' => some { reason := "comments don't accept any addresses", left }
  | some _, some '\x7d' => some { reason := "unexpected \x60\x7d'", left }
  | some _, some 'q' | some _, some 'Q' =>
    if isRange then some { reason := "command only uses one address", left } else none
  | _, _ => none

/-- Whether an address is the line before the first one, which only a range up to a pattern can start at. -/
def startsTooEarly (first : Option Address) (second : Option Stop) : Bool :=
  match first, second with
  | some (.line 0), some (.at (.matching _)) => false
  | some (.line 0), _ => true
  | _, _ => false

/-- The commands of a script, at most `rounds` of them.  `depth` is the number of open blocks. -/
def commands (extended : Bool) : (rounds depth : Nat) → Bytes → Except Mistake (List Command)
  | 0, _, _ => .ok []
  | rounds + 1, depth, script => do
    let script := script.dropWhile fun b => isSeparator b || isSpace b
    if script.isEmpty then
      if depth = 0 then return [] else throw { reason := "unmatched \x60\x7b'", hasPlace := false }
    else if script.head? = some 35 then commands extended rounds depth (script.dropWhile (· ≠ 10))
    else
      let (first, script) ← address extended script
      let behind := script.dropWhile isBlank
      let (second, script) ←
        if first.isSome && behind.head? = some 44 then
          let (stop, rest) ← stop extended (behind.drop 1)
          pure (some stop, rest)
        else pure (none, script)
      let script := script.dropWhile isSpace
      if startsTooEarly first second then
        throw { reason := "invalid usage of line address 0", left := script.length - 1 }
      let negated := script.head? = some 33
      let script := (if negated then script.drop 1 else script).dropWhile isSpace
      if negated && script.head? = some 33 then
        throw { reason := "multiple \x60!'s", left := script.length - 1 }
      if let some mistake := addressFault? first second script.head? (script.length - 1) then throw mistake
      if script.head? = some 125 && depth = 0 then
        throw { reason := "unexpected \x60\x7d'", left := script.length - 1 }
      let (action, rest) ← action extended script
      let depth := match action with
        | .block => depth + 1
        | .blockEnd => depth - 1
        | _ => depth
      return { first, second, negated, action } :: (← commands extended rounds depth rest)

def missingLabel? (commands : List Command) : Option Bytes :=
  let labels := commands.filterMap fun command =>
    match command.action with
    | .label name => some name
    | _ => none
  commands.findSome? fun command =>
    match command.action with
    | .jump _ name => if name.isEmpty || labels.contains name then none else some name
    | _ => none

def read (extended : Bool) (script : Bytes) : Except Mistake (List Command) := do
  let commands ← commands extended (script.length + 1) 0 script
  match missingLabel? commands with
  | some name =>
    throw { reason := s!"can't find label for jump to \x60{Pattern.textOfBytes name}'", isLate := true }
  | none => return commands

end Offside.Tool.Edit
