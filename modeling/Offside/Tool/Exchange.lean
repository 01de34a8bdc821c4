import Offside.Tool.Arguments

/-!
# Exchanging bytes

The program that replaces, deletes or squeezes single bytes.  Its operands are sets: bytes, escapes, ranges,
classes and repetitions, in order.
-/

namespace Offside.Tool.Exchange

/-- A byte of a set as it was written: plainly, or behind a backslash. -/
structure Mark where
  byte : UInt8
  isEscaped : Bool := false
deriving DecidableEq, Repr

def isOctal (byte : UInt8) : Bool := 48 ≤ byte && byte ≤ 55

def escaped (letter : UInt8) : UInt8 :=
  match Char.ofNat letter.toNat with
  | 'a' => 7
  | 'b' => 8
  | 't' => 9
  | 'n' => 10
  | 'v' => 11
  | 'f' => 12
  | 'r' => 13
  | _ => letter

def octalValue (digits : Bytes) : Nat := digits.foldl (fun n digit => 8 * n + (digit.toNat - 48)) 0

/-- The octal digits at the front of a set: at most three, and at most as many as fit a byte. -/
def octalRun (set : Bytes) : Bytes :=
  let run := (set.take 3).takeWhile isOctal
  if octalValue run < 256 then run else run.take 2

def marks : (rounds : Nat) → Bytes → List Mark
  | 0, _ | _, [] => []
  | _ + 1, [92] => [⟨92, false⟩]
  | rounds + 1, 92 :: letter :: rest =>
    let run := octalRun (letter :: rest)
    if run.isEmpty then ⟨escaped letter, true⟩ :: marks rounds rest
    else ⟨UInt8.ofNat (octalValue run), true⟩ :: marks rounds ((letter :: rest).drop run.length)
  | rounds + 1, byte :: rest => ⟨byte, false⟩ :: marks rounds rest

def warnings : (rounds : Nat) → Bytes → List String
  | 0, _ | _, [] => []
  | _ + 1, [92] => ["an unescaped backslash at end of string is not portable"]
  | rounds + 1, 92 :: letter :: rest =>
    let run := octalRun (letter :: rest)
    let digits := ((letter :: rest).take 3).takeWhile isOctal
    let others := warnings rounds ((letter :: rest).drop (max 1 run.length))
    match if run.length < digits.length then digits.map fun digit => Char.ofNat digit.toNat else [] with
    | [first, second, third] =>
      (s!"the ambiguous octal escape \\{first}{second}{third} is being\n\tinterpreted as "
        ++ s!"the 2-byte sequence \\0{first}{second}, {third}") :: others
    | _ => others
  | rounds + 1, _ :: rest => warnings rounds rest

def bytesFrom (low high : Nat) : Bytes := (List.range (high + 1 - low)).map fun i => UInt8.ofNat (low + i)

def classes : List (String × Bytes) :=
  let upper := bytesFrom 65 90
  let lower := bytesFrom 97 122
  let digits := bytesFrom 48 57
  [("lower", lower), ("upper", upper), ("digit", digits), ("alpha", upper ++ lower),
    ("alnum", digits ++ upper ++ lower), ("space", bytesFrom 9 13 ++ [32]), ("blank", [9, 32]),
    ("cntrl", bytesFrom 0 31 ++ [127]), ("print", bytesFrom 32 126), ("graph", bytesFrom 33 126),
    ("punct", bytesFrom 33 47 ++ bytesFrom 58 64 ++ bytesFrom 91 96 ++ bytesFrom 123 126),
    ("xdigit", digits ++ bytesFrom 65 70 ++ bytesFrom 97 102)]

/-- What a set is made of.  A repetition without a number fills the set up. -/
inductive Item
  | byte (value : UInt8)
  | range (low high : UInt8)
  | named (name : String) (members : Bytes)
  | equivalent (value : UInt8)
  | again (value : UInt8) (times : Nat)
  | filling (value : UInt8)
deriving DecidableEq, Repr

def Item.bytes : Item → Bytes
  | .byte value | .equivalent value => [value]
  | .range low high => bytesFrom low.toNat high.toNat
  | .named _ members => members
  | .again value times => List.replicate times value
  | .filling _ => []

def Item.isFilling : Item → Bool
  | .filling _ => true
  | _ => false

def Item.isEquivalent : Item → Bool
  | .equivalent _ => true
  | _ => false

def Item.isNamed : Item → Bool
  | .named _ _ => true
  | _ => false

def Item.isCase : Item → Bool
  | .named name _ => name = "lower" || name = "upper"
  | _ => false

def Mark.is (mark : Mark) (byte : UInt8) : Bool := mark.byte = byte && !mark.isEscaped

def closing? (delimiter : UInt8) : List Mark → Option Nat
  | first :: second :: rest =>
    if first.is delimiter && second.is 93 then some 0
    else (closing? delimiter (second :: rest)).map (· + 1)
  | _ => none

def textOf (marks : List Mark) : String := String.ofList (marks.map fun mark => Char.ofNat mark.byte.toNat)

def isVisible (byte : UInt8) : Bool := 32 ≤ byte && byte < 127

/-- The end of a range as it is shown: a byte that is not visible by its octal code. -/
def endText (byte : UInt8) : String :=
  if isVisible byte then String.singleton (Char.ofNat byte.toNat) else byteCode byte

/-- A byte of a text as it is shown.  A backslash is doubled. -/
def shownText (byte : UInt8) : String :=
  if byte = 92 then "\\\\" else if isVisible byte then String.singleton (Char.ofNat byte.toNat) else byteEscape byte

def shownMarks (marks : List Mark) : String := String.join (marks.map fun mark => shownText mark.byte)

/-- The number of a repetition: octal behind a zero, else decimal. -/
def repetition? (digits : List Mark) : Option Nat :=
  let bytes := digits.map (·.byte)
  let base := if bytes.head? = some 48 then 8 else 10
  if bytes.all fun b => 48 ≤ b && b.toNat < 48 + base then
    some (bytes.foldl (fun n b => base * n + (b.toNat - 48)) 0)
  else none

def repeated? : List Mark → Option (Except String (Item × List Mark))
  | value :: star :: rest =>
    if !star.is 42 then none
    else
      let digits := rest.takeWhile fun mark => !mark.isEscaped && mark.byte ≠ 93
      match rest.drop digits.length with
      | close :: rest =>
        if !close.is 93 then none
        else if digits.isEmpty then some (.ok (.filling value.byte, rest))
        else
          match repetition? digits with
          | some 0 => some (.ok (.filling value.byte, rest))
          | some times => some (.ok (.again value.byte times, rest))
          | none => some (.error s!"invalid repeat count {quotedText (shownMarks digits)} in [c*n] construct")
      | [] => none
  | _ => none

def class? (set : List Mark) : Option (Except String (Item × List Mark)) :=
  match set with
  | kind :: rest =>
    if !(kind.is 58 || kind.is 61) then none
    else
      (closing? kind.byte rest).map fun length =>
        let name := rest.take length
        let behind := rest.drop (length + 2)
        if kind.byte = 58 then
          if name.isEmpty then .error "missing character class name '[::]'"
          else
            match classes.find? (·.1 = textOf name) with
            | some (name, members) => .ok (.named name members, behind)
            | none => .error s!"invalid character class {quotedText (shownMarks name)}"
        else
          match name with
          | [value] => .ok (.equivalent value.byte, behind)
          | [] => .error "missing equivalence class character '[==]'"
          | _ => .error s!"{shownMarks name}: equivalence class operand must be a single character"
  | [] => none

/-- The construct at the front of a set, behind its bracket, and what follows it.  What looks like a class and is
none may be a repetition. -/
def construct? (set : List Mark) : Option (Except String (Item × List Mark)) :=
  match class? set, repeated? set with
  | some (.ok found), _ => some (.ok found)
  | some (.error _), some found => some found
  | some (.error reason), none => some (.error reason)
  | none, found => found

def rangeText (low high : UInt8) : String := s!"{endText low}-{endText high}"

def items : (rounds : Nat) → List Mark → Except String (List Item)
  | 0, _ | _, [] => .ok []
  | rounds + 1, first :: rest =>
    match if first.is 91 && 2 ≤ rest.length then construct? rest else none with
    | some (.ok (item, rest)) => (items rounds rest).map (item :: ·)
    | some (.error reason) => .error reason
    | none =>
      match rest with
      | dash :: high :: behind =>
        if !dash.is 45 then (items rounds rest).map (.byte first.byte :: ·)
        else if high.byte < first.byte then
          .error s!"range-endpoints of '{rangeText first.byte high.byte}' are in reverse collating sequence order"
        else (items rounds behind).map (.range first.byte high.byte :: ·)
      | rest => (items rounds rest).map (.byte first.byte :: ·)

def setOf (operand : String) : Except String (List Item) :=
  let bytes := Bytes.ofText operand
  let set := marks (bytes.length + 1) bytes
  items (set.length + 1) set

def doubts : (operands : List String) → List String
  | [] => []
  | operand :: rest =>
    let bytes := Bytes.ofText operand
    let own := (warnings (bytes.length + 1) bytes).map fun warning => s!"warning: {warning}"
    if (setOf operand).isOk then own ++ doubts rest else own

def bytesOf (set : List Item) : Bytes := set.flatMap Item.bytes

def filled (length : Nat) (set : List Item) : Bytes :=
  let missing := length - (bytesOf set).length
  set.flatMap fun
    | .filling value => List.replicate missing value
    | item => item.bytes

/-- Replaces each byte of the first set by the byte at its place in the second, whose last byte counts for all
places beyond it. -/
def replace (source target : Bytes) (byte : UInt8) : UInt8 :=
  match source.reverse.idxOf? byte with
  | none => byte
  | some index =>
    let place := source.length - 1 - index
    (target[place]?).getD (target.getLastD byte)

def squeeze (set input : Bytes) : Bytes :=
  (input.foldl (fun kept byte => if kept.head? = some byte && set.contains byte then kept else byte :: kept)
    []).reverse

/-- The options of the program. -/
structure Options where
  delete : Bool
  squeezes : Bool
  complement : Bool
  truncate : Bool
deriving DecidableEq, Repr

def Options.source (options : Options) (set : List Item) : Bytes :=
  if options.complement then (bytesFrom 0 255).filter (!(bytesOf set).contains ·) else bytesOf set

def casePlaces (set : List Item) : List Nat :=
  (set.foldl
    (fun (place, places) item => (place + item.bytes.length, if item.isCase then places ++ [place] else places))
    (0, [])).2

def replacementFault? (options : Options) (source target : List Item) : Option String :=
  let bytes := options.source source
  let reached := filled bytes.length target
  let covers := reached.length = bytes.length || (reached.length < bytes.length && !options.truncate)
  let reachedPlaces := (casePlaces target).filter (· ≤ bytes.length)
  if 1 < target.countP Item.isFilling then some "only one [c*] repeat construct may appear in string2"
  else if target.any Item.isEquivalent then
    some "[=c=] expressions may not appear in string2 when translating"
  else if target.any fun item => item.isNamed && !item.isCase then
    some "when translating, the only character classes that may appear in\nstring2 are 'upper' and 'lower'"
  else if !options.complement && !(reachedPlaces.all (casePlaces source).contains) then
    some "misaligned [:upper:] and/or [:lower:] construct"
  else if reached.length < bytes.length && !options.truncate && target.isEmpty then
    some "when not truncating set1, string2 must be non-empty"
  else if reached.length < bytes.length && !options.truncate && (target.getLast?.map Item.isNamed).getD false then
    some "when translating with string1 longer than string2,\nthe latter string must not end with a character class"
  else if options.complement && source.any Item.isNamed
      && !(covers && reached.all fun byte => some byte = reached.head?) then
    some "when translating with complemented character classes,\nstring2 must map all characters in the domain to one"
  else none

def onSets (options : Options) (source : List Item) (target : Option (List Item)) (input : Bytes) :
    Except String Bytes :=
  let bytes := options.source source
  if source.any Item.isFilling then .error "the [c*] repeat construct may not appear in string1"
  else
    match options.delete, target with
    | true, none => .ok (input.filter (!bytes.contains ·))
    | true, some target =>
      if target.any Item.isFilling then
        .error "the [c*] construct may appear in string2 only when translating"
      else .ok (squeeze (bytesOf target) (input.filter (!bytes.contains ·)))
    | false, none => .ok (squeeze bytes input)
    | false, some target =>
      match replacementFault? options source target with
      | some reason => .error reason
      | none =>
        let reached := filled bytes.length target
        let bytes := if options.truncate then bytes.take reached.length else bytes
        let replaced := input.map (replace bytes reached)
        .ok (if options.squeezes then squeeze reached replaced else replaced)

def operandFault? (options : Options) (operands : List String) : Option String :=
  let needed := if options.delete = options.squeezes then 2 else 1
  let allowed := if options.delete && !options.squeezes then 1 else 2
  match operands.getLast? with
  | none => some "missing operand"
  | some last =>
    if operands.length < needed then
      let reason :=
        if options.squeezes then "Two strings must be given when both deleting and squeezing repeats."
        else "Two strings must be given when translating."
      some s!"missing operand after {quotedText last}\n{reason}"
    else if allowed < operands.length then
      let reason :=
        if operands.length = 2 then "\nOnly one string may be given when deleting without squeezing repeats."
        else ""
      some s!"extra operand {quotedText (operands.getD allowed last)}{reason}"
    else none

def table : OptionTable where
  letters := ['c', 'C', 'd', 's', 't'].map (·, .never)
  names :=
    [("complement", 'c'), ("delete", 'd'), ("squeeze-repeats", 's'), ("truncate-set1", 't'), ("help", 'h'),
      ("version", 'V')].map fun (name, letter) => (name, letter, .never)
  mixed := false

def run (launch : Launch) : Outcome :=
  let input := launch.input
  match Arguments.read table launch.arguments with
  | .error reason => misuse "tr" reason input
  | .ok arguments =>
    let options : Options := {
      delete := arguments.has 'd'
      squeezes := arguments.has 's'
      complement := arguments.has 'c' || arguments.has 'C'
      truncate := arguments.has 't' }
    match operandFault? options arguments.operands, arguments.operands with
    | some reason, _ => misuse "tr" reason input
    | none, [] => misuse "tr" "missing operand" input
    | none, first :: rest =>
      let result := do
        let source ← setOf first
        let target ← rest.head?.mapM setOf
        onSets options source target input
      let warned := String.join ((doubts (first :: rest)).map fun doubt => s!"tr: {doubt}\n")
      match result, launch.inlet.fault with
      | .error reason, _ => refuse 1 s!"{warned}tr: {reason}\n" input
      | .ok _, some fault => refuse 1 s!"{warned}tr: read error: {fault.reason}\n" input
      | .ok output, none =>
        let exchanged : Outcome := { output, errors := Bytes.ofText warned }
        exchanged.through launch.outletFault 1 fun fault => s!"tr: write error: {fault.reason}\n"

end Offside.Tool.Exchange
