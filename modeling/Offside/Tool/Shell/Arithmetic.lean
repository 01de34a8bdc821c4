import Offside.Tool.Shell.Numeral
import Offside.Tool.Shell.Script

/-!
# Arithmetic of the shell

Expressions over whole numbers of 64 bits, with variables and assignments.  An expression is evaluated while it is
read: what stands left of a mistake has been done when the mistake is found.
-/

namespace Offside.Tool.Shell.Arithmetic

/-- Why an expression has no value. -/
inductive Fault
  | noPrimary
  | noEnd
  | noBracket
  | noColon
  | divisionByZero
  | badValue (text : String)
  | fixedName (name : String)
deriving DecidableEq, Repr

def Fault.message : Fault → String
  | .noPrimary => "expecting primary"
  | .noEnd => "expecting EOF"
  | .noBracket => "expecting ')'"
  | .noColon => "expecting ':'"
  | .divisionByZero => "division by zero"
  | .badValue text => s!"Illegal number: {text}"
  | .fixedName name => s!"{name}: is read only"

def Fault.isOfVariable : Fault → Bool
  | .badValue _ | .fixedName _ => true
  | _ => false

inductive Lexeme
  | number (value : Int)
  | name (text : String)
  | mark (text : String)
deriving DecidableEq, Repr

def marks : List String :=
  ["<<=", ">>=", "&&", "||", "==", "!=", "<=", ">=", "<<", ">>", "+=", "-=", "*=", "/=", "%=", "&=", "|=", "^=", "+",
    "-", "*", "/", "%", "<", ">", "=", "!", "~", "&", "|", "^", "(", ")", "?", ":"]

def wrapped (value : Int) : Int := Int.bmod value (Nat.pow 2 64)

/-- Cuts an expression, at most `rounds` pieces of it.  A character that is no part of expressions ends it as a mark
that no expression has. -/
def lexemes : (rounds : Nat) → List Char → List Lexeme
  | 0, _ | _, [] => []
  | rounds + 1, c :: rest =>
    if c = ' ' || c = '\t' || c = '\n' then lexemes rounds rest
    else if c.isDigit then
      match unsigned? (c :: rest) with
      | some (value, rest) => .number (min value greatestSigned) :: lexemes rounds rest
      | none => []
    else if isNameStart c then
      let name := c :: rest.takeWhile isNameChar
      .name (String.ofList name) :: lexemes rounds (rest.dropWhile isNameChar)
    else
      match marks.find? fun mark => mark.toList.isPrefixOf (c :: rest) with
      | some mark => .mark mark :: lexemes rounds ((c :: rest).drop mark.length)
      | none => [.mark c.toString]

def level? : String → Option Nat
  | "|" => some 1
  | "^" => some 2
  | "&" => some 3
  | "==" | "!=" => some 4
  | "<" | ">" | "<=" | ">=" => some 5
  | "<<" | ">>" => some 6
  | "+" | "-" => some 7
  | "*" | "/" | "%" => some 8
  | _ => none

/-- The mark that an assignment applies, if it is one; a plain one applies none. -/
def assigned? : String → Option String
  | "=" => some ""
  | "+=" => some "+"
  | "-=" => some "-"
  | "*=" => some "*"
  | "/=" => some "/"
  | "%=" => some "%"
  | "&=" => some "&"
  | "|=" => some "|"
  | "^=" => some "^"
  | "<<=" => some "<<"
  | ">>=" => some ">>"
  | _ => none

def ofBool (b : Bool) : Int := if b then 1 else 0

def onBits (combine : UInt64 → UInt64 → UInt64) (a b : Int) : Int :=
  let bits (value : Int) : UInt64 := UInt64.ofNat (Int.emod value (Nat.pow 2 64)).toNat
  wrapped (combine (bits a) (bits b)).toNat

def apply (mark : String) (a b : Int) : Except Fault Int :=
  let shift := (Int.emod b 64).toNat
  match mark with
  | "+" => .ok (wrapped (a + b))
  | "-" => .ok (wrapped (a - b))
  | "*" => .ok (wrapped (a * b))
  | "/" => if b = 0 then .error .divisionByZero else .ok (wrapped (Int.tdiv a b))
  | "%" => if b = 0 then .error .divisionByZero else .ok (Int.tmod a b)
  | "<" => .ok (ofBool (a < b))
  | ">" => .ok (ofBool (b < a))
  | "<=" => .ok (ofBool (a ≤ b))
  | ">=" => .ok (ofBool (b ≤ a))
  | "==" => .ok (ofBool (a = b))
  | "!=" => .ok (ofBool (a ≠ b))
  | "&" => .ok (onBits (· &&& ·) a b)
  | "|" => .ok (onBits (· ||| ·) a b)
  | "^" => .ok (onBits (· ^^^ ·) a b)
  | "<<" => .ok (wrapped (a * Nat.pow 2 shift))
  | ">>" => .ok (Int.fdiv a (Nat.pow 2 shift))
  | _ => .ok b

/-- What is known of variables: their values, and which of them cannot be changed. -/
structure Table where
  value? : String → Option String
  isFixed : String → Bool

/-- An expression that is being evaluated: its rest, and the assignments so far, the last one first. -/
structure Progress where
  rest : List Lexeme
  assignments : List (String × String) := []

abbrev Calculation := StateT Progress (Except Fault)

def skip : Calculation Unit := modify fun progress => { progress with rest := progress.rest.drop 1 }

def nextMark? : Calculation (Option String) := do
  match (← get).rest with
  | .mark mark :: _ => return some mark
  | _ => return none

def lookUp (table : Table) (name : String) : Calculation Int := do
  let text := ((← get).assignments.lookup name <|> table.value? name).getD ""
  if text.toList.all isSpace then return 0
  else
    match wholeNumber? none text with
    | some value => return value
    | none => throw (.badValue text)

def assign (table : Table) (name : String) (value : Int) : Calculation Int := do
  if table.isFixed name then throw (.fixedName name)
  modify fun progress => { progress with assignments := (name, toString value) :: progress.assignments }
  return value

mutual

/-- Evaluates an expression with assignments.  Where it is not `live` it is only read. -/
def assignment (table : Table) : (depth : Nat) → (live : Bool) → Calculation Int
  | 0, _ => throw .noPrimary
  | depth + 1, live => do
    match (← get).rest with
    | .name name :: .mark mark :: _ =>
      match assigned? mark with
      | some mark =>
        skip
        skip
        let value ← assignment table depth live
        if !live then return value
        else if mark = "" then assign table name value
        else assign table name (← apply mark (← lookUp table name) value)
      | none => conditional table depth live
    | _ => conditional table depth live

def conditional (table : Table) : (depth : Nat) → (live : Bool) → Calculation Int
  | 0, _ => throw .noPrimary
  | depth + 1, live => do
    let condition ← either table depth live
    if (← nextMark?) = some "?" then
      skip
      let yes ← assignment table depth (live && condition ≠ 0)
      if (← nextMark?) ≠ some ":" then throw .noColon
      skip
      let no ← conditional table depth (live && condition = 0)
      return if condition ≠ 0 then yes else no
    else return condition

def either (table : Table) : (depth : Nat) → (live : Bool) → Calculation Int
  | 0, _ => throw .noPrimary
  | depth + 1, live => do
    let first ← both table depth live
    if (← nextMark?) = some "||" then
      skip
      let second ← either table depth (live && first = 0)
      return ofBool (first ≠ 0 || second ≠ 0)
    else return first

def both (table : Table) : (depth : Nat) → (live : Bool) → Calculation Int
  | 0, _ => throw .noPrimary
  | depth + 1, live => do
    let first ← binary table depth live 1
    if (← nextMark?) = some "&&" then
      skip
      let second ← both table depth (live && first ≠ 0)
      return ofBool (first ≠ 0 && second ≠ 0)
    else return first

def binary (table : Table) : (depth : Nat) → (live : Bool) → (level : Nat) → Calculation Int
  | 0, _, _ => throw .noPrimary
  | depth + 1, live, level => do binaryFrom table depth live level (← primary table depth live)

def binaryFrom (table : Table) : (depth : Nat) → (live : Bool) → (level : Nat) → (left : Int) → Calculation Int
  | 0, _, _, _ => throw .noPrimary
  | depth + 1, live, level, left => do
    match ← nextMark? with
    | none => return left
    | some mark =>
      match level? mark with
      | none => return left
      | some found =>
        if found < level then return left
        else
          skip
          let right ← binary table depth live (found + 1)
          binaryFrom table depth live level (← if live then apply mark left right else pure right)

/-- Evaluates a number, a name, or an expression in brackets, with the marks in front of it. -/
def primary (table : Table) : (depth : Nat) → (live : Bool) → Calculation Int
  | 0, _ => throw .noPrimary
  | depth + 1, live => do
    match (← get).rest with
    | .number value :: _ =>
      skip
      return value
    | .name name :: _ =>
      skip
      if live then lookUp table name else return 0
    | .mark "(" :: _ =>
      skip
      let value ← assignment table depth live
      if (← nextMark?) ≠ some ")" then throw .noBracket
      skip
      return value
    | .mark "+" :: _ =>
      skip
      primary table depth live
    | .mark "-" :: _ =>
      skip
      return wrapped (-(← primary table depth live))
    | .mark "!" :: _ =>
      skip
      return ofBool ((← primary table depth live) = 0)
    | .mark "~" :: _ =>
      skip
      return -(← primary table depth live) - 1
    | _ => throw .noPrimary

end

/-- The value of the text of an expression, and the assignments in it, the last one first.  An empty text is zero. -/
def evaluate (table : Table) (text : List Char) : Except Fault (Int × List (String × String)) := do
  let found := lexemes (text.length + 1) text
  if found.isEmpty then return (0, [])
  let (value, progress) ← (assignment table (16 * found.length + 16) true).run { rest := found }
  if !progress.rest.isEmpty then throw .noEnd
  return (value, progress.assignments)

end Offside.Tool.Shell.Arithmetic
