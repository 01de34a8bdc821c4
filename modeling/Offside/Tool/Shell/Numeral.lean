/-!
# Numerals

Whole numbers at the front of a text.  A zero in front is for base eight, and an `x` behind it for base sixteen,
where the base is left open.
-/

namespace Offside.Tool.Shell

def isSpace (c : Char) : Bool := c = ' ' || (9 ≤ c.toNat && c.toNat ≤ 13)

def digit? (base : Nat) (c : Char) : Option Nat :=
  let value :=
    if c.isDigit then c.toNat - 48
    else if 'a' ≤ c && c ≤ 'z' then c.toNat - 87
    else if 'A' ≤ c && c ≤ 'Z' then c.toNat - 55
    else base
  if value < base then some value else none

def digitsFrom (base : Nat) : (value : Nat) → List Char → Nat × List Char
  | value, [] => (value, [])
  | value, c :: rest =>
    match digit? base c with
    | some found => digitsFrom base (base * value + found) rest
    | none => (value, c :: rest)

def digits? (base : Nat) : List Char → Option (Nat × List Char)
  | [] => none
  | c :: rest => (digit? base c).map fun found => digitsFrom base found rest

def unsigned? : List Char → Option (Nat × List Char)
  | '0' :: x :: rest =>
    let hexadecimal := if x = 'x' || x = 'X' then digits? 16 rest else none
    hexadecimal <|> digits? 8 ('0' :: x :: rest)
  | text => digits? 10 text

/-- A sign at the front of a text: whether it is a minus, and what follows it. -/
def signOf : List Char → Bool × List Char
  | '-' :: rest => (true, rest)
  | '+' :: rest => (false, rest)
  | text => (false, text)

/-- A number at the front of a text, which may have blanks and a sign before it, and what follows it. -/
def numeral? (base : Option Nat) (text : List Char) : Option (Int × List Char) :=
  let (isNegative, digits) := signOf (text.dropWhile isSpace)
  let found := match base with
    | some base => digits? base digits
    | none => unsigned? digits
  found.map fun (value, rest) => (if isNegative then -(value : Int) else value, rest)

def leastSigned : Int := -(Nat.pow 2 63 : Nat)

def greatestSigned : Int := (Nat.pow 2 63 : Nat) - 1

def clamped (value : Int) : Int := max leastSigned (min greatestSigned value)

/-- A whole text as a number of 64 bits with a sign.  Blanks may surround it. -/
def wholeNumber? (base : Option Nat) (text : String) : Option Int :=
  match numeral? base text.toList with
  | some (value, rest) => if rest.all isSpace && clamped value = value then some value else none
  | none => none

end Offside.Tool.Shell
