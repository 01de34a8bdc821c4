import Offside.Binary64

/-!
# Numbers and dates of TOML

Which words are integers, floats, dates and times.
-/

namespace Offside.Toml.Scalar

/-- Whether a text is made of digits with single separators between them, by the given notion of digit. -/
def isDigitRun (isDigit : Char → Bool) : List Char → Bool
  | [] => false
  | [c] => isDigit c
  | c :: '_' :: rest => isDigit c && isDigitRun isDigit rest
  | c :: rest => isDigit c && isDigitRun isDigit rest

def isHexDigit (c : Char) : Bool :=
  c.isDigit || ('a' ≤ c && c ≤ 'f') || ('A' ≤ c && c ≤ 'F')

/-- The value of a hexadecimal digit. -/
def hexValue (c : Char) : Nat :=
  if c.isDigit then c.toNat - '0'.toNat
  else if 'a' ≤ c then c.toNat - 'a'.toNat + 10
  else c.toNat - 'A'.toNat + 10

/-- The value of a run of digits in a base, separators left out. -/
def runValue (base : Nat) (digits : List Char) : Nat :=
  (digits.filter (· ≠ '_')).foldl (fun value c => base * value + hexValue c) 0

/-- Whether a run of decimal digits has no zero in front of others. -/
def isPlainRun (digits : List Char) : Bool :=
  isDigitRun Char.isDigit digits && (digits.length = 1 || digits.head? ≠ some '0')

def unsigned : List Char → List Char
  | '+' :: rest | '-' :: rest => rest
  | digits => digits

/-- Whether a word is a decimal integer of 64 bits. -/
def isDecimal (word : List Char) : Bool :=
  let digits := unsigned word
  let limit := if word.head? = some '-' then Nat.pow 2 63 else Nat.pow 2 63 - 1
  isPlainRun digits && runValue 10 digits ≤ limit

/-- Whether a word is an integer, in base ten or behind the mark of another base. -/
def isInteger (word : List Char) : Bool :=
  match word with
  | '0' :: 'x' :: digits => isDigitRun isHexDigit digits && runValue 16 digits < Nat.pow 2 63
  | '0' :: 'o' :: digits =>
    isDigitRun (fun c => '0' ≤ c && c ≤ '7') digits && runValue 8 digits < Nat.pow 2 63
  | '0' :: 'b' :: digits =>
    isDigitRun (fun c => c = '0' || c = '1') digits && runValue 2 digits < Nat.pow 2 63
  | word => isDecimal word

/-- The value of a run of digits behind an optional sign. -/
def signedValue : List Char → Int
  | '-' :: digits => -(runValue 10 digits : Int)
  | '+' :: digits => runValue 10 digits
  | digits => runValue 10 digits

/-- Whether digits and a power of ten stand for a number that is nearest to a finite one.  The number of digits
decides unless the value is close to the greatest finite number. -/
def staysFinite (digits : Nat) (scale : Int) : Bool :=
  let size := (Nat.toDigits 10 digits).length + scale
  digits = 0 || size < 300 || (size < 320 && (Binary64.ofScientific digits scale).isFinite)

/-- Whether a word is a float: a whole part and a fraction, an exponent or both, or a special value.  A positive
number that is too great is refused. -/
def isFloat (word : List Char) : Bool :=
  let body := unsigned word
  if body = "inf".toList || body = "nan".toList then true
  else
    let isMark (c : Char) : Bool := c = 'e' || c = 'E'
    let mantissa := body.takeWhile (!isMark ·)
    let exponent := (body.dropWhile (!isMark ·)).drop 1
    let hasExponent := body.any isMark
    let whole := mantissa.takeWhile (· ≠ '.')
    let fraction := (mantissa.dropWhile (· ≠ '.')).drop 1
    let hasFraction := mantissa.contains '.'
    isPlainRun whole && (hasFraction || hasExponent)
      && (!hasFraction || isDigitRun Char.isDigit fraction)
      && (!hasExponent || isDigitRun Char.isDigit (unsigned exponent))
      && (word.head? = some '-'
        || staysFinite (runValue 10 (whole ++ fraction))
          (signedValue exponent - (fraction.filter (· ≠ '_')).length))

/-- The value of a number of exactly `count` digits. -/
def fixed? (count : Nat) (digits : List Char) : Option Nat :=
  if digits.length = count && digits.all Char.isDigit then some (runValue 10 digits) else none

def isLeapYear (year : Nat) : Bool := year % 4 = 0 && (year % 100 ≠ 0 || year % 400 = 0)

def daysOfMonth (year month : Nat) : Nat :=
  if month = 2 then (if isLeapYear year then 29 else 28)
  else if [4, 6, 9, 11].contains month then 30
  else 31

/-- Whether a word is a day of the calendar, written `year-month-day`. -/
def isDate (word : List Char) : Bool :=
  match fixed? 4 (word.take 4), fixed? 2 ((word.drop 5).take 2), fixed? 2 (word.drop 8) with
  | some year, some month, some day =>
    (word.drop 4).head? = some '-' && (word.drop 7).head? = some '-'
      && 1 ≤ month && month ≤ 12 && 1 ≤ day && day ≤ daysOfMonth year month
  | _, _, _ => false

/-- Whether a word is a time of day, written `hour:minute:second` with an optional fraction. -/
def isTime (word : List Char) : Bool :=
  match fixed? 2 (word.take 2), fixed? 2 ((word.drop 3).take 2), fixed? 2 ((word.drop 6).take 2) with
  | some hour, some minute, some second =>
    (word.drop 2).head? = some ':' && (word.drop 5).head? = some ':'
      && hour ≤ 23 && minute ≤ 59 && second ≤ 60
      && match word.drop 8 with
        | [] => true
        | '.' :: fraction => !fraction.isEmpty && fraction.all Char.isDigit
        | _ => false
  | _, _, _ => false

/-- Whether a word is an offset from universal time. -/
def isOffset (word : List Char) : Bool :=
  match word with
  | ['z'] | ['Z'] => true
  | sign :: rest =>
    match fixed? 2 (rest.take 2), fixed? 2 (rest.drop 3) with
    | some hour, some minute =>
      (sign = '+' || sign = '-') && (rest.drop 2).head? = some ':' && hour ≤ 23 && minute ≤ 59
    | _, _ => false
  | [] => false

/-- Whether a word is a time of day, with or without an offset. -/
def isTimeWithOffset (word : List Char) : Bool :=
  let isTimePart (c : Char) : Bool := c.isDigit || c = ':' || c = '.'
  let offset := word.dropWhile isTimePart
  isTime (word.takeWhile isTimePart) && (offset.isEmpty || isOffset offset)

/-- Whether a word is a date, a time, or a date and a time with an optional offset. -/
def isDatetime (word : List Char) : Bool :=
  isDate word || isTime word
    || (isDate (word.take 10) && ['t', 'T', ' '].contains ((word.drop 10).headD 'x')
      && isTimeWithOffset (word.drop 11))

end Offside.Toml.Scalar
