import Offside.Binary64

/-!
# Numbers with a given number of places

A finite number is an exact fraction.  It is rounded to a decimal or binary place, and a tie goes to the even
neighbour.
-/

namespace Offside.Binary64

/-- The whole number nearest to `num / den`, the even one in a tie. -/
def rounded (num den : Nat) : Nat :=
  let below := num / den
  let twice := 2 * (num % den)
  if twice < den then below
  else if den < twice then below + 1
  else if below % 2 = 0 then below
  else below + 1

/-- The digits of a number, with zeros in front up to a count. -/
def paddedDigits (base count n : Nat) : List Char :=
  let digits := Nat.toDigits base n
  List.replicate (count - digits.length) '0' ++ digits

/-- Digits with a point before the last of them, if any stand behind it or it is `forced`. -/
def pointed (forced : Bool) (whole fraction : List Char) : List Char :=
  if fraction.isEmpty && !forced then whole else whole ++ '.' :: fraction

/-- A magnitude with `places` decimal places. -/
def fixed (forced : Bool) (places magnitude : Nat) : List Char :=
  let scaled := rounded (units magnitude * Nat.pow 10 places) (Nat.pow 2 1074)
  let digits := paddedDigits 10 (places + 1) scaled
  pointed forced (digits.take (digits.length - places)) (digits.drop (digits.length - places))

/-- The exponent of the first decimal digit of a magnitude. -/
def decimalExponent (magnitude : Nat) : Int :=
  let size := units magnitude
  let whole := size / Nat.pow 2 1074
  if size = 0 then 0
  else if 0 < whole then (Nat.toDigits 10 whole).length - 1
  else
    let guess := (Nat.toDigits 10 (Nat.pow 2 1074 / size)).length - 1
    if Nat.pow 2 1074 ≤ size * Nat.pow 10 guess then -(guess : Int) else -((guess : Int) + 1)

/-- The first digits of a magnitude, `places` behind the first one, and the exponent of the first one. -/
def leadingDigits (places magnitude : Nat) : List Char × Int :=
  let exponent := decimalExponent magnitude
  let shift : Int := places - exponent
  let scaled := rounded (units magnitude * Nat.pow 10 shift.toNat) (Nat.pow 2 1074 * Nat.pow 10 (-shift).toNat)
  let digits := paddedDigits 10 (places + 1) scaled
  if places + 1 < digits.length then (digits.dropLast, exponent + 1) else (digits, exponent)

/-- An exponent behind its mark, with a sign and at least `count` digits. -/
def exponentText (mark : Char) (count : Nat) (exponent : Int) : List Char :=
  mark :: (if exponent < 0 then '-' else '+') :: paddedDigits 10 count exponent.natAbs

/-- A magnitude with one digit before the point, `places` behind it, and an exponent. -/
def scientific (forced : Bool) (places magnitude : Nat) : List Char :=
  let (digits, exponent) := leadingDigits places magnitude
  pointed forced (digits.take 1) (digits.drop 1) ++ exponentText 'e' 2 exponent

/-- A text without the zeros at the end of its fraction. -/
def withoutZeros (text : List Char) : List Char :=
  if text.contains '.' then
    let kept := text.reverse.dropWhile (· = '0')
    (if kept.head? = some '.' then kept.drop 1 else kept).reverse
  else text

/-- A magnitude with `count` digits that count, with an exponent where it is small or large. -/
def general (forced : Bool) (count magnitude : Nat) : List Char :=
  let count := max count 1
  let (digits, exponent) := leadingDigits (count - 1) magnitude
  let tidied (text : List Char) : List Char := if forced then text else withoutZeros text
  if -4 ≤ exponent && exponent < count then
    tidied (fixed forced (count - 1 - exponent).toNat magnitude)
  else tidied (pointed forced (digits.take 1) (digits.drop 1)) ++ exponentText 'e' 2 exponent

/-- A magnitude in base sixteen with a binary exponent, and as many places as it needs if their number is not
given. -/
def hexadecimal (forced : Bool) (places : Option Nat) (magnitude : Nat) : List Char :=
  let isSmall := magnitude < Nat.pow 2 52
  let lead := if isSmall then 0 else 1
  let exponent : Int :=
    if magnitude = 0 then 0 else if isSmall then -1022 else (magnitude / Nat.pow 2 52 : Nat) - 1023
  let bits := lead * Nat.pow 2 52 + magnitude % Nat.pow 2 52
  let (whole, fraction) := match places with
    | none =>
      let digits := paddedDigits 16 13 (bits % Nat.pow 2 52)
      (lead, (digits.reverse.dropWhile (· = '0')).reverse)
    | some places =>
      if 13 ≤ places then (lead, paddedDigits 16 13 (bits % Nat.pow 2 52) ++ List.replicate (places - 13) '0')
      else
        let scaled := rounded bits (Nat.pow 16 (13 - places))
        let digits := paddedDigits 16 places (scaled % Nat.pow 16 places)
        (scaled / Nat.pow 16 places, if places = 0 then [] else digits)
  '0' :: 'x' :: pointed forced (Nat.toDigits 10 whole) fraction ++ exponentText 'p' 1 exponent

/-! ## Reading -/

/-- The digits of a base at the front of a text. -/
def runOf (isDigit : Char → Bool) (text : List Char) : List Char × List Char :=
  (text.takeWhile isDigit, text.dropWhile isDigit)

/-- Digits with a fraction at the front of a text: those before the point, those behind it, and the rest. -/
def digitsWithFraction? (isDigit : Char → Bool) (text : List Char) : Option (List Char × List Char × List Char) :=
  let (whole, rest) := runOf isDigit text
  let (fraction, rest) := match rest with
    | '.' :: behind =>
      let (fraction, behind) := runOf isDigit behind
      if whole.isEmpty && fraction.isEmpty then ([], rest) else (fraction, behind)
    | rest => ([], rest)
  if whole.isEmpty && fraction.isEmpty then none else some (whole, fraction, rest)

/-- An exponent behind one of two marks at the front of a text, or none. -/
def exponentOf (mark : Char) (text : List Char) : Int × List Char :=
  match text with
  | c :: rest =>
    if c.toLower = mark then
      let (isNegative, digits) : Bool × List Char := match rest with
        | '-' :: digits => (true, digits)
        | '+' :: digits => (false, digits)
        | digits => (false, digits)
      let (found, behind) := runOf Char.isDigit digits
      if found.isEmpty then (0, text)
      else
        let value : Nat := min 99999 (found.foldl (fun n c => 10 * n + (c.toNat - 48)) 0)
        (if isNegative then -(value : Int) else value, behind)
    else (0, text)
  | [] => (0, [])

def hexDigitValue (c : Char) : Nat :=
  if c.isDigit then c.toNat - 48 else c.toLower.toNat - 87

def isHexDigit (c : Char) : Bool := c.isDigit || ('a' ≤ c.toLower && c.toLower ≤ 'f')

/-- The magnitude nearest to `digits * base ^ scale`.  A scale that is far out of range gives zero or infinity. -/
def scaledMagnitude (base digits : Nat) (scale : Int) : Nat :=
  if digits = 0 then 0
  else if 6000 < scale then infinity
  else if scale < -12000 then 0
  else nearest (digits * Nat.pow base scale.toNat) (Nat.pow base (-scale).toNat)

/-- A magnitude in decimal digits at the front of a text. -/
def decimalMagnitude? (text : List Char) : Option (Nat × List Char) := do
  let (whole, fraction, rest) ← digitsWithFraction? Char.isDigit text
  let digits := (whole ++ fraction).foldl (fun n c => 10 * n + (c.toNat - 48)) 0
  let (exponent, rest) := exponentOf 'e' rest
  return (scaledMagnitude 10 digits (exponent - fraction.length), rest)

/-- A magnitude in digits of base sixteen at the front of a text, behind their mark. -/
def hexMagnitude? : List Char → Option (Nat × List Char)
  | '0' :: x :: text => do
    if x.toLower ≠ 'x' then none
    let (whole, fraction, rest) ← digitsWithFraction? isHexDigit text
    let digits := (whole ++ fraction).foldl (fun n c => 16 * n + hexDigitValue c) 0
    let (exponent, rest) := exponentOf 'p' rest
    return (scaledMagnitude 2 digits (exponent - 4 * fraction.length), rest)
  | _ => none

/-- The words for what is not finite, and their magnitudes. -/
def namedMagnitudes : List (String × Nat) :=
  [("infinity", infinity), ("inf", infinity), ("nan", infinity + Nat.pow 2 51)]

/-- One of the words for what is not finite at the front of a text. -/
def namedMagnitude? (text : List Char) : Option (Nat × List Char) :=
  (namedMagnitudes.find? fun (name, _) => (text.take name.length).map Char.toLower = name.toList).map
    fun (name, magnitude) => (magnitude, text.drop name.length)

/-- A magnitude at the front of a text. -/
def magnitudeOf? (text : List Char) : Option (Nat × List Char) :=
  hexMagnitude? text <|> decimalMagnitude? text <|> namedMagnitude? text

end Offside.Binary64
