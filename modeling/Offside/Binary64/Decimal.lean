import Offside.Binary64

/-!
# Decimal text of numbers

A number is written with the fewest digits that read back to it, without an
exponent and without a point when there is no fraction.  Of two candidates with
as many digits the nearer one is taken, and the greater one in a tie.
-/

namespace Offside.Binary64

/-- The value of a run of decimal digits. -/
def digitsValue (digits : List Char) : Nat :=
  digits.foldl (fun value c => 10 * value + (c.toNat - '0'.toNat)) 0

/-- Reads decimal digits with an optional fraction, rounding to the nearest number. -/
def ofDecimal (whole fraction : List Char) : Binary64 :=
  ofRatio (digitsValue (whole ++ fraction)) (Nat.pow 10 fraction.length)

/-- Whether `num / den` rounds to `magnitude`: it is at most half a step away, and
exactly half a step only from an even pattern. -/
def roundsTo (magnitude num den : Nat) : Bool :=
  let twice := 2 * (num * Nat.pow 2 1074)
  let low := (units (magnitude - 1) + units magnitude) * den
  let high := (units magnitude + units (magnitude + 1)) * den
  if magnitude % 2 = 0 then low ≤ twice && twice ≤ high
  else low < twice && twice < high

/-- The decimal `digits * 10 ^ exponent`. -/
structure Decimal where
  digits : Nat
  exponent : Int

/-- The multiple of `10 ^ exponent` that reads back to `magnitude`, if one of its two
neighbours on that grid does. -/
def onGrid? (magnitude : Nat) (exponent : Int) : Option Decimal :=
  let num := Nat.pow 10 exponent.toNat
  let den := Nat.pow 10 (-exponent).toNat
  let below := units magnitude * den / (Nat.pow 2 1074 * num)
  let remainder := units magnitude * den % (Nat.pow 2 1074 * num)
  let downFits := roundsTo magnitude (below * num) den
  let upFits := roundsTo magnitude ((below + 1) * num) den
  if downFits && (!upFits || 2 * remainder < Nat.pow 2 1074 * num) then some ⟨below, exponent⟩
  else if upFits then some ⟨below + 1, exponent⟩
  else none

/-- The decimal on the coarsest grid, from `10 ^ (fineness - 1074)` downwards, that
reads back to `magnitude`.  On the finest grid every magnitude is a point. -/
def shortestFrom (magnitude : Nat) : Nat → Decimal
  | 0 => ⟨units magnitude * Nat.pow 5 1074, -1074⟩
  | fineness + 1 =>
    match onGrid? magnitude (fineness + 1 - 1074) with
    | some decimal => decimal
    | none => shortestFrom magnitude fineness

/-- The shortest decimal of a finite magnitude.  A power of ten above the whole part
is the coarsest candidate. -/
def shortest (magnitude : Nat) : Decimal :=
  shortestFrom magnitude ((Nat.toDigits 10 (units magnitude / Nat.pow 2 1074)).length + 1074)

/-- Writes a decimal without an exponent. -/
def Decimal.positional (decimal : Decimal) : List Char :=
  match decimal.exponent with
  | .ofNat zeros => Nat.toDigits 10 decimal.digits ++ List.replicate zeros '0'
  | .negSucc n =>
    let places := n + 1
    let digits := Nat.toDigits 10 decimal.digits
    let padded := List.replicate (places + 1 - digits.length) '0' ++ digits
    padded.take (padded.length - places) ++ '.' :: padded.drop (padded.length - places)

/-- The text of a finite magnitude. -/
def magnitudeText (magnitude : Nat) : List Char :=
  if magnitude = 0 then ['0'] else (shortest magnitude).positional

/-- The text of a number. -/
def text (x : Binary64) : String :=
  if x.isNaN then "NaN"
  else
    let unsigned := if x.isFinite then String.ofList (magnitudeText x.magnitude) else "inf"
    if x.negative then "-" ++ unsigned else unsigned

end Offside.Binary64
