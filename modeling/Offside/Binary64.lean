/-!
# Binary64 numbers

A number of the language is an IEEE binary64 value.  It is kept as a sign and a
magnitude, the 63 bits below the sign read as a natural number.  Every finite
magnitude stands for a whole number of units of `2 ^ (-1074)`, so rounding a
decimal to the nearest number is exact arithmetic on natural numbers.
-/

namespace Offside

/-- A binary64 value: its sign bit and the 63-bit pattern below it. -/
structure Binary64 where
  negative : Bool
  magnitude : Nat
deriving DecidableEq, Repr

namespace Binary64

/-- The pattern of infinity.  Smaller patterns are finite, greater ones are not numbers. -/
def infinity : Nat := 2047 * Nat.pow 2 52

def isFinite (x : Binary64) : Bool := x.magnitude < infinity

def isNaN (x : Binary64) : Bool := infinity < x.magnitude

/-- The size of a finite magnitude in units of `2 ^ (-1074)`.  The pattern of
infinity gets the size that the next number would have. -/
def units (magnitude : Nat) : Nat :=
  if magnitude < Nat.pow 2 52 then magnitude
  else (Nat.pow 2 52 + magnitude % Nat.pow 2 52) * Nat.pow 2 (magnitude / Nat.pow 2 52 - 1)

/-- The greatest magnitude of at most `size` units. -/
def floorOfUnits (size : Nat) : Nat :=
  if size < Nat.pow 2 52 then size
  else (size.log2 - 52) * Nat.pow 2 52 + size / Nat.pow 2 (size.log2 - 52)

/-- The magnitude nearest to `num / den`.  A tie goes to the even pattern, and what
lies at least half a step above the greatest finite number is infinity. -/
def nearest (num den : Nat) : Nat :=
  let below := floorOfUnits (num * Nat.pow 2 1074 / den)
  if infinity ≤ below then infinity
  else
    let twice := 2 * (num * Nat.pow 2 1074)
    let middle := (units below + units (below + 1)) * den
    if twice < middle then below
    else if middle < twice then below + 1
    else if below % 2 = 0 then below
    else below + 1

/-- The number nearest to `num / den`. -/
def ofRatio (num den : Nat) : Binary64 := ⟨false, nearest num den⟩

/-- The number nearest to `digits * 10 ^ scale`. -/
def ofScientific (digits : Nat) (scale : Int) : Binary64 :=
  match scale with
  | .ofNat up => ofRatio (digits * Nat.pow 10 up) 1
  | .negSucc down => ofRatio digits (Nat.pow 10 (down + 1))

/-- The 64 bits of a number, the sign first. -/
def toBits (x : Binary64) : Nat := (if x.negative then Nat.pow 2 63 else 0) + x.magnitude

instance : OfNat Binary64 n := ⟨ofRatio n 1⟩

end Binary64

end Offside
