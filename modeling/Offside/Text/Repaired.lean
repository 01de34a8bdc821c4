/-!
# Repaired text

Bytes are read as UTF-8.  A byte that starts no character, and the longest start of a character that does not go
on, are each read as one replacement character.
-/

namespace Offside.Text.Repaired

/-- What stands for bytes that are no character. -/
def replacement : Char := Char.ofNat 0xfffd

/-- A character of which some bytes are missing: the bits of those read, the number of those missing, and the
bounds of the next one. -/
structure Begun where
  bits : Nat
  missing : Nat
  low : UInt8 := 0x80
  high : UInt8 := 0xbf
deriving DecidableEq, Repr

/-- Characters that are complete, and the one that is not. -/
abbrev Reading := List Char × Option Begun

/-- Reads the first byte of a character.  The bounds of the second one leave out what has a shorter form, the
surrogates, and what is beyond the last character. -/
def first (byte : UInt8) : Reading :=
  let n := byte.toNat
  if n < 0x80 then ([Char.ofNat n], none)
  else if n < 0xc2 then ([replacement], none)
  else if n < 0xe0 then ([], some { bits := n - 0xc0, missing := 1 })
  else if n < 0xf0 then
    let low := if n = 0xe0 then 0xa0 else 0x80
    let high := if n = 0xed then 0x9f else 0xbf
    ([], some { bits := n - 0xe0, missing := 2, low, high })
  else if n < 0xf5 then
    let low := if n = 0xf0 then 0x90 else 0x80
    let high := if n = 0xf4 then 0x8f else 0xbf
    ([], some { bits := n - 0xf0, missing := 3, low, high })
  else ([replacement], none)

/-- Reads a byte behind a character that has begun. -/
def Begun.next (begun : Begun) (byte : UInt8) : Reading :=
  if begun.low ≤ byte && byte ≤ begun.high then
    let bits := begun.bits * 64 + (byte.toNat - 0x80)
    if begun.missing ≤ 1 then ([Char.ofNat bits], none)
    else ([], some { bits, missing := begun.missing - 1 })
  else
    let (chars, rest) := first byte
    (replacement :: chars, rest)

/-- Reads bytes behind a character that may have begun. -/
def decodeFrom : Option Begun → List UInt8 → List Char
  | none, [] => []
  | some _, [] => [replacement]
  | none, byte :: rest =>
    let (chars, begun) := first byte
    chars ++ decodeFrom begun rest
  | some begun, byte :: rest =>
    let (chars, begun) := begun.next byte
    chars ++ decodeFrom begun rest

/-- The text of bytes. -/
def decode (bytes : List UInt8) : List Char := decodeFrom none bytes

end Offside.Text.Repaired
