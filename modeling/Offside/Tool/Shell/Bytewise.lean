import Offside.Text.Repaired
import Offside.Tool

/-!
# Bytewise text

A shell takes a text for a row of bytes.  Each byte is held as the character of the same number, so that texts that
are not valid UTF-8 can be held as well.
-/

namespace Offside.Tool.Shell

def ofBytes (bytes : Bytes) : String := String.ofList (bytes.map fun byte => Char.ofNat byte.toNat)

def toBytes (text : String) : Bytes := text.toList.map fun c => UInt8.ofNat c.toNat

def bytewise (text : String) : String := ofBytes (Bytes.ofText text)

def readable (text : String) : String := String.ofList (Text.Repaired.decode (toBytes text))

def signedByte (c : Char) : Int := if c.toNat < 128 then c.toNat else (c.toNat : Int) - 256

mutual

def quotedRest : List Char → String
  | [] => "'"
  | c :: rest => if c = '\x27' then "'\"'" ++ quotesRest rest else c.toString ++ quotedRest rest

def quotesRest : List Char → String
  | [] => "\""
  | c :: rest => if c = '\x27' then "'" ++ quotesRest rest else "\"'" ++ c.toString ++ quotedRest rest

end

/-- A text between single quotes.  Single quotes inside stand between double ones. -/
def quoted (text : String) : String := "'" ++ quotedRest text.toList

end Offside.Tool.Shell
