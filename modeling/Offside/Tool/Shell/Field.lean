import Offside.Tool.Shell.Glob

/-!
# Fields

What a word comes to is divided into fields where its replaced parts hold separators.  A quotation makes a field of
its own even if it is empty.
-/

namespace Offside.Tool.Shell

/-- What a word comes to before it is divided.  A region is divided at separators, or, if it is `broken`, only where it
has breaks. -/
inductive Item
  | quotation
  | glyph (glyph : Glyph)
  | region (isBroken : Bool) (glyphs : List Glyph)
deriving DecidableEq, Repr

def fieldBreak : Char := '\x00'

def usualSeparators : List Char := [' ', '\t', '\n']

def glyphsOf (items : List Item) : List Glyph :=
  items.flatMap fun
    | .quotation => []
    | .glyph glyph => [glyph]
    | .region _ glyphs => glyphs

/-- Fields that are complete, the last one first, and the one that is being read, its last glyph first. -/
structure Division where
  done : List (List Glyph) := []
  current : List Glyph := []
  isStarted : Bool := false
  wasBroken : Bool := false

namespace Division

def add (division : Division) (glyph : Glyph) : Division :=
  { division with current := glyph :: division.current, isStarted := true }

def close (division : Division) : Division :=
  { division with done := division.current.reverse :: division.done, current := [], isStarted := false }

/-- Blanks and breaks: several of them are one separator. -/
def isBlank (c : Char) : Bool := c = fieldBreak || usualSeparators.contains c

/-- Divides a region.  Behind a separator blanks are skipped, and, if it was a blank itself, one other separator:
`skipping` says whether that may still come. -/
def divide (separators : List Char) (isBroken : Bool) : Division → (skipping : Option Bool) → List Glyph → Division
  | division, _, [] => division
  | division, skipping, glyph :: rest =>
    let isSeparator := glyph.char = fieldBreak || (!isBroken && separators.contains glyph.char)
    if !isSeparator then divide separators isBroken (division.add glyph) none rest
    else if skipping.isSome && isBlank glyph.char then divide separators isBroken division skipping rest
    else if skipping = some true then divide separators isBroken division (some false) rest
    else
      let isSoft := !(division.wasBroken || isBroken) && isBlank glyph.char
      if !division.isStarted && isSoft then divide separators isBroken division none rest
      else divide separators isBroken division.close (if isBroken then none else some isSoft) rest

def item (separators : List Char) (division : Division) : Item → Division
  | .quotation => { division with isStarted := true }
  | .glyph glyph => division.add glyph
  | .region isBroken glyphs =>
    { divide separators isBroken division none glyphs with wasBroken := isBroken }

end Division

def fieldsOf (separators : List Char) (items : List Item) : List (List Glyph) :=
  let division := items.foldl (Division.item separators) {}
  let division := if division.isStarted || division.wasBroken then division.close else division
  division.done.reverse

/-! ## Shares -/

/-- Shares of a line for some names: those that are complete, the last one first, the one that is being read, its last
character first, and how many names are left.  The last share has everything, apart from blanks at its end: `kept` is
its length without them. -/
structure Sharing where
  done : List String := []
  current : List Char := []
  names : Nat
  kept : Option Nat := none
  isSoft : Bool := false
  skipping : Option Bool := none

namespace Sharing

def add (sharing : Sharing) (c : Char) : Sharing := { sharing with current := c :: sharing.current }

def char (separators : List Char) (sharing : Sharing) (c : Char) : Sharing :=
  let isSeparator := separators.contains c
  let isBlank := isSeparator && usualSeparators.contains c
  if sharing.names = 0 then
    if isBlank then { sharing.add c with kept := sharing.kept <|> some sharing.current.length }
    else
      { sharing.add c with
        kept := if isSeparator && sharing.isSoft then sharing.kept else none
        isSoft := false }
  else if !isSeparator then { sharing.add c with skipping := none }
  else if sharing.skipping.isSome && isBlank then sharing
  else if sharing.skipping = some true then { sharing with skipping := some false }
  else if sharing.current.isEmpty && isBlank then sharing
  else if sharing.names = 1 then
    { sharing.add c with names := 0, kept := some sharing.current.length, isSoft := isBlank, skipping := none }
  else
    { sharing with
      done := String.ofList sharing.current.reverse :: sharing.done
      current := []
      names := sharing.names - 1
      skipping := some isBlank }

/-- Adds an item of a line.  What is escaped is no separator. -/
def item (separators : List Char) (sharing : Sharing) : Item → Sharing
  | .quotation => sharing
  | .glyph glyph => { sharing.add glyph.char with skipping := none }
  | .region _ glyphs =>
    (glyphs.foldl (fun sharing glyph => sharing.char separators glyph.char)
      { sharing with isSoft := false, skipping := none })

end Sharing

def sharesOf (separators : List Char) (names : Nat) (items : List Item) : List String :=
  let sharing := items.foldl (Sharing.item separators) { names }
  let text := sharing.current.reverse
  let last := String.ofList (text.take (sharing.kept.getD text.length))
  sharing.done.reverse ++ (if last = "" then [] else [last])

end Offside.Tool.Shell
