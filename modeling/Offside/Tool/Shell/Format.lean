import Offside.Binary64.Places
import Offside.Tool.Shell.Bytewise
import Offside.Tool.Shell.Numeral

/-!
# Formatted printing

Texts with escapes, and formats whose places are filled with arguments.
-/

namespace Offside.Tool.Shell.Format

/-- A text that may end early. -/
structure Escaped where
  text : List Char := []
  isCut : Bool := false
deriving DecidableEq, Repr

def octal (text : List Char) : Char × List Char :=
  let digits := (text.takeWhile fun c => '0' ≤ c && c ≤ '7').take 3
  (Char.ofNat (digits.foldl (fun n c => 8 * n + (c.toNat - 48)) 0 % 256), text.drop digits.length)

/-- The character that a backslash and the text behind it stand for, and what follows them. -/
def escape : List Char → Char × List Char
  | [] => ('\\', [])
  | c :: rest =>
    match c with
    | 'n' => ('\n', rest)
    | 't' => ('\t', rest)
    | 'r' => ('\r', rest)
    | 'a' => ('\x07', rest)
    | 'b' => ('\x08', rest)
    | 'e' => ('\x1b', rest)
    | 'f' => ('\x0c', rest)
    | 'v' => ('\x0b', rest)
    | '\\' => ('\\', rest)
    | c => if '0' ≤ c && c ≤ '7' then octal (c :: rest) else ('\\', c :: rest)

/-- A text with its escapes resolved, at most `rounds` characters of it.  Octal digits may have one more zero in
front, and a `c` ends the text. -/
def unescape : (rounds : Nat) → List Char → Escaped
  | 0, _ | _, [] => {}
  | _, '\\' :: 'c' :: _ => { isCut := true }
  | rounds + 1, '\\' :: '0' :: rest =>
    let (c, rest) := octal rest
    let others := unescape rounds rest
    { others with text := c :: others.text }
  | rounds + 1, '\\' :: rest =>
    let (c, rest) := escape rest
    let others := unescape rounds rest
    { others with text := c :: others.text }
  | rounds + 1, c :: rest =>
    let others := unescape rounds rest
    { others with text := c :: others.text }

def unescaped (text : String) : Escaped := unescape (text.length + 1) text.toList

/-- How a place of a format is filled. -/
structure Place where
  toLeft : Bool := false
  withZeros : Bool := false
  withPlus : Bool := false
  withSpace : Bool := false
  withBase : Bool := false
  width : Nat := 0
  precision : Option Nat := none
deriving DecidableEq, Repr

/-- What was printed so far: the text, its last character first, the arguments that are left, and what is wrong with
others. -/
structure Draft where
  text : List Char := []
  arguments : List String
  faults : List String := []
  code : Nat := 0
  isCut : Bool := false
  hasPlaces : Bool := false

namespace Draft

def put (draft : Draft) (text : List Char) : Draft := { draft with text := text.reverse ++ draft.text }

def take (draft : Draft) : Option String × Draft :=
  (draft.arguments.head?, { draft with arguments := draft.arguments.drop 1, hasPlaces := true })

def complain (draft : Draft) (fault : String) : Draft :=
  { draft with faults := draft.faults ++ [fault], code := 1 }

def stop (draft : Draft) (fault : String) : Draft := { draft.complain fault with code := 2, isCut := true }

/-- Takes the next argument as a number, read by `read?`.  A quote stands before a character whose number is meant, and
no argument and an empty one are `zero`. -/
def takeNumber {α : Type} (draft : Draft) (zero : α) (ofNat : Nat → α)
    (read? : List Char → Option (α × List Char × Bool)) : α × Draft :=
  match draft.take with
  | (none, draft) => (zero, draft)
  | (some text, draft) =>
    match text.toList with
    | [] => (zero, draft)
    | first :: rest =>
      if first = '\x27' || first = '"' then (ofNat ((rest.head?.map Char.toNat).getD 0), draft)
      else
        match read? (first :: rest) with
        | none => (zero, draft.complain s!"{text}: expected numeric value")
        | some (value, [], true) => (value, draft)
        | some (value, [], false) => (value, draft.complain s!"{text}: Numerical result out of range")
        | some (value, _ :: _, _) => (value, draft.complain s!"{text}: not completely converted")

def takeSigned (draft : Draft) : Int × Draft :=
  draft.takeNumber 0 (·) fun text =>
    (numeral? none text).map fun (value, rest) => (clamped value, rest, clamped value = value)

/-- Takes the next argument as a whole number without a sign.  A negative one counts from the greatest one down. -/
def takeUnsigned (draft : Draft) : Nat × Draft :=
  draft.takeNumber 0 (·) fun text =>
    (numeral? none text).map fun (value, rest) =>
      let fits := value.natAbs < Nat.pow 2 64
      (if fits then (Int.emod value (Nat.pow 2 64)).toNat else Nat.pow 2 64 - 1, rest, fits)

def takeFraction (draft : Draft) : Binary64 × Draft :=
  draft.takeNumber 0 (fun n => Binary64.ofRatio n 1) fun text =>
    let (negative, digits) := signOf (text.dropWhile isSpace)
    (Binary64.magnitudeOf? digits).map fun (magnitude, rest) =>
      let isExact := magnitude ≠ Binary64.infinity || (digits.head?.any fun c => c.toLower = 'i')
      (⟨negative, magnitude⟩, rest, isExact)

end Draft

def Place.fit (place : Place) (text : List Char) : List Char :=
  let missing := List.replicate (place.width - text.length) ' '
  if place.toLeft then text ++ missing else missing ++ text

/-- The digits of a number with a sign in front, in a place.  Zeros may fill it. -/
def Place.filled (place : Place) (hasZeros : Bool) (sign : List Char) (digits : List Char) : List Char :=
  let zeros :=
    if hasZeros && !place.toLeft then List.replicate (place.width - sign.length - digits.length) '0' else []
  place.fit (sign ++ zeros ++ digits)

def Place.number (place : Place) (sign : List Char) (digits : List Char) : List Char :=
  let digits := match place.precision with
    | some least => if digits = ['0'] && least = 0 then [] else List.replicate (least - digits.length) '0' ++ digits
    | none => digits
  place.filled (place.withZeros && place.precision.isNone) sign digits

def Place.sign (place : Place) (isNegative : Bool) : List Char :=
  if isNegative then ['-'] else if place.withPlus then ['+'] else if place.withSpace then [' '] else []

def Place.signed (place : Place) (value : Int) : List Char :=
  place.number (place.sign (value < 0)) (toString value.natAbs).toList

def Place.unsigned (place : Place) (base : Nat) (start : String) (value : Nat) : List Char :=
  let digits := Nat.toDigits base value
  if place.withBase && base = 8 then
    let digits := if digits.head? = some '0' then digits else '0' :: digits
    let least := place.precision.getD 0
    { place with precision := place.precision.map fun _ => max least digits.length }.number [] digits
  else place.number (if place.withBase && value ≠ 0 then start.toList else []) digits

def Place.fraction (place : Place) (letter : Char) (value : Binary64) : List Char :=
  let forced := place.withBase
  let places := place.precision.getD 6
  let small :=
    if value.isNaN then ['n', 'a', 'n']
    else if !value.isFinite then ['i', 'n', 'f']
    else
      match letter.toLower with
      | 'e' => Binary64.scientific forced places value.magnitude
      | 'g' => Binary64.general forced places value.magnitude
      | 'a' => Binary64.hexadecimal forced place.precision value.magnitude
      | _ => Binary64.fixed forced places value.magnitude
  let text := if letter.isUpper then small.map Char.toUpper else small
  let sign := place.sign value.negative
  let hasZeros := place.withZeros && value.isFinite
  if letter.toLower = 'a' && value.isFinite then place.filled hasZeros (sign ++ text.take 2) (text.drop 2)
  else place.filled hasZeros sign text

def Place.text (place : Place) (text : List Char) : List Char :=
  place.fit (match place.precision with
    | some n => text.take n
    | none => text)

def flags : Place → List Char → Place × List Char
  | place, '-' :: rest => flags { place with toLeft := true } rest
  | place, '0' :: rest => flags { place with withZeros := true } rest
  | place, '+' :: rest => flags { place with withPlus := true } rest
  | place, ' ' :: rest => flags { place with withSpace := true } rest
  | place, '#' :: rest => flags { place with withBase := true } rest
  | place, rest => (place, rest)

def size (draft : Draft) (text : List Char) : Option Int × Draft × List Char :=
  match text with
  | '*' :: rest =>
    let (value, draft) := draft.takeSigned
    (some value, draft, rest)
  | text =>
    let digits := text.takeWhile Char.isDigit
    let value : Nat := digits.foldl (fun n c => 10 * n + (c.toNat - 48)) 0
    (if digits.isEmpty then none else some value, draft, text.drop digits.length)

def fillPlace (draft : Draft) (place : Place) (letter : Char) (directive : String) : Draft :=
  match letter with
  | 'd' | 'i' =>
    let (value, draft) := draft.takeSigned
    draft.put (place.signed value)
  | 'u' =>
    let (value, draft) := draft.takeUnsigned
    draft.put (place.unsigned 10 "" value)
  | 'o' =>
    let (value, draft) := draft.takeUnsigned
    draft.put (place.unsigned 8 "0" value)
  | 'x' =>
    let (value, draft) := draft.takeUnsigned
    draft.put (place.unsigned 16 "0x" value)
  | 'X' =>
    let (value, draft) := draft.takeUnsigned
    draft.put ((place.unsigned 16 "0x" value).map Char.toUpper)
  | 's' =>
    let (value, draft) := draft.take
    draft.put (place.text (value.getD "").toList)
  | 'c' =>
    let (value, draft) := draft.take
    draft.put (place.fit [(value.bind fun text => text.toList.head?).getD '\x00'])
  | 'b' =>
    let (value, draft) := draft.take
    let found := unescaped (value.getD "")
    { draft.put (place.text found.text) with isCut := found.isCut }
  | letter =>
    if ['a', 'e', 'f', 'g'].contains letter.toLower then
      let (value, draft) := draft.takeFraction
      draft.put (place.fraction letter value)
    else draft.stop s!"{directive}: invalid directive"

def place (draft : Draft) (text : List Char) : Draft × List Char :=
  let (place, rest) := flags {} text
  let (width, draft, rest) := size draft rest
  let width := width.getD 0
  let place := { place with width := width.natAbs, toLeft := place.toLeft || width < 0 }
  let (place, draft, rest) : Place × Draft × List Char := match rest with
    | '.' :: rest =>
      let (precision, draft, rest) := size draft rest
      let precision := precision.getD 0
      ({ place with precision := if precision < 0 then none else some precision.toNat }, draft, rest)
    | rest => (place, draft, rest)
  match rest with
  | [] => (draft.stop "missing format character", [])
  | letter :: rest =>
    let directive := "%" ++ String.ofList (text.take (text.length - rest.length))
    (fillPlace draft place letter directive, rest)

def fill : (rounds : Nat) → List Char → Draft → Draft
  | 0, _, draft | _, [], draft => draft
  | rounds + 1, '%' :: '%' :: rest, draft => fill rounds rest (draft.put ['%'])
  | rounds + 1, '%' :: rest, draft =>
    let (draft, rest) := place draft rest
    if draft.isCut then draft else fill rounds rest draft
  | rounds + 1, '\\' :: rest, draft =>
    let (c, rest) := escape rest
    fill rounds rest (draft.put [c])
  | rounds + 1, c :: rest, draft => fill rounds rest (draft.put [c])

def fillAll (text : String) : (rounds : Nat) → Draft → Draft
  | 0, draft => draft
  | rounds + 1, draft =>
    let filled := fill (text.length + 1) text.toList draft
    if filled.isCut || filled.arguments.isEmpty || !filled.hasPlaces then filled else fillAll text rounds filled

def print (text : String) (arguments : List String) : Draft :=
  fillAll text (arguments.length + 1) { arguments }

end Offside.Tool.Shell.Format
