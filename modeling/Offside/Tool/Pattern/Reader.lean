import Offside.Tool.Pattern

/-!
# Reading patterns

Patterns are written in two ways.  In extended patterns brackets, bars and repetition marks have their meaning when
they stand alone, in basic ones most of them have it behind a backslash.
-/

namespace Offside.Tool.Pattern

/-- Why a text is no pattern. -/
inductive Mistake
  | openGroup | closedGroup | openBracket | badRange | badClass | badCollation | openBounds | badBounds | tooBig
  | nothingToRepeat | badReference | lastBackslash | bareClass
deriving DecidableEq, Repr

def Mistake.message : Mistake → String
  | .openGroup => "Unmatched ( or \\("
  | .closedGroup => "Unmatched ) or \\)"
  | .openBracket => "Unmatched [, [^, [:, [., or [="
  | .badRange => "Invalid range end"
  | .badClass => "Invalid character class name"
  | .badCollation => "Invalid collation character"
  | .openBounds => "Unmatched \\\x7b"
  | .badBounds => "Invalid content of \\\x7b\\\x7d"
  | .tooBig => "Regular expression too big"
  | .nothingToRepeat => "Invalid preceding regular expression"
  | .badReference => "Invalid back reference"
  | .lastBackslash => "Trailing backslash"
  | .bareClass => "character class syntax is [[:space:]], not [:space:]"

/-! ## Brackets -/

def upToMark? (mark : UInt8) : Bytes → Option (Bytes × Bytes)
  | first :: second :: rest =>
    if first = mark && second = 93 then some ([], rest)
    else (upToMark? mark (second :: rest)).map fun (text, rest) => (first :: text, rest)
  | _ => none

/-- A member of a bracket: a byte that may start a range, or several bytes. -/
inductive Member
  | single (value : UInt8)
  | several (values : Bytes)
deriving DecidableEq, Repr

def textOfBytes (bytes : Bytes) : String := String.ofList (bytes.map fun byte => Char.ofNat byte.toNat)

def member (text : Bytes) : Except Mistake (Member × Bytes) :=
  match text with
  | 91 :: 58 :: rest =>
    match upToMark? 58 rest with
    | none => .error .openBracket
    | some (name, rest) =>
      match Exchange.classes.lookup (textOfBytes name) with
      | some members => .ok (.several members, rest)
      | none => .error .badClass
  | 91 :: 61 :: rest =>
    match upToMark? 61 rest with
    | some ([value], rest) => .ok (.several [value], rest)
    | some _ => .error .badCollation
    | none => .error .openBracket
  | 91 :: 46 :: rest =>
    match upToMark? 46 rest with
    | some ([value], rest) => .ok (.single value, rest)
    | some _ => .error .badCollation
    | none => .error .openBracket
  | byte :: rest => .ok (.single byte, rest)
  | [] => .error .openBracket

/-- The members of a bracket up to its end, at most `rounds` of them, and what follows it.  A hyphen that is no first or
last member stands between the ends of a range. -/
def members : (rounds : Nat) → (isFirst : Bool) → Bytes → Except Mistake (Bytes × Bytes)
  | 0, _, _ => .error .openBracket
  | rounds + 1, isFirst, text => do
    match isFirst, text with
    | false, 93 :: rest => return ([], rest)
    | isFirst, text =>
      if !isFirst && text.head? = some 45 && text[1]? ≠ some 93 then throw .badRange
      let (first, rest) ← member text
      match first, rest with
      | .single low, 45 :: next :: behind =>
        if next = 93 then
          let (others, rest) ← members rounds false rest
          return (low :: others, rest)
        else
          match member (next :: behind) with
          | .ok (.single high, rest) =>
            if high < low then throw .badRange
            let (others, rest) ← members rounds false rest
            return (Exchange.bytesFrom low.toNat high.toNat ++ others, rest)
          | .ok (.several _, _) | .error .badClass => throw .badRange
          | .error mistake => throw mistake
      | .single value, rest =>
        let (others, rest) ← members rounds false rest
        return (value :: others, rest)
      | .several values, rest =>
        if rest.head? = some 45 && rest[1]? ≠ some 93 then throw .badRange
        let (others, rest) ← members rounds false rest
        return (values ++ others, rest)

/-- Whether the text of a bracket looks like the name of a class that lacks its own brackets. -/
def isBareClass (text : Bytes) : Bool :=
  text.head? = some 58 && text.getLast? = some 58 && text.any (· ≠ 58) && !text.contains 45 && !text.contains 91

def bracket (text : Bytes) : Except Mistake (Pattern × Bytes) := do
  let negated := text.head? = some 94
  let body := if negated then text.drop 1 else text
  let (values, rest) ← members (body.length + 1) true body
  if isBareClass (body.take (body.length - rest.length - 1)) then throw .bareClass
  return (.set negated values, rest)

/-! ## Repetitions -/

def digitsOf (text : Bytes) : Bytes := text.takeWhile fun b => 48 ≤ b && b ≤ 57

def numberOf (digits : Bytes) : Nat := digits.foldl (fun n b => 10 * n + (b.toNat - 48)) 0

def repetitionLimit : Nat := 32767

def bounds (closing text : Bytes) : Except Mistake (Nat × Option Nat × Bytes) := do
  let low := digitsOf text
  let rest := text.drop low.length
  let hasComma := rest.head? = some 44
  let high := if hasComma then digitsOf (rest.drop 1) else low
  let rest := if hasComma then rest.drop (1 + high.length) else rest
  let most := if hasComma && high.isEmpty then none else some (numberOf high)
  if !closing.isPrefixOf rest then throw (if rest.isEmpty || rest = [92] then .openBounds else .badBounds)
  else if low.isEmpty && !hasComma then throw .badBounds
  else if most.any (· < numberOf low) then throw .badBounds
  else if repetitionLimit < numberOf low || most.any (repetitionLimit < ·) then throw .tooBig
  else return (numberOf low, most, rest.drop closing.length)

/-! ## Patterns -/

/-- A mark of a pattern, or a pattern that stands for itself. -/
inductive Sign
  | openGroup | closeGroup | bar | star | plus | question | brace | caret | dollar | bracket
  | plain (pattern : Pattern)
deriving DecidableEq, Repr

def spaces : Bytes := Exchange.bytesFrom 9 13 ++ [32]

def wordBytes : Bytes := (Exchange.bytesFrom 0 255).filter isWordByte

def escapedPattern (letter : UInt8) : Pattern :=
  match Char.ofNat letter.toNat with
  | 's' => .set false spaces
  | 'S' => .set true spaces
  | 'w' => .set false wordBytes
  | 'W' => .set true wordBytes
  | 'b' => .border .wordEdge
  | 'B' => .border .noWordEdge
  | '<' => .border .wordStart
  | '>' => .border .wordEnd
  | '\x60' => .border .textStart
  | '\x27' => .border .textEnd
  | 'n' => .literal 10
  | c => if '1' ≤ c && c ≤ '9' then .again (c.toNat - 48) else .literal letter

def markOf? (c : Char) : Option Sign :=
  match c with
  | '(' => some .openGroup
  | ')' => some .closeGroup
  | '|' => some .bar
  | '+' => some .plus
  | '?' => some .question
  | '\x7b' => some .brace
  | _ => none

def sign (extended : Bool) : Bytes → Except Mistake (Option (Sign × Bytes))
  | [] => .ok none
  | 92 :: [] => .error .lastBackslash
  | 92 :: letter :: rest =>
    match if extended then none else markOf? (Char.ofNat letter.toNat) with
    | some mark => .ok (some (mark, rest))
    | none => .ok (some (.plain (escapedPattern letter), rest))
  | byte :: rest =>
    match Char.ofNat byte.toNat with
    | '*' => .ok (some (.star, rest))
    | '.' => .ok (some (.plain .any, rest))
    | '[' => .ok (some (.bracket, rest))
    | '^' => .ok (some (.caret, rest))
    | '$' => .ok (some (.dollar, rest))
    | c =>
      match if extended then markOf? c else none with
      | some mark => .ok (some (mark, rest))
      | none => .ok (some (.plain (.literal byte), rest))

/-- What was read of a group or of the whole pattern: finished alternatives, the current one without its last part,
and that part, which a repetition applies to. -/
structure Draft where
  finished : Option Pattern := none
  current : Pattern := .empty
  last : Option Pattern := none
deriving DecidableEq, Repr

namespace Draft

def joined (first second : Pattern) : Pattern := if first = .empty then second else .both first second

def settled (draft : Draft) : Pattern :=
  match draft.last with
  | some last => joined draft.current last
  | none => draft.current

def push (draft : Draft) (pattern : Pattern) : Draft :=
  { draft with current := draft.settled, last := some pattern }

def pushEdge (draft : Draft) (edge : Edge) : Draft :=
  { draft with current := joined draft.settled (.border edge), last := none }

def isRepeated (draft : Draft) : Bool :=
  match draft.last with
  | some (.times _ _ _) => true
  | _ => false

def close (draft : Draft) : Pattern :=
  match draft.finished with
  | some finished => .either finished draft.settled
  | none => draft.settled

def nextAlternative (draft : Draft) : Draft := { finished := some draft.close }

def again (draft : Draft) (least : Nat) (most : Option Nat) : Option Draft :=
  draft.last.map fun last => { draft with last := some (.times last least most) }

end Draft

/-- What is left to read, with the number of groups that were opened and closed. -/
structure Source where
  text : Bytes
  opened : Nat := 0
  closed : List Nat := []

/-- Whether a dollar sign before `rest` is the end of a basic pattern or of a part of it. -/
def endsBasic (rest : Bytes) : Bool :=
  rest.isEmpty || [92, 41].isPrefixOf rest || [92, 124].isPrefixOf rest

/-- Reads alternatives, at most `rounds` signs of them, up to the end or the mark that closes a group. -/
def alternatives (extended : Bool) : (rounds : Nat) → (inGroup : Bool) → Draft → Source →
    Except Mistake (Pattern × Source)
  | 0, _, draft, source => .ok (draft.close, source)
  | rounds + 1, inGroup, draft, source => do
    let further := alternatives extended rounds inGroup
    let literal (byte : UInt8) (rest : Bytes) := further (draft.push (.literal byte)) { source with text := rest }
    let again (least : Nat) (most : Option Nat) (byte : UInt8) (rest : Bytes) :=
      match draft.again least most with
      | some draft => further draft { source with text := rest }
      | none => if extended then throw .nothingToRepeat else literal byte rest
    match ← sign extended source.text with
    | none => if inGroup then throw .openGroup else return (draft.close, source)
    | some (.openGroup, rest) =>
      let number := source.opened + 1
      let (body, source) ← alternatives extended rounds true {} { source with text := rest, opened := number }
      further (draft.push (.group number body)) { source with closed := number :: source.closed }
    | some (.closeGroup, rest) =>
      if inGroup then return (draft.close, { source with text := rest }) else throw .closedGroup
    | some (.bar, rest) => further draft.nextAlternative { source with text := rest }
    | some (.star, rest) =>
      if !extended && draft.isRepeated then throw .nothingToRepeat
      again 0 none 42 rest
    | some (.plus, rest) => again 1 none 43 rest
    | some (.question, rest) => again 0 (some 1) 63 rest
    | some (.brace, rest) =>
      if draft.last.isNone || (!extended && draft.isRepeated) then throw .nothingToRepeat
      let (least, most, rest) ← bounds (if extended then [125] else [92, 125]) rest
      again least most 123 rest
    | some (.caret, rest) =>
      if extended || draft.settled = .empty then
        further (draft.pushEdge .lineStart) { source with text := rest }
      else literal 94 rest
    | some (.dollar, rest) =>
      if extended || endsBasic rest then further (draft.pushEdge .lineEnd) { source with text := rest }
      else literal 36 rest
    | some (.bracket, rest) =>
      let (found, rest) ← bracket rest
      further (draft.push found) { source with text := rest }
    | some (.plain (.again number), rest) =>
      if source.closed.contains number then
        further (draft.push (.again number)) { source with text := rest }
      else throw .badReference
    | some (.plain (.border edge), rest) => further (draft.pushEdge edge) { source with text := rest }
    | some (.plain pattern, rest) => further (draft.push pattern) { source with text := rest }

def read (extended : Bool) (text : Bytes) : Except Mistake Pattern :=
  (alternatives extended (text.length + 1) false {} { text }).map (·.1)

end Offside.Tool.Pattern
