import Offside.Tool.Exchange

/-!
# Patterns

Patterns over bytes: sets of bytes, repetitions, groups, alternatives, repetitions of what a group matched, and
edges of lines and words.  Of the matches that start first, the longest one is taken.
-/

namespace Offside.Tool

/-- Places between bytes. -/
inductive Edge
  | lineStart | lineEnd | textStart | textEnd | wordStart | wordEnd | wordEdge | noWordEdge
deriving DecidableEq, Repr

/-- What a pattern is made of. -/
inductive Pattern
  | empty
  | literal (value : UInt8)
  | any
  | set (negated : Bool) (members : Bytes)
  | border (edge : Edge)
  | both (first second : Pattern)
  | either (first second : Pattern)
  | times (body : Pattern) (least : Nat) (most : Option Nat)
  | group (number : Nat) (body : Pattern)
  | again (number : Nat)
deriving DecidableEq, Repr

namespace Pattern

/-- How a pattern is applied: with or without regard to case, and whether edges of lines inside the text count. -/
structure Manner where
  ignoresCase : Bool := false
  seesLines : Bool := false
deriving DecidableEq, Repr

/-- A place in a text: the bytes before it in reverse, those behind it, and what the groups matched. -/
structure Place where
  position : Nat := 0
  before : Bytes := []
  behind : Bytes
  groups : List (Nat × Bytes) := []
deriving DecidableEq

namespace Place

def pass (place : Place) (byte : UInt8) (rest : Bytes) : Place :=
  { place with position := place.position + 1, before := byte :: place.before, behind := rest }

def since (place earlier : Place) : Bytes := (place.before.take (place.position - earlier.position)).reverse

def record (place : Place) (number : Nat) (content : Bytes) : Place :=
  { place with groups := (number, content) :: place.groups.filter (·.1 ≠ number) }

end Place

def lowered (byte : UInt8) : UInt8 := if 65 ≤ byte && byte ≤ 90 then byte + 32 else byte

def isWordByte (byte : UInt8) : Bool :=
  (48 ≤ byte && byte ≤ 57) || (65 ≤ byte && byte ≤ 90) || byte = 95 || (97 ≤ byte && byte ≤ 122)

/-- Whether a pattern for one byte accepts a byte; `none` for other patterns. -/
def accepts? (manner : Manner) : Pattern → Option (UInt8 → Bool)
  | .literal value =>
    some fun byte => if manner.ignoresCase then lowered value = lowered byte else value = byte
  | .any => some fun _ => true
  | .set negated members =>
    let known := if manner.ignoresCase then members.map lowered else members
    some fun byte => known.contains (if manner.ignoresCase then lowered byte else byte) != negated
  | _ => none

def Edge.isAt (manner : Manner) (place : Place) : Edge → Bool
  | .textStart => place.before.isEmpty
  | .textEnd => place.behind.isEmpty
  | .lineStart => place.before.isEmpty || (manner.seesLines && place.before.head? = some 10)
  | .lineEnd => place.behind.isEmpty || (manner.seesLines && place.behind.head? = some 10)
  | .wordStart => !inWord place.before && inWord place.behind
  | .wordEnd => inWord place.before && !inWord place.behind
  | .wordEdge => inWord place.before != inWord place.behind
  | .noWordEdge => inWord place.before = inWord place.behind
where
  /-- Whether a word byte comes next. -/
  inWord (bytes : Bytes) : Bool := (bytes.head?.map isWordByte).getD false

/-- The places behind runs of accepted bytes, the longest run first.  `rest` is what is behind the place. -/
def runs (accepts : UInt8 → Bool) (least : Nat) (most : Option Nat) :
    (count : Nat) → (found : List Place) → Place → (rest : Bytes) → List Place
  | count, found, place, [] => if least ≤ count then place :: found else found
  | count, found, place, byte :: rest =>
    let found := if least ≤ count then place :: found else found
    if most = some count || !accepts byte then found
    else runs accepts least most (count + 1) found (place.pass byte rest) rest

/-- The places behind repetitions of a step, more repetitions first, at most `rounds` of them. -/
def repeated (step : Place → List Place) : (rounds least : Nat) → (most : Option Nat) → Place → List Place
  | 0, least, _, place => if least = 0 then [place] else []
  | rounds + 1, least, most, place =>
    let further :=
      if most = some 0 then []
      else
        (step place).flatMap fun next =>
          if next.position = place.position then (if least = 0 then [] else [next])
          else repeated step rounds (least - 1) (most.map (· - 1)) next
    (further ++ (if least = 0 then [place] else [])).eraseDups

def stripped? (manner : Manner) : Place → (expected : Bytes) → Option Place
  | place, [] => some place
  | place, byte :: expected =>
    match place.behind with
    | [] => none
    | next :: rest =>
      if next = byte || (manner.ignoresCase && lowered next = lowered byte) then
        stripped? manner (place.pass next rest) expected
      else none

def ends (manner : Manner) : Pattern → Place → List Place
  | .empty, place => [place]
  | .literal value, place => one (accepts? manner (.literal value)) place
  | .any, place => one (accepts? manner .any) place
  | .set negated members, place => one (accepts? manner (.set negated members)) place
  | .border edge, place => if Edge.isAt manner place edge then [place] else []
  | .both first second, place => (ends manner first place).flatMap fun next => ends manner second next
  | .either first second, place => (ends manner first place ++ ends manner second place).eraseDups
  | .times body least most, place =>
    match accepts? manner body with
    | some accepts => runs accepts least most 0 [] place place.behind
    | none => repeated (fun next => ends manner body next) (place.behind.length + least + 1) least most place
  | .group number body, place =>
    (ends manner body place).map fun next => next.record number (next.since place)
  | .again number, place =>
    match place.groups.lookup number with
    | some content => (stripped? manner place content).toList
    | none => []
where
  /-- The place behind one accepted byte. -/
  one (accepts : Option (UInt8 → Bool)) (place : Place) : List Place :=
    match accepts, place.behind with
    | some accepts, byte :: rest => if accepts byte then [place.pass byte rest] else []
    | _, _ => []

def longest? (manner : Manner) (pattern : Pattern) (place : Place) : Option Place :=
  (ends manner pattern place).foldl
    (fun best next =>
      match best with
      | some found => if found.position < next.position then some next else some found
      | none => some next)
    none

/-- The first place from which there is a match, and its end.  `rest` is what is behind the place. -/
def find? (manner : Manner) (pattern : Pattern) : Place → (rest : Bytes) → Option (Place × Place)
  | place, [] => (longest? manner pattern place).map (place, ·)
  | place, byte :: rest =>
    match longest? manner pattern place with
    | some found => some (place, found)
    | none => find? manner pattern (place.pass byte rest) rest

def occursIn (manner : Manner) (pattern : Pattern) (text : Bytes) : Bool :=
  (find? manner pattern { behind := text } text).isSome

def groupCount : Pattern → Nat
  | .both first second | .either first second => max first.groupCount second.groupCount
  | .times body _ _ => body.groupCount
  | .group number body => max number body.groupCount
  | _ => 0

end Pattern

end Offside.Tool
