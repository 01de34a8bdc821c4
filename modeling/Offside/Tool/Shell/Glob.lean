import Offside.Tool.Shell.Bytewise

/-!
# Name patterns

Patterns for whole texts: a star for any text, a question mark for any character, and brackets for some characters.
A quoted character stands for itself.
-/

namespace Offside.Tool.Shell

/-- A character of a word, and whether it stands for itself. -/
structure Glyph where
  char : Char
  isQuoted : Bool
deriving DecidableEq, Repr

def textOf (glyphs : List Glyph) : String := String.ofList (glyphs.map (·.char))

namespace Glob

def is (glyph : Glyph) (c : Char) : Bool := glyph.char = c && !glyph.isQuoted

def named? : String → Option (Char → Bool)
  | "alpha" => some Char.isAlpha
  | "digit" => some Char.isDigit
  | "alnum" => some Char.isAlphanum
  | "upper" => some Char.isUpper
  | "lower" => some Char.isLower
  | "xdigit" => some fun c => c.isDigit || ('a' ≤ c.toLower && c.toLower ≤ 'f')
  | "space" => some fun c => c = ' ' || (9 ≤ c.toNat && c.toNat ≤ 13)
  | "blank" => some fun c => c = ' ' || c = '\t'
  | "cntrl" => some fun c => c.toNat < 32 || c.toNat = 127
  | "print" => some fun c => 32 ≤ c.toNat && c.toNat ≤ 126
  | "graph" => some fun c => 33 ≤ c.toNat && c.toNat ≤ 126
  | "punct" => some fun c => 33 ≤ c.toNat && c.toNat ≤ 126 && !c.isAlphanum
  | _ => none

/-- A part of a pattern. -/
inductive Atom
  | anyText
  | anyChar
  | exact (char : Char)
  | oneOf (accepts : Char → Bool)

/-- A class with a name, behind its opening bracket: what it accepts, and what follows it. -/
def class? (pattern : List Glyph) : Option ((Char → Bool) × List Glyph) :=
  match pattern with
  | ⟨':', false⟩ :: rest =>
    let name := (rest.map (·.char)).takeWhile (· ≠ ':')
    match rest.drop name.length with
    | ⟨':', _⟩ :: ⟨']', _⟩ :: behind => (named? (String.ofList name)).map (·, behind)
    | _ => none
  | _ => none

/-- The members of a bracket, at most `rounds` of them: what they accept, and what follows the bracket.  A bracket at
the front of the members is one of them. -/
def members : (rounds : Nat) → (isFirst : Bool) → List Glyph → Option ((Char → Bool) × List Glyph)
  | 0, _, _ | _, _, [] => none
  | rounds + 1, isFirst, glyph :: rest =>
    if is glyph ']' && !isFirst then some (fun _ => false, rest)
    else
      let alone (accepts : Char → Bool) (rest : List Glyph) : Option ((Char → Bool) × List Glyph) :=
        (members rounds false rest).map fun (others, rest) => (fun c => accepts c || others c, rest)
      match (if is glyph '[' then class? rest else none) with
      | some (accepts, behind) => alone accepts behind
      | none =>
        match rest with
        | dash :: high :: behind =>
          if is dash '-' && !is high ']' then
            alone
              (fun c => signedByte glyph.char ≤ signedByte c && signedByte c ≤ signedByte high.char) behind
          else alone (· = glyph.char) rest
        | rest => alone (· = glyph.char) rest

def bracket? (pattern : List Glyph) : Option ((Char → Bool) × List Glyph) :=
  match pattern with
  | [] => none
  | first :: rest =>
    if is first '!' then
      (members (rest.length + 1) true rest).map fun (accepts, behind) => (fun c => !accepts c, behind)
    else members (pattern.length + 1) true pattern

/-- The parts of a pattern, at most `rounds` of them.  A backslash makes the next character stand for itself. -/
def atoms : (rounds : Nat) → List Glyph → List Atom
  | 0, _ | _, [] => []
  | rounds + 1, glyph :: rest =>
    if is glyph '*' then .anyText :: atoms rounds rest
    else if is glyph '?' then .anyChar :: atoms rounds rest
    else if is glyph '\\' then
      match rest with
      | next :: rest => .exact next.char :: atoms rounds rest
      | [] => [.exact '\\']
    else
      match (if is glyph '[' then bracket? rest else none) with
      | some (accepts, behind) => .oneOf accepts :: atoms rounds behind
      | none => .exact glyph.char :: atoms rounds rest

def covers : List Atom → List Char → Bool
  | [], text => text.isEmpty
  | .anyText :: atoms, [] => covers atoms []
  | .anyText :: atoms, c :: text => covers atoms (c :: text) || covers (.anyText :: atoms) text
  | .anyChar :: atoms, _ :: text => covers atoms text
  | .exact char :: atoms, c :: text => char = c && covers atoms text
  | .oneOf accepts :: atoms, c :: text => accepts c && covers atoms text
  | _ :: _, [] => false
termination_by atoms text => atoms.length + text.length

def parse (pattern : List Glyph) : List Atom := atoms (pattern.length + 1) pattern

def isPattern (pattern : List Glyph) : Bool :=
  pattern.any fun glyph => is glyph '*' || is glyph '?' || is glyph '['

/-- The length of a start of a text that a pattern covers, the shortest one or the longest. -/
def startLength? (atoms : List Atom) (isLongest : Bool) (text : List Char) : Option Nat :=
  let lengths := List.range (text.length + 1)
  (if isLongest then lengths.reverse else lengths).find? fun n => covers atoms (text.take n)

/-- The length of what stands before an end of a text that a pattern covers, the shortest one or the longest. -/
def lengthBeforeEnd? (atoms : List Atom) (isLongest : Bool) (text : List Char) : Option Nat :=
  let lengths := List.range (text.length + 1)
  (if isLongest then lengths else lengths.reverse).find? fun n => covers atoms (text.drop n)

/-- Texts without an end that a pattern covers.  It is looked for in the last text first, and the texts behind it go
too. -/
def withoutLastEnd (atoms : List Atom) : List (List Char) → Option (List (List Char))
  | [] => none
  | text :: rest =>
    match withoutLastEnd atoms rest with
    | some rest => some (text :: rest)
    | none => (lengthBeforeEnd? atoms false text).map fun n => [text.take n]

/-- Texts that stand behind each other, without a start or an end that a pattern covers.  A start is that of the first
text, and so is the longest end; all texts go with a longest start that is the whole first one. -/
def cut (pattern : List Glyph) (atEnd isLongest : Bool) (texts : List (List Char)) : List (List Char) :=
  let atoms := parse pattern
  match texts, atEnd, isLongest with
  | [], _, _ => []
  | first :: rest, false, isLongest =>
    match startLength? atoms isLongest first with
    | some n => if isLongest && n = first.length then [[]] else first.drop n :: rest
    | none => texts
  | first :: _, true, true =>
    match lengthBeforeEnd? atoms true first with
    | some n => [first.take n]
    | none => texts
  | texts, true, false => (withoutLastEnd atoms texts).getD texts

/-! ## Names of files -/

def segments (pattern : List Glyph) : List (List Glyph) :=
  pattern.foldr
    (fun glyph found =>
      match glyph.char, found with
      | '/', found => [] :: found
      | _, first :: rest => (glyph :: first) :: rest
      | _, [] => [[glyph]])
    [[]]

def namesIn (tree : FileTree) (folder : String) : List String :=
  match tree.find .visit ⟨if folder = "" then "." else readable folder⟩ with
  | .ok (location, .folder) => "." :: ".." :: (tree.children location).map fun (name, _) => bytewise name
  | _ => []

def paths (tree : FileTree) : (start : String) → List (List Glyph) → List String
  | _, [] => []
  | start, [segment] =>
    if segment.isEmpty then if tree.isFolder ⟨readable start⟩ then [start] else []
    else if isPattern segment then (found start segment).map (start ++ ·)
    else
      let path := start ++ textOf segment
      if (tree.find .inspect ⟨readable path⟩).toBool then [path] else []
  | start, segment :: next :: rest =>
    if isPattern segment then
      ((found start segment).filter fun name => tree.isFolder ⟨readable (start ++ name)⟩).flatMap fun name =>
        paths tree (start ++ name ++ "/") (next :: rest)
    else paths tree (start ++ textOf segment ++ "/") (next :: rest)
where
  /-- The names in a folder that a segment covers.  A dot in front has to be in the pattern too. -/
  found (start : String) (segment : List Glyph) : List String :=
    let atoms := parse segment
    let showsHidden := segment.head?.any (·.char = '.')
    (namesIn tree start).filter fun name =>
      (showsHidden || name.toList.head? ≠ some '.') && covers atoms name.toList

/-- The paths that a pattern covers in their order, or its own text if there are none. -/
def expand (tree : FileTree) (pattern : List Glyph) : List String :=
  if !isPattern pattern then [textOf pattern]
  else
    match (paths tree "" (segments pattern)).mergeSort fun a b => a ≤ b with
    | [] => [textOf pattern]
    | found => found

end Glob

end Offside.Tool.Shell
