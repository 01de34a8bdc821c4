import Offside.Binary64.Decimal
import Offside.Script.Text

/-!
# Lexemes of JavaScript

The lexical grammar of JavaScript, as far as the text of one expression needs it.  Text is cut from left to
right, and a mark of punctuation is always the longest one that fits.  There are no line breaks, comments,
template literals or regular expressions in such a text; where one would start, cutting fails.  Exponents and
other bases of numbers and single-quoted strings are left out as well.
-/

namespace Offside.JavaScript

open Script (Operator)

variable {after rest : List Char} {first : Char}

/-! ## Words -/

/-- The letters beyond ASCII: those that a name can start with, and those that it can only go on with. -/
structure Letters where
  start : Char → Bool
  part : Char → Bool

def isStart (letters : Letters) (c : Char) : Bool :=
  c.isAlpha || c = '$' || c = '_' || (127 < c.toNat && letters.start c)

def isPart (letters : Letters) (c : Char) : Bool :=
  isStart letters c || c.isDigit || (127 < c.toNat && letters.part c)

/-- Whether a text has the form of a name. -/
def isWord (letters : Letters) (text : String) : Bool :=
  match text.toList with
  | [] => false
  | first :: rest => isStart letters first && rest.all (isPart letters)

/-- The words that are no identifiers wherever they stand. -/
def reserved : List String :=
  ["await", "break", "case", "catch", "class", "const", "continue", "debugger", "default", "delete", "do",
    "else", "enum", "export", "extends", "false", "finally", "for", "function", "if", "import", "in",
    "instanceof", "new", "null", "return", "super", "switch", "this", "throw", "true", "try", "typeof",
    "var", "void", "while", "with"]

/-- Whether a text is an identifier. -/
def isIdentifier (letters : Letters) (text : String) : Bool :=
  isWord letters text && !reserved.contains text

/-! ## Marks -/

/-- The marks of punctuation.  The last constructor is for those that no expression of a script is written
with, and for the openings of comments. -/
inductive Mark
  | operator (op : Operator)
  | bang | tilde | increment | decrement
  | leftParen | rightParen | leftBracket | rightBracket | leftBrace | rightBrace
  | dot | ellipsis | comma | semicolon | colon | question | equal
  | foreign (spelling : String)
deriving DecidableEq

namespace Mark

def text : Mark → String
  | .operator op => op.text
  | .bang => "!"
  | .tilde => "~"
  | .increment => "++"
  | .decrement => "--"
  | .leftParen => "("
  | .rightParen => ")"
  | .leftBracket => "["
  | .rightBracket => "]"
  | .leftBrace => "\x7b"
  | .rightBrace => "\x7d"
  | .dot => "."
  | .ellipsis => "..."
  | .comma => ","
  | .semicolon => ";"
  | .colon => ":"
  | .question => "?"
  | .equal => "="
  | .foreign spelling => spelling

def operators : List Operator :=
  [.add, .sub, .mul, .div, .mod, .exp, .equal, .notEqual, .less, .lessEqual, .greater, .greaterEqual,
    .shiftLeft, .shiftRight, .bitAnd, .bitOr, .bitXor, .and, .or]

def foreigners : List String :=
  ["==", "!=", ">>>", "=>", "??", "?.", "+=", "-=", "*=", "/=", "%=", "**=", "<<=", ">>=", ">>>=", "&=",
    "|=", "^=", "&&=", "||=", "??=", "//", "/*"]

/-- Every mark. -/
def all : List Mark :=
  operators.map Mark.operator ++ ([.bang, .tilde, .increment, .decrement, .leftParen, .rightParen,
    .leftBracket, .rightBracket, .leftBrace, .rightBrace, .dot, .ellipsis, .comma, .semicolon, .colon,
    .question, .equal] : List Mark) ++ foreigners.map Mark.foreign

/-- The mark with the given spelling. -/
def ofText? (spelling : List Char) : Option Mark := all.find? fun mark => mark.text.toList == spelling

/-- The longest mark at the front of a text, and the text behind it. -/
def longest? (text : List Char) : Option (Mark × List Char) :=
  [4, 3, 2, 1].findSome? fun size => (ofText? (text.take size)).map fun mark => (mark, text.drop size)

end Mark

/-! ## Literals -/

/-- The value of a digit of base sixteen. -/
def hexValue? (c : Char) : Option Nat :=
  if c.isDigit then some (c.toNat - '0'.toNat)
  else if 'a' ≤ c && c ≤ 'f' then some (c.toNat - 'a'.toNat + 10)
  else if 'A' ≤ c && c ≤ 'F' then some (c.toNat - 'A'.toNat + 10)
  else none

/-- The character that four digits of base sixteen stand for. -/
def unicode? (a b c d : Char) : Option Char := do
  let code := ((← hexValue? a) * 16 + (← hexValue? b)) * 256 + (← hexValue? c) * 16 + (← hexValue? d)
  if code.isValidChar then some (Char.ofNat code) else none

/-- The character that a backslash and one character stand for.  Digits, line breaks and the two letters in
front of digits of base sixteen have no such meaning. -/
def escaped? (c : Char) : Option Char :=
  if c = 'b' then some '\x08'
  else if c = 't' then some '\t'
  else if c = 'n' then some '\n'
  else if c = 'v' then some '\x0b'
  else if c = 'f' then some '\x0c'
  else if c = 'r' then some '\r'
  else if c.isDigit || c = 'x' || c = 'u' || c = '\n' || c = '\r' then none
  else some c

/-- The value of a string behind its opening quote, and the text behind its closing quote. -/
def stringBody? : List Char → Option (List Char × List Char)
  | [] => none
  | '"' :: rest => some ([], rest)
  | '\\' :: 'u' :: a :: b :: c :: d :: rest => do
    let char ← unicode? a b c d
    let (value, after) ← stringBody? rest
    some (char :: value, after)
  | '\\' :: c :: rest => do
    let char ← escaped? c
    let (value, after) ← stringBody? rest
    some (char :: value, after)
  | c :: rest => do
    if c = '\\' || c = '\n' || c = '\r' then none
    else
      let (value, after) ← stringBody? rest
      some (c :: value, after)

/-- A fraction at the front of a text: the digits behind a point, and the text behind them. -/
def fraction : List Char → List Char × List Char
  | '.' :: rest => (rest.takeWhile Char.isDigit, rest.dropWhile Char.isDigit)
  | rest => ([], rest)

/-- A decimal number, behind its first digit.  A zero in front stands alone, and no name follows. -/
def number? (letters : Letters) (first : Char) (rest : List Char) : Option (Binary64 × List Char) :=
  let digits := rest.takeWhile Char.isDigit
  let (places, after) := fraction (rest.dropWhile Char.isDigit)
  if first = '0' && !digits.isEmpty then none
  else if after.head?.any (isStart letters) then none
  else some (Binary64.ofDecimal (first :: digits) places, after)

/-! ## Lexemes -/

inductive Lexeme
  | word (text : String)
  | number (value : Binary64)
  | string (value : String)
  | mark (sign : Mark)
deriving DecidableEq

/-- The lexeme that starts with the character `first`, and the text behind it. -/
def lexeme? (letters : Letters) (first : Char) (rest : List Char) : Option (Lexeme × List Char) :=
  if isStart letters first then
    some (.word (String.ofList (first :: rest.takeWhile (isPart letters))),
      rest.dropWhile (isPart letters))
  else if first.isDigit then
    (number? letters first rest).map fun (value, after) => (.number value, after)
  else if first = '"' then
    (stringBody? rest).map fun (value, after) => (.string (String.ofList value), after)
  else (Mark.longest? (first :: rest)).map fun (sign, after) => (.mark sign, after)

def isBlank (c : Char) : Bool := c = ' ' || c = '\t'

theorem length_of_stringBody? {text value : List Char}
    (h : stringBody? text = some (value, after)) : after.length < text.length := by
  fun_induction stringBody? text generalizing value after with
  | case1 => cases h
  | case2 rest =>
    cases h
    simp
  | case3 _ _ _ _ rest ih | case4 _ rest _ ih =>
    simp only [Option.bind_eq_bind, Option.bind_eq_some_iff, Option.some.injEq] at h
    obtain ⟨_, _, ⟨_, _⟩, hbody, heq⟩ := h
    cases heq
    have := ih hbody
    simp only [List.length_cons]
    omega
  | case5 => cases h
  | case6 c rest _ _ _ _ ih =>
    simp only [Option.bind_eq_bind, Option.bind_eq_some_iff, Option.some.injEq] at h
    obtain ⟨⟨_, _⟩, hbody, heq⟩ := h
    cases heq
    have := ih hbody
    simp only [List.length_cons]
    omega

theorem length_fraction_le (text : List Char) : (fraction text).2.length ≤ text.length := by
  unfold fraction
  split
  · exact Nat.le_succ_of_le (List.dropWhile_sublist _).length_le
  · exact Nat.le_refl _

variable {letters : Letters}

theorem length_of_number? {value : Binary64} (h : number? letters first rest = some (value, after)) :
    after.length ≤ rest.length := by
  simp only [number?] at h
  split at h
  · cases h
  · split at h
    · cases h
    · cases h
      exact Nat.le_trans (length_fraction_le _) (List.dropWhile_sublist _).length_le

theorem Mark.length_of_longest? {mark : Mark}
    (h : longest? (first :: rest) = some (mark, after)) : after.length ≤ rest.length := by
  obtain ⟨size, hsize, hmark⟩ := List.exists_of_findSome?_eq_some h
  obtain ⟨_, _, heq⟩ := Option.map_eq_some_iff.1 hmark
  cases heq
  have hpositive : 0 < size := by
    simp only [List.mem_cons, List.not_mem_nil, or_false] at hsize
    omega
  rw [List.length_drop, List.length_cons]
  omega

theorem length_of_lexeme? {lexeme : Lexeme} (h : lexeme? letters first rest = some (lexeme, after)) :
    after.length ≤ rest.length := by
  unfold lexeme? at h
  split at h
  · cases h
    exact (List.dropWhile_sublist _).length_le
  split at h
  · obtain ⟨⟨_, _⟩, hnumber, heq⟩ := Option.map_eq_some_iff.1 h
    cases heq
    exact length_of_number? hnumber
  split at h
  · obtain ⟨⟨_, _⟩, hstring, heq⟩ := Option.map_eq_some_iff.1 h
    cases heq
    exact Nat.le_of_lt (length_of_stringBody? hstring)
  · obtain ⟨⟨_, _⟩, hmark, heq⟩ := Option.map_eq_some_iff.1 h
    cases heq
    exact Mark.length_of_longest? hmark

/-- The lexemes of a text. -/
def lexemes (letters : Letters) : List Char → Option (List Lexeme)
  | [] => some []
  | first :: rest =>
    if isBlank first then lexemes letters rest
    else
      match h : lexeme? letters first rest with
      | none => none
      | some (lexeme, after) =>
        have := length_of_lexeme? h
        (lexemes letters after).map (lexeme :: ·)
termination_by text => text.length

theorem lexemes_of_lexeme? {lexeme : Lexeme} (hblank : isBlank first = false)
    (h : lexeme? letters first rest = some (lexeme, after)) :
    lexemes letters (first :: rest) = (lexemes letters after).map (lexeme :: ·) := by
  rw [lexemes, if_neg (by simp [hblank])]
  split
  · rename_i hnone
    rw [h] at hnone
    cases hnone
  · rename_i hsome
    rw [h] at hsome
    cases hsome
    rfl

theorem lexemes_blank (letters : Letters) (rest : List Char) :
    lexemes letters (' ' :: rest) = lexemes letters rest := by
  rw [lexemes, if_pos (by decide)]

end Offside.JavaScript
