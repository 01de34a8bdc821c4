import Offside.Tool.Shell.Bytewise
import Offside.Tool.Shell.Numeral

/-!
# Conditions

What can be tested of texts, numbers and files.
-/

namespace Offside.Tool.Shell.Condition

/-- Why words are no condition. -/
inductive Fault
  | badNumber (text : String)
  | unexpected (word : String)
  | noArgument (word : String)
  | noBracket
deriving DecidableEq, Repr

def Fault.message : Fault → String
  | .badNumber text => s!"Illegal number: {text}"
  | .unexpected "" => "unexpected operator"
  | .unexpected word => s!"{word}: unexpected operator"
  | .noArgument word => s!"{word}: argument expected"
  | .noBracket => "closing paren expected"

def number (text : String) : Except Fault Int :=
  match wholeNumber? (some 10) text with
  | some value => .ok value
  | none => .error (.badNumber text)

/-- What conditions can be tested on: a tree, and the paths of programs. -/
structure World where
  tree : FileTree
  isProgram : String → Bool

namespace World

def node? (world : World) (name : String) : Option Node :=
  ((world.tree.find .visit ⟨readable name⟩).toOption).map (·.2)

def isSame (world : World) (a b : String) : Bool :=
  match world.tree.find .visit ⟨readable a⟩, world.tree.find .visit ⟨readable b⟩ with
  | .ok (first, _), .ok (second, _) => first = second
  | _, _ => false

/-- The tests of files.  Nothing is run from a tree, apart from programs. -/
def file? (world : World) : String → Option (String → Bool)
  | "-e" | "-r" | "-w" | "-O" | "-G" => some fun name => (world.node? name).isSome || world.isProgram name
  | "-f" => some fun name =>
    match world.node? name with
    | some (.file _) => true
    | _ => world.isProgram name
  | "-d" => some fun name =>
    match world.node? name with
    | some .folder => true
    | _ => false
  | "-x" => some fun name =>
    match world.node? name with
    | some .folder => true
    | _ => world.isProgram name
  | "-s" => some fun name =>
    match world.node? name with
    | some (.file content) => 0 < content.size
    | some .folder => true
    | _ => world.isProgram name
  | "-c" => some fun name =>
    match world.node? name with
    | some (.device _) => true
    | _ => false
  | "-h" | "-L" => some fun name =>
    match world.tree.find .inspect ⟨readable name⟩ with
    | .ok (_, .link _) => true
    | _ => false
  | "-b" | "-p" | "-S" | "-u" | "-g" | "-k" => some fun _ => false
  | _ => none

end World

def unary? (world : World) (mark : String) : Option (String → Except Fault Bool) :=
  match mark with
  | "-n" => some fun text => .ok (text ≠ "")
  | "-z" => some fun text => .ok (text = "")
  | "-t" => some fun text => do
    let _ ← number text
    return false
  | mark => (world.file? mark).map fun test text => .ok (test text)

def binary? (world : World) : String → Option (String → String → Except Fault Bool)
  | "=" => some fun a b => .ok (a = b)
  | "!=" => some fun a b => .ok (a ≠ b)
  | "<" => some fun a b => .ok (a < b)
  | ">" => some fun a b => .ok (b < a)
  | "-eq" => some fun a b => do return (← number a) = (← number b)
  | "-ne" => some fun a b => do return (← number a) ≠ (← number b)
  | "-lt" => some fun a b => do return (← number a) < (← number b)
  | "-le" => some fun a b => do return (← number a) ≤ (← number b)
  | "-gt" => some fun a b => do return (← number b) < (← number a)
  | "-ge" => some fun a b => do return (← number b) ≤ (← number a)
  | "-nt" | "-ot" => some fun _ _ => .ok false
  | "-ef" => some fun a b => .ok (world.isSame a b)
  | _ => none

/-- What a word is where a condition is read. -/
inductive Lexeme
  | finish
  | unary
  | binary
  | opposite
  | also
  | otherwise
  | openBracket
  | closeBracket
  | operand
deriving DecidableEq, Repr

/-- The lexeme at the front of words.  A mark that nothing follows, or a mark for two words, is an operand. -/
def lexeme (world : World) : List String → Lexeme
  | [] => .finish
  | word :: rest =>
    if (unary? world word).isSome then
      match rest with
      | [] => .operand
      | [_] => .unary
      | next :: _ => if (binary? world next).isSome then .operand else .unary
    else if (binary? world word).isSome then .binary
    else
      match word with
      | "!" => .opposite
      | "-a" => .also
      | "-o" => .otherwise
      | "(" => if rest.isEmpty then .operand else .openBracket
      | ")" => .closeBracket
      | _ => .operand

/-- The words from the last one of what was read on, and the result of it. -/
abbrev Reading := Except Fault (Bool × List String)

mutual

/-- Tests conditions of which one is enough.  The first lexeme is given. -/
def any (world : World) : (depth : Nat) → Lexeme → List String → Reading
  | 0, _, _ => .error .noBracket
  | depth + 1, first, words => do
    let (result, words) ← all world depth first words
    if lexeme world (words.drop 1) = .otherwise then
      let behind := words.drop 2
      let (other, words) ← any world depth (lexeme world behind) behind
      return (result || other, words)
    else return (result, words)

def all (world : World) : (depth : Nat) → Lexeme → List String → Reading
  | 0, _, _ => .error .noBracket
  | depth + 1, first, words => do
    let (result, words) ← opposite world depth first words
    if lexeme world (words.drop 1) = .also then
      let behind := words.drop 2
      let (other, words) ← all world depth (lexeme world behind) behind
      return (result && other, words)
    else return (result, words)

def opposite (world : World) : (depth : Nat) → Lexeme → List String → Reading
  | 0, _, _ => .error .noBracket
  | depth + 1, first, words => do
    if first = .opposite then
      let next := lexeme world (words.drop 1)
      let (result, words) ← opposite world depth next (if next = .finish then words else words.drop 1)
      return (!result, words)
    else primary world depth first words

def primary (world : World) : (depth : Nat) → Lexeme → List String → Reading
  | 0, _, _ => .error .noBracket
  | depth + 1, first, words =>
    match first, words with
    | .finish, words => .ok (false, words)
    | _, [] => .ok (false, [])
    | .openBracket, _ :: words => do
      let inside := lexeme world words
      if inside = .closeBracket then return (false, words)
      let (result, words) ← any world depth inside words
      if lexeme world (words.drop 1) ≠ .closeBracket then throw .noBracket
      return (result, words.drop 1)
    | .unary, mark :: words =>
      match unary? world mark, words with
      | some test, word :: _ => do return (← test word, words)
      | _, _ => .error (.noArgument mark)
    | _, word :: rest =>
      if lexeme world rest = .binary then
        match rest with
        | mark :: second :: behind =>
          match binary? world mark with
          | some test => do return (← test word second, second :: behind)
          | none => .ok (word ≠ "", word :: rest)
        | mark :: [] => .error (.noArgument mark)
        | [] => .ok (word ≠ "", [word])
      else .ok (word ≠ "", word :: rest)

end

/-- Tests words from a lexeme on.  What is left behind the condition is wrong. -/
def testFrom (world : World) (first : Lexeme) (words : List String) : Except Fault Bool := do
  let (result, rest) ← any world (8 * words.length + 16) first words
  match rest with
  | word :: _ :: _ => throw (.unexpected word)
  | _ => return result

/-- Tests words that are not a test of two of them.  Brackets around few words are taken off. -/
def testPlain (world : World) (words : List String) : Except Fault Bool :=
  let inside :=
    if (words.length = 3 || words.length = 4) && words.head? = some "(" && words.getLast? = some ")" then
      (words.drop 1).dropLast
    else words
  testFrom world (lexeme world inside) inside

/-- Tests few words.  Behind exclamation marks they are the opposite of a condition of their own, however many there
are. -/
def testFew (world : World) (isOpposite : Bool) : List String → Except Fault Bool
  | [first, mark, second] => do
    let words := [first, mark, second]
    if (binary? world mark).isSome then return (← testFrom world .operand words) != isOpposite
    else if first = "!" then return !(← testPlain world [mark, second])
    else return (← testPlain world words) != isOpposite
  | words => do return (← testPlain world words) != isOpposite

def test (world : World) : List String → Except Fault Bool
  | [] => .ok false
  | ["!", second, third, fourth] => testFew world true [second, third, fourth]
  | words => testFew world false words

end Offside.Tool.Shell.Condition
