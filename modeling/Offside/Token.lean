import Offside.Binary64

/-!
# Tokens

A token is a kind, the exact source text it was cut from, the byte offsets of that text, and the
line it starts on.  Reserved words and symbols are enumerations with a spelling each.
-/

namespace Offside

/-- The reserved words.  `kwRaw` is the word `JSRAW`. -/
inductive Keyword
  | kwAnd | kwAsync | kwAwait | kwBreak | kwCase | kwCatch | kwClass | kwConst | kwContinue
  | kwDefault | kwDelete | kwDo | kwElif | kwElse | kwExtends | kwFalse | kwFinally | kwFor
  | kwFunction | kwIf | kwIn | kwRaw | kwLambda | kwLet | kwNew | kwNot | kwNull | kwOr
  | kwReturn | kwSwitch | kwThen | kwThrow | kwTrue | kwTry | kwTypeof | kwUndefined
  | kwVar | kwVoid | kwWhile | kwYield
deriving DecidableEq, Repr

namespace Keyword

/-- Every reserved word, in alphabetical order of the spellings. -/
def all : List Keyword :=
  [.kwAnd, .kwAsync, .kwAwait, .kwBreak, .kwCase, .kwCatch, .kwClass, .kwConst,
  .kwContinue, .kwDefault, .kwDelete, .kwDo, .kwElif, .kwElse, .kwExtends, .kwFalse,
  .kwFinally, .kwFor, .kwFunction, .kwIf, .kwIn, .kwRaw, .kwLambda, .kwLet, .kwNew, .kwNot,
  .kwNull, .kwOr, .kwReturn, .kwSwitch, .kwThen, .kwThrow, .kwTrue, .kwTry, .kwTypeof,
  .kwUndefined, .kwVar, .kwVoid, .kwWhile, .kwYield]

/-- The spelling of a reserved word. -/
def text : Keyword → String
  | .kwAnd => "and"
  | .kwAsync => "async"
  | .kwAwait => "await"
  | .kwBreak => "break"
  | .kwCase => "case"
  | .kwCatch => "catch"
  | .kwClass => "class"
  | .kwConst => "const"
  | .kwContinue => "continue"
  | .kwDefault => "default"
  | .kwDelete => "delete"
  | .kwDo => "do"
  | .kwElif => "elif"
  | .kwElse => "else"
  | .kwExtends => "extends"
  | .kwFalse => "false"
  | .kwFinally => "finally"
  | .kwFor => "for"
  | .kwFunction => "function"
  | .kwIf => "if"
  | .kwIn => "in"
  | .kwRaw => "JSRAW"
  | .kwLambda => "lambda"
  | .kwLet => "let"
  | .kwNew => "new"
  | .kwNot => "not"
  | .kwNull => "null"
  | .kwOr => "or"
  | .kwReturn => "return"
  | .kwSwitch => "switch"
  | .kwThen => "then"
  | .kwThrow => "throw"
  | .kwTrue => "true"
  | .kwTry => "try"
  | .kwTypeof => "typeof"
  | .kwUndefined => "undefined"
  | .kwVar => "var"
  | .kwVoid => "void"
  | .kwWhile => "while"
  | .kwYield => "yield"

/-- The reserved word with the given spelling. -/
def ofText? (word : String) : Option Keyword := all.find? (·.text == word)

end Keyword

/-- Punctuation and operator symbols. -/
inductive Symbol
  | leftBrace | rightBrace | leftParen | rightParen | leftBracket | rightBracket | dot
  | semicolon | comma | colon | arrow | plus | minus | star | starStar | slash | slashSlash
  | percent | plusPlus | minusMinus | shiftLeft | shiftRight | ampersand | pipe | caret
  | bang | tilde | less | greater | lessEqual | greaterEqual | equalEqual | notEqual
  | equal
deriving DecidableEq, Repr

namespace Symbol

/-- The spelling of a symbol. -/
def text : Symbol → String
  | .leftBrace => "\x7b"
  | .rightBrace => "\x7d"
  | .leftParen => "("
  | .rightParen => ")"
  | .leftBracket => "["
  | .rightBracket => "]"
  | .dot => "."
  | .semicolon => ";"
  | .comma => ","
  | .colon => ":"
  | .arrow => "->"
  | .plus => "+"
  | .minus => "-"
  | .star => "*"
  | .starStar => "**"
  | .slash => "/"
  | .slashSlash => "//"
  | .percent => "%"
  | .plusPlus => "++"
  | .minusMinus => "--"
  | .shiftLeft => "<<"
  | .shiftRight => ">>"
  | .ampersand => "&"
  | .pipe => "|"
  | .caret => "^"
  | .bang => "!"
  | .tilde => "~"
  | .less => "<"
  | .greater => ">"
  | .lessEqual => "<="
  | .greaterEqual => ">="
  | .equalEqual => "=="
  | .notEqual => "!="
  | .equal => "="

/-- The symbol spelled by one character. -/
def ofChar? : Char → Option Symbol
  | '{' => some .leftBrace
  | '}' => some .rightBrace
  | '(' => some .leftParen
  | ')' => some .rightParen
  | '[' => some .leftBracket
  | ']' => some .rightBracket
  | '.' => some .dot
  | ';' => some .semicolon
  | ',' => some .comma
  | ':' => some .colon
  | '+' => some .plus
  | '-' => some .minus
  | '*' => some .star
  | '/' => some .slash
  | '%' => some .percent
  | '&' => some .ampersand
  | '|' => some .pipe
  | '^' => some .caret
  | '!' => some .bang
  | '~' => some .tilde
  | '<' => some .less
  | '>' => some .greater
  | '=' => some .equal
  | _ => none

/-- The symbol spelled by two characters. -/
def ofPair? : Char → Char → Option Symbol
  | '-', '>' => some .arrow
  | '*', '*' => some .starStar
  | '/', '/' => some .slashSlash
  | '+', '+' => some .plusPlus
  | '-', '-' => some .minusMinus
  | '<', '<' => some .shiftLeft
  | '>', '>' => some .shiftRight
  | '<', '=' => some .lessEqual
  | '>', '=' => some .greaterEqual
  | '=', '=' => some .equalEqual
  | '!', '=' => some .notEqual
  | _, _ => none

end Symbol

namespace Token

/-- What a token is.  `indent` and `dedent` stand for a change of indentation and have no
text of their own, and neither has `eof`. -/
inductive Kind
  | number (value : Binary64)
  | string (value : String)
  | identifier (name : String)
  | keyword (word : Keyword)
  | symbol (sign : Symbol)
  | indent
  | dedent
  | eof
deriving DecidableEq, Repr

namespace Kind

instance : Coe Keyword Kind := ⟨.keyword⟩
instance : Coe Symbol Kind := ⟨.symbol⟩

def isKeyword : Kind → Bool
  | .keyword _ => true
  | _ => false

def isLayout : Kind → Bool
  | .indent | .dedent => true
  | _ => false

def isString : Kind → Bool
  | .string _ => true
  | _ => false

end Kind

end Token

/-- A token.  `start` and `stop` are the byte offsets of `lexeme` in the source. -/
structure Token where
  kind : Token.Kind
  lexeme : String
  start : Nat
  stop : Nat
  line : Nat
deriving DecidableEq, Repr

end Offside
