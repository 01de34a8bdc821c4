import Mathlib.Algebra.BigOperators.Group.List.Basic
import Mathlib.Computability.Language
import Offside.Proofs.Grammar.ExpressionRules
import Offside.Proofs.Tree.Parts

/-!
# Spellings of a tree

The token lists that spell a tree, in the order of the source.  A tree has more than one spelling only where the
grammar leaves one free: `!` for `not`, parentheses around no parameters, a class in parentheses or behind
`extends`, the form of a body, layout and trailing commas in brackets, a key that stands for itself, and the place
of `default`.  Token lists are the words of a language, so a tree is spelled by products and sums.
-/

namespace Offside

open Grammar

/-! ## Tokens of operators and words -/

/-- The token of an operator between two operands. -/
def BinaryOp.token : BinaryOp → Token.Kind
  | .add => .symbol .plus
  | .sub => .symbol .minus
  | .mul => .symbol .star
  | .div => .symbol .slash
  | .floorDiv => .symbol .slashSlash
  | .mod => .symbol .percent
  | .exp => .symbol .starStar
  | .equal => .symbol .equalEqual
  | .notEqual => .symbol .notEqual
  | .less => .symbol .less
  | .lessEqual => .symbol .lessEqual
  | .greater => .symbol .greater
  | .greaterEqual => .symbol .greaterEqual
  | .shiftLeft => .symbol .shiftLeft
  | .shiftRight => .symbol .shiftRight
  | .bitAnd => .symbol .ampersand
  | .bitOr => .symbol .pipe
  | .bitXor => .symbol .caret
  | .member => .keyword .kwIn

def LogicalOp.token : LogicalOp → Token.Kind
  | .and => .keyword .kwAnd
  | .or => .keyword .kwOr

def UpdateOp.token : UpdateOp → Token.Kind
  | .increment => .symbol .plusPlus
  | .decrement => .symbol .minusMinus

def WordOp.word : WordOp → Keyword
  | .await => .kwAwait
  | .new => .kwNew
  | .typeof => .kwTypeof
  | .void => .kwVoid
  | .delete => .kwDelete

/-- The token of an operator in front of its operand, where `not` is preferred to `!`. -/
def UnaryOp.token : UnaryOp → Token.Kind
  | .not => .keyword .kwNot
  | .minus => .symbol .minus
  | .bitNot => .symbol .tilde

def Binding.word : Binding → Keyword
  | .hoisted => .kwVar
  | .scoped => .kwLet
  | .constant => .kwConst

/-! ## Words of tokens -/

namespace Grammar

/-- The words of one token that has a property. -/
def single (p : Token → Prop) : Language Token := {word | ∃ token, word = [token] ∧ p token}

/-- The words of one token of a kind. -/
def tokenOf (kind : Token.Kind) : Language Token := single (·.kind = kind)

/-- The words of layout tokens. -/
def layout : Language Token := {word | ∀ token ∈ word, token.kind.isLayout = true}

/-- The empty word if there is nothing to write, and no word otherwise. -/
def omitted : List (Language Token) → Language Token
  | [] => 1
  | _ :: _ => 0

/-- A part that is written only if it is there. -/
def optional (present : Bool) (part : Language Token) : Language Token := if present then part else 1

/-- Parts with a separator between each two. -/
def sepBy (separator : Language Token) : List (Language Token) → Language Token
  | [] => 1
  | [part] => part
  | part :: next :: parts => part * separator * sepBy separator (next :: parts)

/-- A comma with any layout around it. -/
def looseComma : Language Token := layout * tokenOf Symbol.comma * layout

/-- The arguments of a call in their parentheses. -/
def argumentWords (parts : List (Language Token)) : Language Token :=
  tokenOf Symbol.leftParen * layout * sepBy looseComma parts * layout * tokenOf Symbol.rightParen

/-- What stands between the brackets of an array or a dictionary: a comma may follow the last element. -/
def elementWords : List (Language Token) → Language Token
  | [] => 1
  | part :: parts => sepBy looseComma (part :: parts) * (layout + looseComma)

/-- The parameters of a function, with parentheses unless there are none. -/
def parameterWords (parts : List (Language Token)) : Language Token :=
  tokenOf Symbol.leftParen * sepBy (tokenOf Symbol.comma) parts * tokenOf Symbol.rightParen + omitted parts

/-- An indented block. -/
def blockWords (parts : List (Language Token)) : Language Token := tokenOf .indent * parts.prod * tokenOf .dedent

/-- One statement in the line of its heading, which a block may follow. -/
def inlineWords : List (Language Token) → Language Token
  | [] => 0
  | part :: parts => part * (blockWords parts + omitted parts)

/-- A body behind its heading. -/
def bodyWords (parts : List (Language Token)) : Language Token :=
  tokenOf Symbol.colon * (blockWords parts + inlineWords parts)

/-- Cases with a default in any place among them. -/
def caseWords (cases : List (Language Token)) : Option (Language Token) → Language Token
  | none => cases.prod
  | some default => {word | ∃ front back, cases = front ++ back ∧ word ∈ front.prod * default * back.prod}

/-- The string token of a regular expression follows the name `r` without a gap. -/
def regexWords (pattern flags : String) : Language Token :=
  {word | ∃ token next, word = [token, next] ∧ token.kind = .identifier "r" ∧ IsRegex "r" token next ∧
    quotedText next = '/' :: (pattern.toList ++ '/' :: flags.toList)}

/-- The string token of raw code. -/
def rawWords (code : String) : Language Token :=
  single fun token => token.kind.isString = true ∧ quotedText token = code.toList

end Grammar

def Ident.spelling (name : Ident) : Language Token := single (IsIdent · name)

/-- A name behind a dot. -/
def Ident.memberSpelling (name : Ident) : Language Token := single (IsProperty · name)

/-- A name that may be left out. -/
def Ident.spelling? : Option Ident → Language Token
  | none => 1
  | some name => name.spelling

/-- A cast and its arrow. -/
def Ident.castSpelling : Option Ident → Language Token
  | none => 1
  | some name => name.spelling * tokenOf Symbol.arrow

def Literal.spelling : Literal → Language Token
  | .number value => tokenOf (.number value)
  | .string value => tokenOf (.string value)
  | .boolean true => tokenOf Keyword.kwTrue
  | .boolean false => tokenOf Keyword.kwFalse
  | .null => tokenOf Keyword.kwNull
  | .undefined => tokenOf Keyword.kwUndefined
  | .regex pattern flags => regexWords pattern flags

def UnaryOp.spelling : UnaryOp → Language Token
  | .not => tokenOf Keyword.kwNot + tokenOf Symbol.bang
  | op => tokenOf op.token

/-- A key that stands for itself. -/
def Expr.shorthand : Expr → Expr → Language Token
  | .variable key, .variable value => {word | key = value ∧ word ∈ key.spelling}
  | _, _ => 0

/-! ## Trees -/

mutual

/-- The token lists that spell an expression. -/
def Expr.spelling : Expr → Language Token
  | .assign name value => name.spelling * tokenOf Symbol.equal * value.spelling
  | .binary op left right => left.spelling * tokenOf op.token * right.spelling
  | .ternary condition yes no =>
    condition.spelling * tokenOf Keyword.kwThen * yes.spelling * Expr.spelling? (tokenOf Keyword.kwElse) no
  | .lambda params body isAsync =>
    optional isAsync (tokenOf Keyword.kwAsync) * tokenOf Keyword.kwLambda *
      sepBy (tokenOf Symbol.comma) (Expr.paramSpellings params) * tokenOf Symbol.colon * body.spelling
  | .call callee arguments => callee.spelling * argumentWords (Expr.spellings arguments)
  | .get object name => object.spelling * tokenOf Symbol.dot * name.memberSpelling
  | .set object name value =>
    object.spelling * tokenOf Symbol.dot * name.memberSpelling * tokenOf Symbol.equal * value.spelling
  | .grouping inner => tokenOf Symbol.leftParen * inner.spelling * tokenOf Symbol.rightParen
  | .literal value => value.spelling
  | .array elements =>
    tokenOf Symbol.leftBracket * layout * elementWords (Expr.spellings elements) * tokenOf Symbol.rightBracket
  | .dictionary entries =>
    tokenOf Symbol.leftBrace * layout * elementWords (Expr.entrySpellings entries) * tokenOf Symbol.rightBrace
  | .subscript object start colon stop =>
    object.spelling * tokenOf Symbol.leftBracket * Expr.spelling? 1 start *
      optional colon (tokenOf Symbol.colon) * Expr.spelling? 1 stop * tokenOf Symbol.rightBracket
  | .assignSubscript object start colon stop value =>
    object.spelling * tokenOf Symbol.leftBracket * Expr.spelling? 1 start *
      optional colon (tokenOf Symbol.colon) * Expr.spelling? 1 stop * tokenOf Symbol.rightBracket *
        tokenOf Symbol.equal * value.spelling
  | .logical op left right => left.spelling * tokenOf op.token * right.spelling
  | .unary op operand => op.spelling * operand.spelling
  | .updateAfter op target => target.spelling * tokenOf op.token
  | .updateBefore op target => tokenOf op.token * target.spelling
  | .variable name => name.spelling
  | .worded op operand => tokenOf op.word * operand.spelling

/-- An expression behind its lead, if it is there. -/
def Expr.spelling? (lead : Language Token) : Option Expr → Language Token
  | none => 1
  | some e => lead * e.spelling

def Expr.spellings : List Expr → List (Language Token)
  | [] => []
  | e :: es => e.spelling :: Expr.spellings es

def Expr.entrySpelling : Expr × Expr → Language Token
  | (key, value) => key.spelling * tokenOf Symbol.colon * layout * value.spelling + Expr.shorthand key value

def Expr.entrySpellings : List (Expr × Expr) → List (Language Token)
  | [] => []
  | entry :: entries => Expr.entrySpelling entry :: Expr.entrySpellings entries

def Expr.paramSpelling : Param Expr → Language Token
  | ⟨name, kind, default, cast⟩ =>
    Ident.castSpelling cast * optional (kind = .wildcard) (tokenOf Symbol.star) * name.spelling *
      Expr.spelling? (tokenOf Symbol.equal) default

def Expr.paramSpellings : List (Param Expr) → List (Language Token)
  | [] => []
  | param :: params => Expr.paramSpelling param :: Expr.paramSpellings params

end

theorem Expr.spellings_eq_map (es : List Expr) : Expr.spellings es = es.map Expr.spelling :=
  eq_map_of_cons rfl (fun _ _ => rfl) es

theorem Expr.entrySpellings_eq_map (entries : List (Expr × Expr)) :
    Expr.entrySpellings entries = entries.map Expr.entrySpelling :=
  eq_map_of_cons rfl (fun _ _ => rfl) entries

/-- The class a class extends. -/
def Expr.superclassSpelling : Option Expr → Language Token
  | none => 1
  | some e =>
    tokenOf Symbol.leftParen * e.spelling * tokenOf Symbol.rightParen + tokenOf Keyword.kwExtends * e.spelling

mutual

/-- The token lists that spell a statement. -/
def Stmt.spelling : Stmt → Language Token
  | .expression value => value.spelling * tokenOf Symbol.semicolon
  | .raw code => tokenOf Keyword.kwRaw * rawWords code * tokenOf Symbol.semicolon
  | .function decl => Stmt.functionSpelling decl
  | .ret value => tokenOf Keyword.kwReturn * Expr.spelling? 1 value * tokenOf Symbol.semicolon
  | .throw value => tokenOf Keyword.kwThrow * value.spelling * tokenOf Symbol.semicolon
  | .yield value => tokenOf Keyword.kwYield * Expr.spelling? 1 value * tokenOf Symbol.semicolon
  | .classDecl name superclass methods =>
    tokenOf Keyword.kwClass * name.spelling * Expr.superclassSpelling superclass * tokenOf Symbol.colon *
      (blockWords (Stmt.functionSpellings methods) + omitted (Stmt.functionSpellings methods))
  | .block body => blockWords (Stmt.spellings body)
  | .whileLoop condition body => tokenOf Keyword.kwWhile * condition.spelling * bodyWords (Stmt.spellings body)
  | .doLoop body condition =>
    tokenOf Keyword.kwDo * bodyWords (Stmt.spellings body) * tokenOf Keyword.kwWhile * condition.spelling *
      tokenOf Symbol.semicolon
  | .forLoop name iterable body =>
    tokenOf Keyword.kwFor * name.spelling * tokenOf Keyword.kwIn * iterable.spelling *
      bodyWords (Stmt.spellings body)
  | .tryBlock body handler otherwise finalizer =>
    tokenOf Keyword.kwTry * bodyWords (Stmt.spellings body) * Stmt.handlerSpelling handler *
      Stmt.bodySpelling? .kwElse otherwise * Stmt.bodySpelling? .kwFinally finalizer
  | .branch condition body elifs otherwise =>
    tokenOf Keyword.kwIf * condition.spelling * bodyWords (Stmt.spellings body) *
      (Stmt.clauseSpellings .kwElif elifs).prod * Stmt.bodySpelling? .kwElse otherwise
  | .switch value cases default =>
    tokenOf Keyword.kwSwitch * value.spelling * tokenOf Symbol.colon * tokenOf .indent *
      caseWords (Stmt.clauseSpellings .kwCase cases) (Stmt.defaultSpelling default) * tokenOf .dedent
  | .breakLoop => tokenOf Keyword.kwBreak * tokenOf Symbol.semicolon
  | .continueLoop => tokenOf Keyword.kwContinue * tokenOf Symbol.semicolon
  | .declare binding name init =>
    tokenOf binding.word * name.spelling * Expr.spelling? (tokenOf Symbol.equal) init * tokenOf Symbol.semicolon

def Stmt.spellings : List Stmt → List (Language Token)
  | [] => []
  | s :: ss => s.spelling :: Stmt.spellings ss

/-- A body behind a word, if it is there. -/
def Stmt.bodySpelling? (word : Keyword) : Option (List Stmt) → Language Token
  | none => 1
  | some body => tokenOf word * bodyWords (Stmt.spellings body)

def Stmt.defaultSpelling : Option (List Stmt) → Option (Language Token)
  | none => none
  | some body => some (tokenOf Keyword.kwDefault * bodyWords (Stmt.spellings body))

def Stmt.handlerSpelling : Option (Handler Stmt) → Language Token
  | none => 1
  | some ⟨param, body⟩ =>
    tokenOf Keyword.kwCatch * Ident.spelling? param * bodyWords (Stmt.spellings body)

def Stmt.clauseSpelling (word : Keyword) : Expr × List Stmt → Language Token
  | (condition, body) => tokenOf word * condition.spelling * bodyWords (Stmt.spellings body)

def Stmt.clauseSpellings (word : Keyword) : List (Expr × List Stmt) → List (Language Token)
  | [] => []
  | clause :: clauses => Stmt.clauseSpelling word clause :: Stmt.clauseSpellings word clauses

/-- A function, or a method of a class. -/
def Stmt.functionSpelling : Function Stmt → Language Token
  | ⟨name, params, body, isAsync, isGenerator⟩ =>
    optional isAsync (tokenOf Keyword.kwAsync) * tokenOf Keyword.kwFunction *
      optional isGenerator (tokenOf Symbol.star) * name.spelling * parameterWords (Expr.paramSpellings params) *
        bodyWords (Stmt.spellings body)

def Stmt.functionSpellings : List (Function Stmt) → List (Language Token)
  | [] => []
  | decl :: decls => Stmt.functionSpelling decl :: Stmt.functionSpellings decls

end

theorem Stmt.spellings_eq_map (ss : List Stmt) : Stmt.spellings ss = ss.map Stmt.spelling :=
  eq_map_of_cons rfl (fun _ _ => rfl) ss

theorem Expr.spelling_variable (name : Ident) : (Expr.variable name).spelling = name.spelling := by
  rw [Expr.spelling]

theorem Stmt.spelling_block (body : List Stmt) : (Stmt.block body).spelling = blockWords (Stmt.spellings body) := by
  rw [Stmt.spelling]

theorem Stmt.functionSpellings_eq_map (decls : List (Function Stmt)) :
    Stmt.functionSpellings decls = decls.map Stmt.functionSpelling :=
  eq_map_of_cons rfl (fun _ _ => rfl) decls

/-- The token lists that spell a program. -/
def Program.spelling (program : Program) : Language Token := (Stmt.spellings program).prod

end Offside
