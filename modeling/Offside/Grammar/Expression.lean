import Offside.Grammar.Parser
import Offside.Grammar.Regex

/-!
# Expressions

One parser for each level of precedence, from assignment down to primary expressions.  The grammar refers
back to itself only behind a token that was taken, so each parser is told the parsers for what stands
inside, and none of them is recursive by itself.
-/

namespace Offside.Grammar

open Offside.Grammar.Parser

/-- The parsers for what stands behind at least one token that was taken, and a bound on how many rounds a
repetition can go. -/
structure Inner where
  rounds : Nat
  expression : Parser Expr
  exponent : Parser Expr
  unary : Parser Expr
  worded : Parser Expr
  declaration : Parser Stmt

/-- A left-associative chain of operators: `first`, then any number of operators each followed by
`operand`. -/
def chain (rounds : Nat) (operator? : Token.Kind → Option (Expr → Expr → Expr))
    (first operand : Parser Expr) : Parser Expr := do
  let left ← first
  iterate (fun left => do
    match operator? (← peek).kind with
    | none => return none
    | some join =>
      let _ ← advance
      return some (join left (← operand))) rounds left

/-- A name behind a dot, which may be a reserved word. -/
def propertyName : Parser Ident := do
  let token ← peek
  match token.kind with
  | .identifier name =>
    let _ ← advance
    return ⟨name, token.line⟩
  | .keyword _ =>
    let _ ← advance
    return ⟨token.lexeme, token.line⟩
  | _ => fail .noProperty

/-- Records a fault at an increment operator whose operand cannot be incremented. -/
def checkUpdatable (operator : Token) (target : Expr) : Parser Unit :=
  if target.isUpdatable then return () else note operator .badUpdate

def updateOp? : Token.Kind → Option UpdateOp
  | .symbol .plusPlus => some .increment
  | .symbol .minusMinus => some .decrement
  | _ => none

section
variable (inner : Inner)

/-! ## Parameters -/

/-- A parameter: a cast and an arrow, a star, a name, a default value; only the name is needed. -/
def parameter : Parser (Param Expr) := do
  let cast ← match (← peek).kind with
    | .identifier name =>
      if ← checkSecond Symbol.arrow then
        let token ← advance
        let _ ← advance
        pure (some ⟨name, token.line⟩)
      else pure none
    | _ => pure none
  let kind := if ← accept Symbol.star then ParamKind.wildcard else ParamKind.standard
  let name ← ident .parameter
  let default ← afterToken Symbol.equal inner.unary
  return ⟨name, kind, default, cast⟩

/-- Parameters between commas, of which only the last may be a wildcard. -/
def parameterList : (rounds : Nat) → Parser (List (Param Expr))
  | 0 => return []
  | rounds + 1 => do
    let first ← parameter inner
    if ← accept Symbol.comma then
      if first.kind = .wildcard then fail .wildcardNotLast
      else return first :: (← parameterList rounds)
    else return [first]

/-- Parameters up to the token that ends them. -/
def parameters (terminator : Token.Kind) : Parser (List (Param Expr)) := do
  if ← check terminator then return [] else parameterList inner inner.rounds

/-! ## Primary expressions -/

/-- Items between commas up to a closing symbol, with any layout around them; a comma may follow the last
one. -/
def series (close : Symbol) (item : Parser α) : (rounds : Nat) → Parser (List α)
  | 0 => return []
  | rounds + 1 => do
    if (← check close) || (← atEnd) then return []
    else
      let first ← item
      skipLayout
      if ← accept Symbol.comma then
        skipLayout
        return first :: (← series close item rounds)
      else return [first]

def arrayLiteral : Parser Expr := do
  skipLayout
  let elements ← series .rightBracket inner.expression inner.rounds
  expect Symbol.rightBracket (.notClosed .array)
  return .array elements

/-- A key and its value.  A variable without a value stands for itself. -/
def dictionaryEntry : Parser (Expr × Expr) := do
  let key ← inner.expression
  if ← accept Symbol.colon then
    skipLayout
    return (key, ← inner.expression)
  else
    match key with
    | .variable _ => return (key, key)
    | _ => fail (.noColon .dictionaryKey)

def dictionaryLiteral : Parser Expr := do
  skipLayout
  let entries ← series .rightBrace (dictionaryEntry inner) inner.rounds
  expect Symbol.rightBrace (.notClosed .dictionary)
  return .dictionary entries

/-- A lambda behind its `lambda`. -/
def lambda (isAsync : Bool) : Parser Expr := do
  let params ← parameters inner Symbol.colon
  expect Symbol.colon (.noColon .lambdaParameters)
  return .lambda params (← inner.expression) isAsync

/-- A regular expression behind its `r`. -/
def regex : Parser Expr := do
  let token ← advance
  match Regex.split? (quotedText token) with
  | some (pattern, flags) => return .literal (.regex (String.ofList pattern) (String.ofList flags))
  | none => failAt token .badRegex

/-- A variable, or a regular expression when the name is `r` and a string follows without a gap. -/
def variableOrRegex (name : String) : Parser Expr := do
  let token ← advance
  let next ← peek
  if name = "r" && next.kind.isString && next.start = token.stop then regex
  else return .variable ⟨name, token.line⟩

/-- The value of a token that is a literal by itself. -/
def literal? : Token.Kind → Option Literal
  | .keyword .kwFalse => some (.boolean false)
  | .keyword .kwTrue => some (.boolean true)
  | .keyword .kwNull => some .null
  | .keyword .kwUndefined => some .undefined
  | .number value => some (.number value)
  | .string value => some (.string value)
  | _ => none

def grouping : Parser Expr := do
  let content ← inner.expression
  expect Symbol.rightParen (.notClosed .grouping)
  return .grouping content

def primary : Parser Expr := do
  let token ← peek
  match literal? token.kind with
  | some value =>
    let _ ← advance
    return .literal value
  | none =>
    match token.kind with
    | .identifier name => variableOrRegex name
    | .symbol .leftParen =>
      let _ ← advance
      grouping inner
    | .symbol .leftBracket =>
      let _ ← advance
      arrayLiteral inner
    | .symbol .leftBrace =>
      let _ ← advance
      dictionaryLiteral inner
    | .keyword .kwLambda =>
      let _ ← advance
      lambda inner false
    | .keyword .kwAsync =>
      let _ ← advance
      expect Keyword.kwLambda .noLambda
      lambda inner true
    | .indent => failAt token .strayIndent
    | .dedent => failAt token .strayDedent
    | _ => failAt token .noExpression

/-! ## Calls, members and subscripts -/

/-- One argument with any layout around it. -/
def argument : Parser Expr := do
  skipLayout
  let value ← inner.expression
  skipLayout
  return value

/-- The arguments of a call, behind the opening parenthesis. -/
def arguments : Parser (List Expr) := do
  skipLayout
  let values ←
    if ← check Symbol.rightParen then pure []
    else do
      let first ← argument inner
      let others ← many (afterToken Symbol.comma (argument inner)) inner.rounds
      pure (first :: others)
  skipLayout
  expect Symbol.rightParen (.notClosed .arguments)
  return values

/-- An expression, unless the token that would follow it comes at once. -/
def bound (terminator : Symbol) : Parser (Option Expr) := do
  if ← check terminator then return none else return some (← inner.expression)

/-- A subscript of `object`, behind the opening bracket. -/
def subscript (object : Expr) : Parser Expr := do
  let start ← bound inner .colon
  let colon ← accept Symbol.colon
  let stop ← if colon then bound inner .rightBracket else pure none
  expect Symbol.rightBracket (.notClosed .subscript)
  return .subscript object start colon stop

/-- What may follow an object: arguments, a member, a subscript or an increment. -/
def suffix (object : Expr) : Parser (Option Expr) := do
  let token ← peek
  match token.kind with
  | .symbol .leftParen =>
    let _ ← advance
    return some (.call object (← arguments inner))
  | .symbol .dot =>
    let _ ← advance
    return some (.get object (← propertyName))
  | .symbol .leftBracket =>
    let _ ← advance
    return some (← subscript inner object)
  | kind =>
    match updateOp? kind with
    | some op =>
      let _ ← advance
      checkUpdatable token object
      return some (.updateAfter op object)
    | none => return none

def call : Parser Expr := do
  let object ← primary inner
  iterate (suffix inner) inner.rounds object

/-! ## Operators -/

/-- The operators spelled by a word, with the parser of the operand. -/
def wordOp? : Keyword → Option (WordOp × Parser Expr)
  | .kwNew => some (.new, inner.worded)
  | .kwAwait => some (.await, inner.unary)
  | .kwTypeof => some (.typeof, inner.unary)
  | .kwVoid => some (.void, inner.unary)
  | .kwDelete => some (.delete, inner.unary)
  | _ => none

def worded : Parser Expr := do
  match (← peek).kind with
  | .keyword word =>
    match wordOp? inner word with
    | some (op, operand) =>
      let _ ← advance
      return .worded op (← operand)
    | none => call inner
  | _ => call inner

def unaryOp? : Token.Kind → Option UnaryOp
  | .keyword .kwNot | .symbol .bang => some .not
  | .symbol .minus => some .minus
  | .symbol .tilde => some .bitNot
  | _ => none

def unary : Parser Expr := do
  let token ← peek
  match unaryOp? token.kind with
  | some op =>
    let _ ← advance
    return .unary op (← inner.unary)
  | none =>
    match updateOp? token.kind with
    | some op =>
      let _ ← advance
      let target ← inner.unary
      checkUpdatable token target
      return .updateBefore op target
    | none => worded inner

/-- Powers associate to the right. -/
def exponent : Parser Expr := do
  let base ← unary inner
  if ← accept Symbol.starStar then return .binary .exp base (← inner.exponent) else return base

def multiplicativeOp? : Token.Kind → Option (Expr → Expr → Expr)
  | .symbol .star => some (.binary .mul)
  | .symbol .slash => some (.binary .div)
  | .symbol .slashSlash => some (.binary .floorDiv)
  | .symbol .percent => some (.binary .mod)
  | _ => none

def multiplicative : Parser Expr :=
  chain inner.rounds multiplicativeOp? (exponent inner) (exponent inner)

def additiveOp? : Token.Kind → Option (Expr → Expr → Expr)
  | .symbol .plus => some (.binary .add)
  | .symbol .minus => some (.binary .sub)
  | _ => none

def additive : Parser Expr :=
  chain inner.rounds additiveOp? (multiplicative inner) (multiplicative inner)

def shiftOp? : Token.Kind → Option (Expr → Expr → Expr)
  | .symbol .shiftLeft => some (.binary .shiftLeft)
  | .symbol .shiftRight => some (.binary .shiftRight)
  | _ => none

def shift : Parser Expr := chain inner.rounds shiftOp? (additive inner) (additive inner)

def bitAndOp? : Token.Kind → Option (Expr → Expr → Expr)
  | .symbol .ampersand => some (.binary .bitAnd)
  | _ => none

def bitAnd : Parser Expr := chain inner.rounds bitAndOp? (shift inner) (shift inner)

def bitOrOp? : Token.Kind → Option (Expr → Expr → Expr)
  | .symbol .pipe => some (.binary .bitOr)
  | .symbol .caret => some (.binary .bitXor)
  | _ => none

def bitOr : Parser Expr := chain inner.rounds bitOrOp? (bitAnd inner) (bitAnd inner)

def comparisonOp? : Token.Kind → Option (Expr → Expr → Expr)
  | .symbol .less => some (.binary .less)
  | .symbol .lessEqual => some (.binary .lessEqual)
  | .symbol .greater => some (.binary .greater)
  | .symbol .greaterEqual => some (.binary .greaterEqual)
  | _ => none

def comparison : Parser Expr := chain inner.rounds comparisonOp? (bitOr inner) (bitOr inner)

def equalityOp? : Token.Kind → Option (Expr → Expr → Expr)
  | .symbol .equalEqual => some (.binary .equal)
  | .symbol .notEqual => some (.binary .notEqual)
  | _ => none

def equality : Parser Expr := chain inner.rounds equalityOp? (comparison inner) (comparison inner)

/-- `condition then yes else no`, with the last part optional. -/
def ternary : Parser Expr := do
  let condition ← equality inner
  if ← accept Keyword.kwThen then
    let yes ← equality inner
    let no ← afterToken Keyword.kwElse (equality inner)
    return .ternary condition yes no
  else return condition

def membershipOp? : Token.Kind → Option (Expr → Expr → Expr)
  | .keyword .kwIn => some (.binary .member)
  | _ => none

def membership : Parser Expr := chain inner.rounds membershipOp? (ternary inner) (equality inner)

def conjunctionOp? : Token.Kind → Option (Expr → Expr → Expr)
  | .keyword .kwAnd => some (.logical .and)
  | _ => none

def conjunction : Parser Expr :=
  chain inner.rounds conjunctionOp? (membership inner) (membership inner)

def disjunctionOp? : Token.Kind → Option (Expr → Expr → Expr)
  | .keyword .kwOr => some (.logical .or)
  | _ => none

def disjunction : Parser Expr :=
  chain inner.rounds disjunctionOp? (conjunction inner) (conjunction inner)

/-- The assignment of `value` to what an expression names. -/
def assignment? (target value : Expr) : Option Expr :=
  match target with
  | .variable name => some (.assign name value)
  | .get object name => some (.set object name value)
  | .subscript object start colon stop => some (.assignSubscript object start colon stop value)
  | _ => none

/-- An expression.  What cannot be assigned to is kept without the assigned value. -/
def expression : Parser Expr := do
  let target ← disjunction inner
  let sign ← peek
  if ← accept Symbol.equal then
    let value ← inner.expression
    match assignment? target value with
    | some result => return result
    | none =>
      note sign .badAssignment
      return target
  else return target

end

end Offside.Grammar
