import Offside.Grammar.Expression

/-!
# Statements

A statement that fails inside a block is recorded and left out, and parsing goes on at the next likely
start of a statement in the same block.
-/

namespace Offside.Grammar

open Offside.Grammar.Parser

/-! ## Recovery -/

/-- The words a statement can start with. -/
def startsStatement : Token.Kind → Bool
  | .keyword word =>
    match word with
    | .kwClass | .kwFunction | .kwAsync | .kwVar | .kwLet | .kwConst | .kwFor | .kwIf | .kwWhile
    | .kwDo | .kwSwitch | .kwTry | .kwReturn | .kwYield | .kwThrow | .kwBreak | .kwContinue
    | .kwRaw => true
    | _ => false
  | _ => false

/-- Skips to a likely start of a statement, with `depth` blocks opened on the way: behind a semicolon,
behind the last block opened, before a word that starts a statement, or before the end of the
block. -/
def synchronize (depth : Nat) : List Token → List Token
  | [] => []
  | token :: rest =>
    match token.kind with
    | .symbol .semicolon => if depth = 0 then rest else synchronize depth rest
    | .indent => synchronize (depth + 1) rest
    | .dedent =>
      match depth with
      | 0 => token :: rest
      | 1 => rest
      | depth + 1 => synchronize depth rest
    | kind => if depth = 0 && startsStatement kind then token :: rest else synchronize depth rest

/-- Where to go on after a failure that left `rest` of `tokens`.  At least one token is dropped. -/
def resume (tokens rest : List Token) : List Token :=
  let next := synchronize 0 rest
  if next.length = tokens.length then next.tail else next

/-- Runs a parser; if it fails, records the failure and goes on behind it without a value. -/
def recovering (p : Parser α) : Parser (Option α) := fun stop tokens =>
  match p stop tokens with
  | ⟨.ok a, rest, notes⟩ => ⟨.ok (some a), rest, notes⟩
  | ⟨.error diagnostic, rest, notes⟩ =>
    ⟨.ok none, resume tokens rest, notes ++ [diagnostic]⟩

/-- Whether the block at hand ends here. -/
def atBlockEnd : Parser Bool := return (← check .dedent) || (← atEnd)

/-- Items up to the end of the block, which is taken.  Items that fail are left out. -/
def blockOf (item : Parser α) (rounds : Nat) : Parser (List α) := do
  let items ← many (do
    if ← atBlockEnd then return none else return some (← recovering item)) rounds
  let _ ← accept .dedent
  return items.filterMap id

section
variable (inner : Inner)

/-- An indented block behind its `indent`. -/
def block : Parser (List Stmt) := blockOf inner.declaration inner.rounds

/-- A colon and a body: an indented block, or one statement that a block may follow. -/
def body (heading : Heading) : Parser (List Stmt) := do
  expect Symbol.colon (.noColon heading)
  if ← accept .indent then block inner
  else
    let first ← inner.declaration
    let others ← afterToken .indent (block inner)
    return first :: others.getD []

/-! ## Declarations -/

/-- A variable declaration behind its word. -/
def variableDeclaration (binding : Binding) : Parser Stmt := do
  let name ← ident .variable
  let init ← afterToken Symbol.equal (expression inner)
  if binding = .constant && init.isNone then fail .noInitializer
  else
    expect Symbol.semicolon (.noSemicolon .declaration)
    return .declare binding name init

/-- The parameters of a function in their parentheses, if it has any. -/
def parameterClause : Parser (List (Param Expr)) := do
  if ← accept Symbol.leftParen then
    let params ← parameters inner Symbol.rightParen
    expect Symbol.rightParen (.notClosed .parameters)
    return params
  else return []

/-- A function behind its `function`. -/
def functionDeclaration (isAsync : Bool) : Parser (Function Stmt) := do
  let isGenerator ← accept Symbol.star
  let name ← ident .function
  let params ← parameterClause inner
  let content ← body inner .functionBody
  return ⟨name, params, content, isAsync, isGenerator⟩

def method : Parser (Function Stmt) := do
  let isAsync ← accept Keyword.kwAsync
  expect Keyword.kwFunction .noMethod
  functionDeclaration inner isAsync

/-- The class a class extends, in parentheses or behind `extends`. -/
def superclass : Parser (Option Expr) := do
  if ← accept Symbol.leftParen then
    let parent ← call inner
    expect Symbol.rightParen (.notClosed .superclass)
    return some parent
  else afterToken Keyword.kwExtends (call inner)

/-- A class behind its `class`. -/
def classDeclaration : Parser Stmt := do
  let name ← ident .classDecl
  let parent ← superclass inner
  expect Symbol.colon (.noColon .classBody)
  let methods ← afterToken .indent (blockOf (method inner) inner.rounds)
  return .classDecl name parent (methods.getD [])

/-! ## Statements -/

/-- An expression and the body it decides on. -/
def clause (heading : Heading) : Parser (Expr × List Stmt) := do
  let condition ← expression inner
  return (condition, ← body inner heading)

/-- An `if` behind its word. -/
def branch : Parser Stmt := do
  let condition ← expression inner
  let content ← body inner .ifCondition
  let elifs ← many (afterToken Keyword.kwElif (clause inner .elifCondition)) inner.rounds
  let otherwise ← afterToken Keyword.kwElse (body inner .elseWord)
  return .branch condition content elifs otherwise

/-- A `for` behind its word. -/
def forLoop : Parser Stmt := do
  let name ← ident .loopVariable
  expect Keyword.kwIn .noIn
  let iterable ← expression inner
  return .forLoop name iterable (← body inner .forClause)

/-- A `while` behind its word. -/
def whileLoop : Parser Stmt := do
  let condition ← expression inner
  return .whileLoop condition (← body inner .whileCondition)

/-- A `do` behind its word. -/
def doLoop : Parser Stmt := do
  let content ← body inner .doWord
  expect Keyword.kwWhile .noWhile
  let condition ← expression inner
  expect Symbol.semicolon (.noSemicolon .doCondition)
  return .doLoop content condition

/-- The cases of a `switch` up to the end of its block, told the parsers for what stands behind `case` and
behind `default`.  Of two defaults the later one counts, and a fault is recorded at it. -/
def casesOf (case : Parser α) (default : Parser β) : (rounds : Nat) → (seenDefault : Bool) →
    Parser (List α × Option β)
  | 0, _ => return ([], none)
  | rounds + 1, seenDefault => do
    if ← atBlockEnd then return ([], none)
    else if ← accept Keyword.kwCase then
      let first ← case
      let others ← casesOf case default rounds seenDefault
      return (first :: others.1, others.2)
    else
      let word ← peek
      if ← accept Keyword.kwDefault then
        let content ← default
        if seenDefault then note word .secondDefault
        let others ← casesOf case default rounds true
        return (others.1, some (others.2.getD content))
      else fail .noCase

/-- A `switch` behind its word. -/
def switch : Parser Stmt := do
  let value ← expression inner
  expect Symbol.colon (.noColon .switchValue)
  expect .indent .noCases
  let found ← casesOf (clause inner .caseValue) (body inner .defaultWord) inner.rounds false
  let _ ← accept .dedent
  return .switch value found.1 found.2

/-- The handler of a `try` behind its `catch`. -/
def handler : Parser (Handler Stmt) := do
  let token ← peek
  let param ← match token.kind with
    | .identifier name => do
      let _ ← advance
      pure (some ⟨name, token.line⟩)
    | _ => pure none
  return ⟨param, ← body inner .catchClause⟩

/-- A `try` behind its word. -/
def tryBlock : Parser Stmt := do
  let content ← body inner .tryWord
  let caught ← afterToken Keyword.kwCatch (handler inner)
  let otherwise ← afterToken Keyword.kwElse (body inner .elseWord)
  let finalizer ← afterToken Keyword.kwFinally (body inner .finallyWord)
  return .tryBlock content caught otherwise finalizer

/-- Raw code behind its `JSRAW`. -/
def raw : Parser Stmt := do
  if (← peek).kind.isString then
    let token ← advance
    expect Symbol.semicolon (.noSemicolon .rawCode)
    return .raw (String.ofList (quotedText token))
  else fail .noRawCode

/-- An expression unless the statement ends at once, and the semicolon. -/
def optionalValue (ending : Ending) : Parser (Option Expr) := do
  let value ← if ← check Symbol.semicolon then pure none else some <$> expression inner
  expect Symbol.semicolon (.noSemicolon ending)
  return value

def expressionStatement : Parser Stmt := do
  let value ← expression inner
  expect Symbol.semicolon (.noSemicolon .expression)
  return .expression value

/-- The statement behind the word that starts it, for each word that can. -/
def worded? : Keyword → Option (Parser Stmt)
  | .kwIf => some (branch inner)
  | .kwFor => some (forLoop inner)
  | .kwWhile => some (whileLoop inner)
  | .kwDo => some (doLoop inner)
  | .kwSwitch => some (switch inner)
  | .kwTry => some (tryBlock inner)
  | .kwReturn => some (.ret <$> optionalValue inner .returnValue)
  | .kwYield => some (.yield <$> optionalValue inner .yieldValue)
  | .kwThrow => some do
      let value ← expression inner
      expect Symbol.semicolon (.noSemicolon .thrownValue)
      return .throw value
  | .kwBreak => some do
      expect Symbol.semicolon (.noSemicolon .breakWord)
      return .breakLoop
  | .kwContinue => some do
      expect Symbol.semicolon (.noSemicolon .continueWord)
      return .continueLoop
  | .kwRaw => some raw
  | .kwClass => some (classDeclaration inner)
  | .kwFunction => some (.function <$> functionDeclaration inner false)
  | .kwVar => some (variableDeclaration inner .hoisted)
  | .kwLet => some (variableDeclaration inner .scoped)
  | .kwConst => some (variableDeclaration inner .constant)
  | _ => none

/-- Any statement or declaration. -/
def declaration : Parser Stmt := do
  match (← peek).kind with
  | .keyword .kwAsync =>
    if ← checkSecond Keyword.kwFunction then
      let _ ← advance
      let _ ← advance
      return .function (← functionDeclaration inner true)
    else expressionStatement inner
  | .keyword word =>
    match worded? inner word with
    | some rest =>
      let _ ← advance
      rest
    | none => expressionStatement inner
  | .indent =>
    let _ ← advance
    return .block (← block inner)
  | _ => expressionStatement inner

end

end Offside.Grammar
