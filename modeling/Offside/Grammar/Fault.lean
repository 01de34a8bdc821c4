/-!
# Syntax errors

What can be wrong with a sequence of tokens, and the words for it.
-/

namespace Offside.Grammar

/-- What a missing name would have named. -/
inductive Role
  | variable | function | parameter | classDecl | loopVariable
deriving DecidableEq, Repr

def Role.text : Role → String
  | .variable => "variable"
  | .function => "function"
  | .parameter => "parameter"
  | .classDecl => "class"
  | .loopVariable => "loop variable"

/-- What a missing semicolon would have ended. -/
inductive Ending
  | declaration | returnValue | yieldValue | thrownValue | breakWord | continueWord
  | doCondition | rawCode | expression
deriving DecidableEq, Repr

def Ending.text : Ending → String
  | .declaration => "variable declaration"
  | .returnValue => "return value"
  | .yieldValue => "yield value"
  | .thrownValue => "thrown value"
  | .breakWord => "'break'"
  | .continueWord => "'continue'"
  | .doCondition => "do-while condition"
  | .rawCode => "raw code"
  | .expression => "expression"

/-- Where a missing colon belongs. -/
inductive Heading
  | functionBody | classBody | ifCondition | elifCondition | elseWord | forClause | whileCondition
  | doWord | switchValue | caseValue | defaultWord | tryWord | catchClause | finallyWord
  | lambdaParameters | dictionaryKey
deriving DecidableEq, Repr

def Heading.text : Heading → String
  | .functionBody => "before function body"
  | .classBody => "before class body"
  | .ifCondition => "after if condition"
  | .elifCondition => "after elif condition"
  | .elseWord => "after 'else'"
  | .forClause => "after for clause"
  | .whileCondition => "after while condition"
  | .doWord => "after 'do'"
  | .switchValue => "after switch value"
  | .caseValue => "after case value"
  | .defaultWord => "after 'default'"
  | .tryWord => "after 'try'"
  | .catchClause => "after catch clause"
  | .finallyWord => "after 'finally'"
  | .lambdaParameters => "after lambda parameters"
  | .dictionaryKey => "after dictionary key"

/-- What a missing bracket would have closed. -/
inductive Enclosure
  | parameters | superclass | arguments | grouping | subscript | array | dictionary
deriving DecidableEq, Repr

def Enclosure.text : Enclosure → String
  | .parameters => "')' after parameters"
  | .superclass => "')' after superclass"
  | .arguments => "')' after arguments"
  | .grouping => "')' after expression"
  | .subscript => "']' after subscript"
  | .array => "']' after array elements"
  | .dictionary => "'\x7d' after dictionary entries"

/-- The causes of syntactic diagnostics. -/
inductive Fault
  | noName (role : Role)
  | noSemicolon (ending : Ending)
  | noColon (heading : Heading)
  | notClosed (enclosure : Enclosure)
  | noInitializer
  | wildcardNotLast
  | noMethod
  | noIn
  | noWhile
  | noCases
  | noCase
  | secondDefault
  | noRawCode
  | noProperty
  | noLambda
  | strayIndent
  | strayDedent
  | noExpression
  | badRegex
  | badAssignment
  | badUpdate
deriving DecidableEq, Repr

def Fault.message : Fault → String
  | .noName role => "Expect " ++ role.text ++ " name."
  | .noSemicolon ending => "Expect ';' after " ++ ending.text ++ "."
  | .noColon heading => "Expect ':' " ++ heading.text ++ "."
  | .notClosed enclosure => "Expect " ++ enclosure.text ++ "."
  | .noInitializer => "Expect '=' after const name."
  | .wildcardNotLast => "Wildcard parameter must be the last parameter."
  | .noMethod => "Expect method declaration in class body."
  | .noIn => "Expect 'in' after loop variable."
  | .noWhile => "Expect 'while' after do body."
  | .noCases => "Expect indented cases after switch."
  | .noCase => "Expect 'case' or 'default' in switch body."
  | .secondDefault => "Duplicate default case in switch."
  | .noRawCode => "Expect string after JSRAW."
  | .noProperty => "Expect property name after '.'."
  | .noLambda => "Expect 'lambda' after 'async'."
  | .strayIndent => "Unexpected indent."
  | .strayDedent => "Unexpected dedent."
  | .noExpression => "Expect expression."
  | .badRegex => "Invalid regex pattern provided."
  | .badAssignment => "Invalid assignment target."
  | .badUpdate => "Invalid increment target."

end Offside.Grammar
