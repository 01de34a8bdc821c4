import Offside.Binary64.Decimal
import Offside.Script.Basic
import Offside.Text.Quoted

/-!
# The text of scripts

An expression is written on one line.  A statement is written on lines of its own, each behind four spaces
for every block around it; raw code is copied as it is.
-/

namespace Offside.Script

/-! ## Literals and operators -/

/-- The text of a regular expression pattern: slashes that no backslash precedes are escaped, and line breaks
are written as escapes.  `escaped` tells whether an open backslash stands in front. -/
def regexText (escaped : Bool) : List Char → List Char
  | [] => []
  | c :: rest =>
    let written :=
      if c = '/' && !escaped then ['\\', '/']
      else if c = '\n' then ['\\', 'n']
      else if c = '\r' then ['\\', 'r']
      else [c]
    written ++ regexText (c = '\\' && !escaped) rest

/-- The text of a number.  Every number that is not finite is written as infinity. -/
def numberText (x : Binary64) : String := if x.isFinite then x.text else "Infinity"

def literalText : Literal → String
  | .number value => numberText value
  | .string value => Text.Quoted.encode value
  | .boolean true => "true"
  | .boolean false => "false"
  | .null => "null"
  | .undefined => "undefined"
  | .regex pattern flags => "/" ++ String.ofList (regexText false pattern.toList) ++ "/" ++ flags

def Operator.text : Operator → String
  | .add => "+"
  | .sub => "-"
  | .mul => "*"
  | .div => "/"
  | .mod => "%"
  | .exp => "**"
  | .equal => "==="
  | .notEqual => "!=="
  | .less => "<"
  | .lessEqual => "<="
  | .greater => ">"
  | .greaterEqual => ">="
  | .shiftLeft => "<<"
  | .shiftRight => ">>"
  | .bitAnd => "&"
  | .bitOr => "|"
  | .bitXor => "^"
  | .and => "&&"
  | .or => "||"

def unaryText : UnaryOp → String
  | .not => "!"
  | .minus => "-"
  | .bitNot => "~"

def updateText : UpdateOp → String
  | .increment => "++"
  | .decrement => "--"

def wordText : WordOp → String
  | .await => "await"
  | .new => "new"
  | .typeof => "typeof"
  | .void => "void"
  | .delete => "delete"

/-! ## Expressions -/

/-- The texts of a list with commas between them. -/
def commas (texts : List String) : String := String.intercalate ", " texts

def asyncText (isAsync : Bool) : String := if isAsync then "async " else ""

def starText (isGenerator : Bool) : String := if isGenerator then "*" else ""

mutual

/-- The text of an expression. -/
def Expr.text : Expr → String
  | .name text => text
  | .literal value => literalText value
  | .paren inner => "(" ++ inner.text ++ ")"
  | .array elements => "[" ++ commas (texts elements) ++ "]"
  | .object entries => "\x7b" ++ commas (entryTexts entries) ++ "\x7d"
  | .member object name => object.text ++ "." ++ name
  | .index object position => object.text ++ "[" ++ position.text ++ "]"
  | .call callee arguments => callee.text ++ "(" ++ commas (texts arguments) ++ ")"
  | .updateAfter op target => target.text ++ updateText op
  | .updateBefore op target => updateText op ++ target.text
  | .unary op operand => unaryText op ++ operand.text
  | .worded op operand => wordText op ++ " " ++ operand.text
  | .binary op left right => left.text ++ " " ++ op.text ++ " " ++ right.text
  | .conditional condition yes no => condition.text ++ " ? " ++ yes.text ++ " : " ++ no.text
  | .assign target value => target.text ++ " = " ++ value.text
  | .function isAsync params prologue result =>
    let statements := assignmentTexts prologue ++ ["return " ++ result.text ++ ";"]
    asyncText isAsync ++ "function (" ++ commas (paramTexts params) ++ ") \x7b "
      ++ String.intercalate " " statements ++ " \x7d"

def texts : List Expr → List String
  | [] => []
  | e :: es => e.text :: texts es

def entryText : Expr × Expr → String
  | (key, value) => key.text ++ ": " ++ value.text

def entryTexts : List (Expr × Expr) → List String
  | [] => []
  | e :: es => entryText e :: entryTexts es

/-- The text of a parameter. -/
def paramText : Param Expr → String
  | .plain name => name
  | .optional name default => name ++ " = " ++ default.text
  | .rest name => "..." ++ name

def paramTexts : List (Param Expr) → List String
  | [] => []
  | p :: ps => paramText p :: paramTexts ps

/-- The text of an assignment to a name, as a statement. -/
def assignmentText : String × Expr → String
  | (name, value) => name ++ " = " ++ value.text ++ ";"

def assignmentTexts : List (String × Expr) → List String
  | [] => []
  | a :: as => assignmentText a :: assignmentTexts as

end

/-! ## Statements -/

/-- A line behind the spaces of `depth` blocks. -/
def line (depth : Nat) (text : String) : String :=
  String.ofList (List.replicate (4 * depth) ' ') ++ text ++ "\n"

/-- Whether an expression at the start of a statement would be read as a block or a declaration. -/
def readsAsDeclaration (text : String) : Bool :=
  text.startsWith "\x7b" || text.startsWith "function " || text.startsWith "async function "

def expressionStatement (value : Expr) : String :=
  if readsAsDeclaration value.text then "(" ++ value.text ++ ");" else value.text ++ ";"

/-- Raw code, ended by a line break. -/
def rawText (code : String) : String := if code.endsWith "\n" then code else code ++ "\n"

/-- A word and a value, or the word alone. -/
def valueStatement (word : String) : Option Expr → String
  | some value => word ++ " " ++ value.text ++ ";"
  | none => word ++ ";"

def declarationText (binding : Binding) (name : String) : Option Expr → String
  | some value => binding.text ++ " " ++ name ++ " = " ++ value.text ++ ";"
  | none => binding.text ++ " " ++ name ++ ";"

def catchHeader : Option String → String
  | some param => "catch (" ++ param ++ ")"
  | none => "catch"

def classHeader (name : String) : Option Expr → String
  | some superclass => "class " ++ name ++ " extends " ++ superclass.text
  | none => "class " ++ name

/-- A name and the parameters behind it. -/
def signature (name : String) (params : List (Param Expr)) : String :=
  name ++ "(" ++ commas (paramTexts params) ++ ")"

def forHeader (index sequence : String) (source : Expr) : String :=
  "for (let " ++ index ++ " = 0, " ++ sequence ++ " = " ++ source.text ++ "; " ++ index ++ " < "
    ++ sequence ++ ".length; " ++ index ++ "++)"

/-- The line that opens a block. -/
def openLine (depth : Nat) (header : String) : String := line depth (header ++ " \x7b")

/-- The line that closes a block and opens the next one. -/
def reopenLine (depth : Nat) (header : String) : String :=
  line depth ("\x7d " ++ header ++ " \x7b")

/-- The line that closes a block, with what follows the brace. -/
def closeLine (depth : Nat) (tail : String) : String := line depth ("\x7d" ++ tail)

mutual

/-- The text of a statement inside `depth` blocks. -/
def Stmt.text (depth : Nat) : Stmt → String
  | .expression value => line depth (expressionStatement value)
  | .assign name value => line depth (assignmentText (name, value))
  | .raw code => rawText code
  | .function decl => functionText depth decl
  | .ret value => line depth (valueStatement "return" value)
  | .throw value => line depth ("throw " ++ value.text ++ ";")
  | .yield value => line depth (valueStatement "yield" value)
  | .classDecl name superclass methods =>
    openLine depth (classHeader name superclass) ++ methodsText (depth + 1) methods
      ++ closeLine depth ""
  | .block body => line depth "\x7b" ++ blockText (depth + 1) body ++ closeLine depth ""
  | .whileLoop condition body =>
    openLine depth ("while (" ++ condition.text ++ ")") ++ blockText (depth + 1) body
      ++ closeLine depth ""
  | .doLoop body condition =>
    openLine depth "do" ++ blockText (depth + 1) body
      ++ closeLine depth (" while (" ++ condition.text ++ ");")
  | .forIndex index sequence source body =>
    openLine depth (forHeader index sequence source) ++ blockText (depth + 1) body
      ++ closeLine depth ""
  | .tryBlock body handler finalizer =>
    openLine depth "try" ++ blockText (depth + 1) body ++ handlerText depth handler
      ++ continuationText depth "finally" finalizer ++ closeLine depth ""
  | .branch condition body elifs otherwise =>
    openLine depth ("if (" ++ condition.text ++ ")") ++ blockText (depth + 1) body
      ++ elifsText depth elifs ++ continuationText depth "else" otherwise ++ closeLine depth ""
  | .switch value cases default =>
    openLine depth ("switch (" ++ value.text ++ ")") ++ casesText (depth + 1) cases
      ++ defaultText (depth + 1) default ++ closeLine depth ""
  | .breakLoop => line depth "break;"
  | .continueLoop => line depth "continue;"
  | .declare binding name init => line depth (declarationText binding name init)

/-- The text of a list of statements. -/
def blockText (depth : Nat) : List Stmt → String
  | [] => ""
  | s :: ss => s.text depth ++ blockText depth ss

def functionText (depth : Nat) : Function Stmt → String
  | ⟨name, params, body, isAsync, isGenerator⟩ =>
    openLine depth (asyncText isAsync ++ "function" ++ starText isGenerator ++ " "
        ++ signature name params)
      ++ blockText (depth + 1) body ++ closeLine depth ""

def methodText (depth : Nat) : Function Stmt → String
  | ⟨name, params, body, isAsync, isGenerator⟩ =>
    openLine depth (asyncText isAsync ++ starText isGenerator ++ signature name params)
      ++ blockText (depth + 1) body ++ closeLine depth ""

def methodsText (depth : Nat) : List (Function Stmt) → String
  | [] => ""
  | m :: ms => methodText depth m ++ methodsText depth ms

/-- The text of a further part of a statement, behind its first block. -/
def continuationText (depth : Nat) (header : String) : Option (List Stmt) → String
  | none => ""
  | some body => reopenLine depth header ++ blockText (depth + 1) body

def handlerText (depth : Nat) : Option (Handler Stmt) → String
  | none => ""
  | some ⟨param, body⟩ => reopenLine depth (catchHeader param) ++ blockText (depth + 1) body

def elifText (depth : Nat) : Expr × List Stmt → String
  | (condition, body) =>
    reopenLine depth ("else if (" ++ condition.text ++ ")") ++ blockText (depth + 1) body

def elifsText (depth : Nat) : List (Expr × List Stmt) → String
  | [] => ""
  | e :: es => elifText depth e ++ elifsText depth es

def caseText (depth : Nat) : Expr × List Stmt → String
  | (test, body) =>
    openLine depth ("case " ++ test.text ++ ":") ++ blockText (depth + 1) body
      ++ closeLine depth " break;"

def casesText (depth : Nat) : List (Expr × List Stmt) → String
  | [] => ""
  | c :: cs => caseText depth c ++ casesText depth cs

def defaultText (depth : Nat) : Option (List Stmt) → String
  | none => ""
  | some body => openLine depth "default:" ++ blockText (depth + 1) body ++ closeLine depth ""

end

end Offside.Script
