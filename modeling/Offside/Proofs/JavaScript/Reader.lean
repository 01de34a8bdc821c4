import Offside.Proofs.JavaScript.Lexeme

/-!
# Reading JavaScript expressions

The grammar of JavaScript's operators as a reader, one function for each level, from assignments down to
primary expressions.  Trees are those of `Script`, but parentheses only group: they leave no node, and the tree
of a text shows its operator structure alone.  A function expression has the body that `Script` gives it,
assignments to names and a `return`, and a rest parameter can stand anywhere.  There is no `new`.

As in the grammar of the source language, a reader is told the readers of what stands behind a lexeme that was
taken, and `Nested.ofDepth` ties them together.
-/

namespace Offside.JavaScript

open Script (Operator)

/-- Trees of expressions. -/
abbrev Tree := Script.Expr

/-- A reader gives a value and the lexemes that are left. -/
abbrev Reading (α : Type) := List Lexeme → Option (α × List Lexeme)

/-- The readers for what stands behind at least one lexeme, and a bound on the rounds of a repetition. -/
structure Nested where
  rounds : Nat
  assignment : Reading Tree
  exponent : Reading Tree
  unary : Reading Tree

/-- Takes a mark. -/
def taking (sign : Mark) : List Lexeme → Option (List Lexeme)
  | .mark other :: rest => if other = sign then some rest else none
  | _ => none

/-- Whether a mark comes next. -/
def nextIs (sign : Mark) (input : List Lexeme) : Bool := input.head? = some (.mark sign)

/-- Items between commas, at least one. -/
def items (item : Reading α) : (rounds : Nat) → Reading (List α)
  | 0, _ => none
  | rounds + 1, input => do
    let (first, input) ← item input
    match input with
    | .mark .comma :: input =>
      let (others, input) ← items item rounds input
      some (first :: others, input)
    | _ => some ([first], input)

/-- Items between commas up to a closing mark. -/
def enclosed (close : Mark) (item : Reading α) (rounds : Nat) : Reading (List α) := fun input =>
  match taking close input with
  | some input => some ([], input)
  | none => do
    let (values, input) ← items item rounds input
    let input ← taking close input
    some (values, input)

/-- Whether a tree can be assigned to or incremented. -/
def isTarget : Tree → Bool
  | .name _ | .member .. | .index .. => true
  | _ => false

/-- An identifier. -/
def identifier : Reading String
  | .word text :: rest => if reserved.contains text then none else some (text, rest)
  | _ => none

section
variable (nested : Nested)

/-! ## Functions -/

def param : Reading (Script.Param Tree)
  | .mark .ellipsis :: input => do
    let (name, input) ← identifier input
    some (.rest name, input)
  | input => do
    let (name, input) ← identifier input
    match input with
    | .mark .equal :: input =>
      let (value, input) ← nested.assignment input
      some (.optional name value, input)
    | _ => some (.plain name, input)

/-- The statements of a body: assignments to names up to the `return`, and the value of the `return`. -/
def body : (rounds : Nat) → Reading (List (String × Tree) × Tree)
  | 0, _ => none
  | _ + 1, .word "return" :: input => do
    let (value, input) ← nested.assignment input
    let input ← taking .semicolon input
    some (([], value), input)
  | rounds + 1, input => do
    let (name, input) ← identifier input
    let input ← taking .equal input
    let (value, input) ← nested.assignment input
    let input ← taking .semicolon input
    let ((others, result), input) ← body rounds input
    some (((name, value) :: others, result), input)

/-- A function expression, behind its word. -/
def function (isAsync : Bool) : Reading Tree := fun input => do
  let input ← taking .leftParen input
  let (params, input) ← enclosed .rightParen (param nested) nested.rounds input
  let input ← taking .leftBrace input
  let ((prologue, result), input) ← body nested nested.rounds input
  let input ← taking .rightBrace input
  some (.function isAsync params prologue result, input)

/-! ## Primary expressions -/

/-- A key of an object and its value. -/
def entry : Reading (Tree × Tree) := fun input => do
  let (key, input) ← match input with
    | .word text :: input => some (Script.Expr.name text, input)
    | .string value :: input => some (.literal (.string value), input)
    | .number value :: input => some (.literal (.number value), input)
    | _ => none
  let input ← taking .colon input
  let (value, input) ← nested.assignment input
  some ((key, value), input)

def primary : Reading Tree
  | .word "true" :: input => some (.literal (.boolean true), input)
  | .word "false" :: input => some (.literal (.boolean false), input)
  | .word "null" :: input => some (.literal .null, input)
  | .word "function" :: input => function nested false input
  | .word "async" :: .word "function" :: input => function nested true input
  | .word text :: input => if reserved.contains text then none else some (.name text, input)
  | .number value :: input => some (.literal (.number value), input)
  | .string value :: input => some (.literal (.string value), input)
  | .mark .leftParen :: input => do
    let (value, input) ← nested.assignment input
    let input ← taking .rightParen input
    some (value, input)
  | .mark .leftBracket :: input => do
    let (elements, input) ← enclosed .rightBracket nested.assignment nested.rounds input
    some (.array elements, input)
  | .mark .leftBrace :: input => do
    let (entries, input) ← enclosed .rightBrace (entry nested) nested.rounds input
    some (.object entries, input)
  | _ => none

/-! ## Members, subscripts and calls -/

def suffixes : (rounds : Nat) → Tree → Reading Tree
  | 0, _, _ => none
  | rounds + 1, object, .mark .dot :: .word name :: input => suffixes rounds (.member object name) input
  | rounds + 1, object, .mark .leftBracket :: input => do
    let (position, input) ← nested.assignment input
    let input ← taking .rightBracket input
    suffixes rounds (.index object position) input
  | rounds + 1, object, .mark .leftParen :: input => do
    let (arguments, input) ← enclosed .rightParen nested.assignment nested.rounds input
    suffixes rounds (.call object arguments) input
  | _ + 1, object, input => some (object, input)

/-- What stands on the left-hand side of an assignment: a primary expression with its suffixes. -/
def leftHandSide : Reading Tree := fun input => do
  let (object, input) ← primary nested input
  suffixes nested nested.rounds object input

/-! ## Operators -/

def updateOp? : Lexeme → Option UpdateOp
  | .mark .increment => some .increment
  | .mark .decrement => some .decrement
  | _ => none

def wordOp? : String → Option WordOp
  | "await" => some .await
  | "typeof" => some .typeof
  | "void" => some .void
  | "delete" => some .delete
  | _ => none

def unaryOp? : Lexeme → Option (Tree → Tree)
  | .mark .bang => some (.unary .not)
  | .mark (.operator .sub) => some (.unary .minus)
  | .mark .tilde => some (.unary .bitNot)
  | .word text => (wordOp? text).map .worded
  | _ => none

/-- An increment behind a target, or what stands on a left-hand side alone. -/
def postfixed : Reading Tree := fun input => do
  let (target, input) ← leftHandSide nested input
  match input.head?.bind updateOp? with
  | some op => if isTarget target then some (.updateAfter op target, input.tail) else none
  | none => some (target, input)

/-- An increment in front of a target, or a postfix expression. -/
def update : Reading Tree := fun input =>
  match input.head?.bind updateOp? with
  | some op => do
    let (target, input) ← nested.unary input.tail
    if isTarget target then some (.updateBefore op target, input) else none
  | none => postfixed nested input

def unary : Reading Tree := fun input =>
  match input.head?.bind unaryOp? with
  | some wrap => do
    let (operand, input) ← nested.unary input.tail
    some (wrap operand, input)
  | none => update nested input

/-- Powers associate to the right.  The base is no unary expression. -/
def exponent : Reading Tree := fun input =>
  match input.head?.bind unaryOp? with
  | some _ => do
    let (value, input) ← unary nested input
    if nextIs (.operator .exp) input then none else some (value, input)
  | none => do
    let (base, input) ← update nested input
    match input with
    | .mark (.operator .exp) :: input =>
      let (power, input) ← nested.exponent input
      some (.binary .exp base power, input)
    | _ => some (base, input)

/-- The infix operators that associate to the left, loosest first. -/
def levels : List (List Operator) :=
  [[.or], [.and], [.bitOr], [.bitXor], [.bitAnd], [.equal, .notEqual],
    [.less, .lessEqual, .greater, .greaterEqual], [.shiftLeft, .shiftRight], [.add, .sub], [.mul, .div, .mod]]

/-- Further operands of a level behind the first one. -/
def operands (level : List Operator) (operand : Reading Tree) : (rounds : Nat) → Tree → Reading Tree
  | 0, _, _ => none
  | rounds + 1, left, .mark (.operator op) :: input =>
    if level.contains op then do
      let (right, input) ← operand input
      operands level operand rounds (.binary op left right) input
    else some (left, .mark (.operator op) :: input)
  | _ + 1, left, input => some (left, input)

def infixed : List (List Operator) → Reading Tree
  | [] => exponent nested
  | level :: tighter => fun input => do
    let (left, input) ← infixed tighter input
    operands level (infixed tighter) nested.rounds left input

def conditional : Reading Tree := fun input => do
  let (condition, input) ← infixed nested levels input
  match input with
  | .mark .question :: input =>
    let (yes, input) ← nested.assignment input
    let input ← taking .colon input
    let (no, input) ← nested.assignment input
    some (.conditional condition yes no, input)
  | _ => some (condition, input)

def assignment : Reading Tree := fun input => do
  let (target, input) ← conditional nested input
  match input with
  | .mark .equal :: input =>
    if isTarget target then do
      let (value, input) ← nested.assignment input
      some (.assign target value, input)
    else none
  | _ => some (target, input)

end

/-- The readers for what stands at most `n` lexemes deep. -/
def Nested.ofDepth : (n : Nat) → Nested
  | 0 => ⟨0, fun _ => none, fun _ => none, fun _ => none⟩
  | n + 1 =>
    let nested := ofDepth n
    ⟨n + 1, JavaScript.assignment nested, JavaScript.exponent nested, JavaScript.unary nested⟩

/-- The tree of a text that is an expression. -/
def read? (letters : Letters) (text : String) : Option Tree := do
  let input ← lexemes letters text.toList
  let (value, rest) ← assignment (Nested.ofDepth input.length) input
  if rest.isEmpty then some value else none

end Offside.JavaScript
