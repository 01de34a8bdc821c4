import Offside.Binary64

/-!
# Syntax trees

Expressions and statements of the language.  A body is a list of statements whatever its written form,
and every name keeps the line it was written on.
-/

namespace Offside

/-- A name and the line it was written on. -/
structure Ident where
  text : String
  line : Nat
deriving DecidableEq, Repr

inductive Literal
  | number (value : Binary64)
  | string (value : String)
  | boolean (value : Bool)
  | null
  | undefined
  | regex (pattern flags : String)
deriving DecidableEq, Repr

inductive BinaryOp
  | add | sub | mul | div | floorDiv | mod | exp
  | equal | notEqual | less | lessEqual | greater | greaterEqual
  | shiftLeft | shiftRight | bitAnd | bitOr | bitXor
  | member
deriving DecidableEq, Repr

inductive LogicalOp
  | and | or
deriving DecidableEq, Repr

inductive UnaryOp
  | not | minus | bitNot
deriving DecidableEq, Repr

inductive UpdateOp
  | increment | decrement
deriving DecidableEq, Repr

/-- The operators spelled by a word in front of their operand. -/
inductive WordOp
  | await | new | typeof | void | delete
deriving DecidableEq, Repr

/-- How a parameter takes its argument: one argument, or all that are left. -/
inductive ParamKind
  | standard | wildcard
deriving DecidableEq, Repr

/-- A parameter: its default value, if any, and the function its argument is passed through, if any. -/
structure Param (ε : Type) where
  name : Ident
  kind : ParamKind
  default : Option ε
  cast : Option Ident

/-- Expressions.  A subscript with `colon` is a slice; one without has its index in `start`. -/
inductive Expr
  | assign (name : Ident) (value : Expr)
  | binary (op : BinaryOp) (left right : Expr)
  | ternary (condition yes : Expr) (no : Option Expr)
  | lambda (params : List (Param Expr)) (body : Expr) (isAsync : Bool)
  | call (callee : Expr) (arguments : List Expr)
  | get (object : Expr) (name : Ident)
  | set (object : Expr) (name : Ident) (value : Expr)
  | grouping (inner : Expr)
  | literal (value : Literal)
  | array (elements : List Expr)
  | dictionary (entries : List (Expr × Expr))
  | subscript (object : Expr) (start : Option Expr) (colon : Bool) (stop : Option Expr)
  | assignSubscript (object : Expr) (start : Option Expr) (colon : Bool) (stop : Option Expr)
      (value : Expr)
  | logical (op : LogicalOp) (left right : Expr)
  | unary (op : UnaryOp) (operand : Expr)
  | updateAfter (op : UpdateOp) (target : Expr)
  | updateBefore (op : UpdateOp) (target : Expr)
  | variable (name : Ident)
  | worded (op : WordOp) (operand : Expr)

namespace Expr

def isLiteral : Expr → Bool
  | .literal _ => true
  | _ => false

/-- Whether an expression names something that can be incremented. -/
def isUpdatable : Expr → Bool
  | .variable _ | .get .. | .subscript .. => true
  | _ => false

end Expr

/-- The words that introduce a variable. -/
inductive Binding
  | hoisted | scoped | constant
deriving DecidableEq, Repr

/-- The spelling of a declaring word. -/
def Binding.text : Binding → String
  | .hoisted => "var"
  | .scoped => "let"
  | .constant => "const"

/-- A function declaration, or a method of a class. -/
structure Function (σ : Type) where
  name : Ident
  params : List (Param Expr)
  body : List σ
  isAsync : Bool
  isGenerator : Bool

/-- The part of a `try` that handles what was thrown. -/
structure Handler (σ : Type) where
  param : Option Ident
  body : List σ

/-- Statements. -/
inductive Stmt
  | expression (value : Expr)
  | raw (code : String)
  | function (decl : Function Stmt)
  | ret (value : Option Expr)
  | throw (value : Expr)
  | yield (value : Option Expr)
  | classDecl (name : Ident) (superclass : Option Expr) (methods : List (Function Stmt))
  | block (body : List Stmt)
  | whileLoop (condition : Expr) (body : List Stmt)
  | doLoop (body : List Stmt) (condition : Expr)
  | forLoop (name : Ident) (iterable : Expr) (body : List Stmt)
  | tryBlock (body : List Stmt) (handler : Option (Handler Stmt)) (otherwise : Option (List Stmt))
      (finalizer : Option (List Stmt))
  | branch (condition : Expr) (body : List Stmt) (elifs : List (Expr × List Stmt))
      (otherwise : Option (List Stmt))
  | switch (value : Expr) (cases : List (Expr × List Stmt)) (default : Option (List Stmt))
  | breakLoop
  | continueLoop
  | declare (binding : Binding) (name : Ident) (init : Option Expr)

/-- A program is the list of its top-level statements. -/
abbrev Program := List Stmt

end Offside
