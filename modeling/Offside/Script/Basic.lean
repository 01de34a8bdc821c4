import Offside.Tree

/-!
# Scripts

The JavaScript that a program is lowered to, as trees.  Parentheses are nodes of their own, so the text of a
tree needs no knowledge of precedence.
-/

namespace Offside.Script

/-- The infix operators. -/
inductive Operator
  | add | sub | mul | div | mod | exp
  | equal | notEqual | less | lessEqual | greater | greaterEqual
  | shiftLeft | shiftRight | bitAnd | bitOr | bitXor
  | and | or
deriving DecidableEq, Repr

/-- A parameter: one argument, one argument with a default, or all arguments that are left. -/
inductive Param (ε : Type)
  | plain (name : String)
  | optional (name : String) (default : ε)
  | rest (name : String)

/-- Expressions.  The body of a function expression first assigns to some of its parameters and then returns
a value. -/
inductive Expr
  | name (text : String)
  | literal (value : Literal)
  | paren (inner : Expr)
  | array (elements : List Expr)
  | object (entries : List (Expr × Expr))
  | member (object : Expr) (name : String)
  | index (object position : Expr)
  | call (callee : Expr) (arguments : List Expr)
  | updateAfter (op : UpdateOp) (target : Expr)
  | updateBefore (op : UpdateOp) (target : Expr)
  | unary (op : UnaryOp) (operand : Expr)
  | worded (op : WordOp) (operand : Expr)
  | binary (op : Operator) (left right : Expr)
  | conditional (condition yes no : Expr)
  | assign (target value : Expr)
  | function (isAsync : Bool) (params : List (Param Expr)) (prologue : List (String × Expr))
      (result : Expr)

/-- A function with a name, or a method of a class. -/
structure Function (σ : Type) where
  name : String
  params : List (Param Expr)
  body : List σ
  isAsync : Bool
  isGenerator : Bool

/-- A `catch` clause. -/
structure Handler (σ : Type) where
  param : Option String
  body : List σ

/-- Statements.  `forIndex` counts an index through a sequence that is computed once. -/
inductive Stmt
  | expression (value : Expr)
  | assign (name : String) (value : Expr)
  | raw (code : String)
  | function (decl : Function Stmt)
  | ret (value : Option Expr)
  | throw (value : Expr)
  | yield (value : Option Expr)
  | classDecl (name : String) (superclass : Option Expr) (methods : List (Function Stmt))
  | block (body : List Stmt)
  | whileLoop (condition : Expr) (body : List Stmt)
  | doLoop (body : List Stmt) (condition : Expr)
  | forIndex (index sequence : String) (source : Expr) (body : List Stmt)
  | tryBlock (body : List Stmt) (handler : Option (Handler Stmt)) (finalizer : Option (List Stmt))
  | branch (condition : Expr) (body : List Stmt) (elifs : List (Expr × List Stmt))
      (otherwise : Option (List Stmt))
  | switch (value : Expr) (cases : List (Expr × List Stmt)) (default : Option (List Stmt))
  | breakLoop
  | continueLoop
  | declare (binding : Binding) (name : String) (init : Option Expr)

end Offside.Script
