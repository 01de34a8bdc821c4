import Offside.Script.Basic
import Offside.Script.Helper

/-!
# Lowering

The script of a program.  Operands that are operator expressions get parentheses, so that the shape of the tree
survives JavaScript's own precedence.  Loops and `try` statements with an `else` need fresh names; these are
numbered through the program in the order of the statements.
-/

namespace Offside

open Script (Operator Helper Needs)

/-! ## Expressions -/

namespace Expr

/-- Equality compares structurally when neither side is a literal. -/
def isDeep (left right : Expr) : Bool := !left.isLiteral && !right.isLiteral

/-- Whether an expression is written as an operator expression, which needs parentheses as an operand. -/
def isCompound : Expr → Bool
  | .assign .. | .set .. | .assignSubscript .. | .ternary .. | .lambda .. | .logical .. | .unary ..
  | .updateBefore .. | .worded .. => true
  | .binary op left right =>
    match op with
    | .floorDiv | .member => false
    | .equal => !isDeep left right
    | _ => true
  | _ => false

/-- Whether an expression needs parentheses in front of a member access or a call. -/
def isLooseObject : Expr → Bool
  | .literal (.number _) => true
  | e => e.isCompound

end Expr

namespace Script

/-- Puts parentheses around an expression if needed. -/
def parenIf (needed : Bool) (e : Expr) : Expr := if needed then .paren e else e

def zero : Expr := .literal (.number 0)

def lengthOf (object : Expr) : Expr := .member object "length"

def logicalOperator : LogicalOp → Operator
  | .and => .and
  | .or => .or

def callHelper (helper : Helper) (arguments : List Expr) : Expr := .call (.name helper.name) arguments

/-- The replacement of `count` elements from `start` on by the elements of a value. -/
def splice (target start count value : Expr) : Expr :=
  .call (.member (.member (.array []) "splice") "apply")
    [target, .call (.member (.array [start, count]) "concat") [value]]

end Script

mutual

/-- The script of an expression. -/
def Expr.lower : Expr → Script.Expr
  | .assign name value => .assign (.name name.text) value.lower
  | .binary op left right =>
    let l := left.lower
    let r := right.lower
    let infixed (op : Operator) : Script.Expr :=
      .binary op (Script.parenIf left.isCompound l) (Script.parenIf right.isCompound r)
    match op with
    | .floorDiv => .call (.member (.name "Math") "floor") [infixed .div]
    | .member => Script.callHelper .membership [l, r]
    | .equal =>
      if Expr.isDeep left right then Script.callHelper .deepEquals [l, r] else infixed .equal
    | .notEqual =>
      if Expr.isDeep left right then .unary .not (Script.callHelper .deepEquals [l, r])
      else infixed .notEqual
    | .add => infixed .add
    | .sub => infixed .sub
    | .mul => infixed .mul
    | .div => infixed .div
    | .mod => infixed .mod
    | .exp => infixed .exp
    | .less => infixed .less
    | .lessEqual => infixed .lessEqual
    | .greater => infixed .greater
    | .greaterEqual => infixed .greaterEqual
    | .shiftLeft => infixed .shiftLeft
    | .shiftRight => infixed .shiftRight
    | .bitAnd => infixed .bitAnd
    | .bitOr => infixed .bitOr
    | .bitXor => infixed .bitXor
  | .ternary condition yes no =>
    .conditional (Script.parenIf condition.isCompound condition.lower)
      (Script.parenIf yes.isCompound yes.lower) ((lowerOperand? no).getD (.literal .undefined))
  | .lambda params body isAsync =>
    .function isAsync (lowerParams params) (lowerDefaults params ++ lowerCasts params) body.lower
  | .call callee arguments =>
    .call (Script.parenIf callee.isLooseObject callee.lower) (lowerList arguments)
  | .get object name => .member (Script.parenIf object.isLooseObject object.lower) name.text
  | .set object name value =>
    .assign (.member (Script.parenIf object.isLooseObject object.lower) name.text) value.lower
  | .grouping inner => .paren inner.lower
  | .literal value => .literal value
  | .array elements => .array (lowerList elements)
  | .dictionary entries => .object (lowerEntries entries)
  | .subscript object start colon stop =>
    let target := Script.parenIf object.isLooseObject object.lower
    let first := (lower? start).getD Script.zero
    if colon then
      .call (.member target "slice") [first, (lower? stop).getD (Script.lengthOf target)]
    else .index target first
  | .assignSubscript object start false _ value =>
    .assign (.index (Script.parenIf object.isLooseObject object.lower)
      ((lower? start).getD Script.zero)) value.lower
  | .assignSubscript object (some start) true (some stop) value =>
    let first := Script.parenIf start.isCompound start.lower
    Script.splice (Script.parenIf object.isLooseObject object.lower) first
      (.binary .sub (Script.parenIf stop.isCompound stop.lower) first) value.lower
  | .assignSubscript object none true (some stop) value =>
    Script.splice (Script.parenIf object.isLooseObject object.lower) Script.zero stop.lower
      value.lower
  | .assignSubscript object (some start) true none value =>
    let target := Script.parenIf object.isLooseObject object.lower
    let first := Script.parenIf start.isCompound start.lower
    Script.splice target first (.binary .sub (Script.lengthOf target) first) value.lower
  | .assignSubscript object none true none value =>
    let target := Script.parenIf object.isLooseObject object.lower
    Script.splice target Script.zero (Script.lengthOf target) value.lower
  | .logical op left right =>
    .binary (Script.logicalOperator op) (Script.parenIf left.isCompound left.lower)
      (Script.parenIf right.isCompound right.lower)
  | .unary op operand => .unary op (Script.parenIf operand.isCompound operand.lower)
  | .updateAfter op target => .updateAfter op target.lower
  | .updateBefore op target => .updateBefore op target.lower
  | .variable name => .name name.text
  | .worded .new operand => .worded .new (Script.parenIf operand.isLooseObject operand.lower)
  | .worded op operand => .worded op (Script.parenIf operand.isCompound operand.lower)

def lowerList : List Expr → List Script.Expr
  | [] => []
  | e :: es => e.lower :: lowerList es

def lower? : Option Expr → Option Script.Expr
  | none => none
  | some e => some e.lower

/-- The script of an expression in the place of an operand. -/
def lowerOperand? : Option Expr → Option Script.Expr
  | none => none
  | some e => some (Script.parenIf e.isCompound e.lower)

def lowerEntry : Expr × Expr → Script.Expr × Script.Expr
  | (key, value) => (key.lower, value.lower)

def lowerEntries : List (Expr × Expr) → List (Script.Expr × Script.Expr)
  | [] => []
  | e :: es => lowerEntry e :: lowerEntries es

/-- The parameter of a script.  The default of a wildcard is not part of it. -/
def lowerParam : Param Expr → Script.Param Script.Expr
  | ⟨name, .standard, default, _⟩ =>
    match lower? default with
    | some value => .optional name.text value
    | none => .plain name.text
  | ⟨name, .wildcard, _, _⟩ => .rest name.text

def lowerParams : List (Param Expr) → List (Script.Param Script.Expr)
  | [] => []
  | p :: ps => lowerParam p :: lowerParams ps

/-- The assignment that gives a wildcard without arguments its default. -/
def lowerDefault : Param Expr → Option (String × Script.Expr)
  | ⟨name, .wildcard, default, _⟩ =>
    let argument : Script.Expr := .name name.text
    (lowerOperand? default).map fun value =>
      (name.text, .conditional (.binary .greater (Script.lengthOf argument) Script.zero) argument value)
  | ⟨_, .standard, _, _⟩ => none

def lowerDefaults : List (Param Expr) → List (String × Script.Expr)
  | [] => []
  | p :: ps => (lowerDefault p).toList ++ lowerDefaults ps

/-- The assignments that pass arguments through the functions named with them. -/
def lowerCasts : List (Param Expr) → List (String × Script.Expr)
  | [] => []
  | ⟨name, _, _, cast⟩ :: ps =>
    let own : Option (String × Script.Expr) :=
      cast.map fun cast => (name.text, .call (.name cast.text) [.name name.text])
    own.toList ++ lowerCasts ps

end

/-- What the body of a function first does with its arguments. -/
def prologue (params : List (Param Expr)) : List (String × Script.Expr) :=
  lowerDefaults params ++ lowerCasts params

/-! ## Statements -/

mutual

/-- How many fresh names a statement needs: one for each loop and for each `try` with an `else`. -/
def Stmt.labels : Stmt → Nat
  | .function decl => functionLabels decl
  | .classDecl _ _ methods => methodsLabels methods
  | .block body | .whileLoop _ body | .doLoop body _ => blockLabels body
  | .forLoop _ _ body => 1 + blockLabels body
  | .tryBlock body handler otherwise finalizer =>
    (if otherwise.isSome then 1 else 0) + blockLabels body + handlerLabels handler
      + optionLabels otherwise + optionLabels finalizer
  | .branch _ body elifs otherwise => blockLabels body + casesLabels elifs + optionLabels otherwise
  | .switch _ cases default => casesLabels cases + optionLabels default
  | _ => 0

def blockLabels : List Stmt → Nat
  | [] => 0
  | s :: ss => s.labels + blockLabels ss

def functionLabels : Function Stmt → Nat
  | ⟨_, _, body, _, _⟩ => blockLabels body

def methodsLabels : List (Function Stmt) → Nat
  | [] => 0
  | m :: ms => functionLabels m + methodsLabels ms

def handlerLabels : Option (Handler Stmt) → Nat
  | none => 0
  | some ⟨_, body⟩ => blockLabels body

def optionLabels : Option (List Stmt) → Nat
  | none => 0
  | some body => blockLabels body

def caseLabels : Expr × List Stmt → Nat
  | (_, body) => blockLabels body

def casesLabels : List (Expr × List Stmt) → Nat
  | [] => 0
  | c :: cs => caseLabels c + casesLabels cs

end

namespace Script

def indexName (label : Nat) : String := "$_i" ++ toString label

def sequenceName (label : Nat) : String := "$_seq" ++ toString label

def flagName (label : Nat) : String := "$_ok" ++ toString label

def thrownName (label : Nat) : String := "$_e" ++ toString label

/-- A loop over the elements of `source`.  The index and the sequence have fresh names. -/
def forEach (label : Nat) (name : String) (source : Expr) (body : List Stmt) : Stmt :=
  let index := indexName label
  let sequence := sequenceName label
  .forIndex index sequence (callHelper .iterable [source])
    (.declare .scoped name (some (.index (.name sequence) (.name index))) :: body)

/-- A `try` without `else`.  A `try` alone gets an empty handler. -/
def plainTry (body : List Stmt) (handler : Option (Handler Stmt))
    (finalizer : Option (List Stmt)) : Stmt :=
  match handler, finalizer with
  | none, none => .tryBlock body (some ⟨none, []⟩) none
  | handler, finalizer => .tryBlock body handler finalizer

/-- The handler of a `try` with an `else`: it notes that something was thrown, and throws it again if the program
does not handle it. -/
def notingHandler (label : Nat) : Option (Handler Stmt) → Handler Stmt
  | some handler => ⟨handler.param, noted :: handler.body⟩
  | none => ⟨some (thrownName label), [noted, .throw (.name (thrownName label))]⟩
where
  noted : Stmt := .assign (flagName label) (.literal (.boolean false))

/-- A `try` with an `else`, which runs when nothing was thrown. -/
def tryElse (label : Nat) (body : List Stmt) (handler : Option (Handler Stmt)) (otherwise : List Stmt)
    (finalizer : Option (List Stmt)) : Stmt :=
  let flag := flagName label
  let parts : List Stmt :=
    [.declare .scoped flag (some (.literal (.boolean true))),
      .tryBlock body (some (notingHandler label handler)) none,
      .branch (.name flag) otherwise [] none]
  match finalizer with
  | some finalizer => .tryBlock parts none (some finalizer)
  | none => .block parts

end Script

/-- The assignments to parameters as statements. -/
def prologueStatements (params : List (Param Expr)) : List Script.Stmt :=
  (prologue params).map fun (name, value) => .assign name value

mutual

/-- The script of a statement whose first fresh name has the number `label`. -/
def Stmt.lower (label : Nat) : Stmt → Script.Stmt
  | .expression value => .expression value.lower
  | .raw code => .raw code
  | .function decl => .function (lowerFunction label decl)
  | .ret value => .ret (lower? value)
  | .throw value => .throw value.lower
  | .yield value => .yield (lower? value)
  | .classDecl name superclass methods =>
    .classDecl name.text (superclass.map fun e => Script.parenIf e.isLooseObject e.lower)
      (lowerMethods label methods)
  | .block body => .block (lowerBlock label body)
  | .whileLoop condition body => .whileLoop condition.lower (lowerBlock label body)
  | .doLoop body condition => .doLoop (lowerBlock label body) condition.lower
  | .forLoop name iterable body =>
    Script.forEach label name.text iterable.lower (lowerBlock (label + 1) body)
  | .tryBlock body handler otherwise finalizer =>
    let first := if otherwise.isSome then label + 1 else label
    let second := first + blockLabels body
    let third := second + handlerLabels handler
    let fourth := third + optionLabels otherwise
    let body := lowerBlock first body
    let handler := lowerHandler second handler
    let finalizer := lowerOption fourth finalizer
    match lowerOption third otherwise with
    | some otherwise => Script.tryElse label body handler otherwise finalizer
    | none => Script.plainTry body handler finalizer
  | .branch condition body elifs otherwise =>
    let second := label + blockLabels body
    .branch condition.lower (lowerBlock label body) (lowerCases second elifs)
      (lowerOption (second + casesLabels elifs) otherwise)
  | .switch value cases default =>
    .switch value.lower (lowerCases label cases) (lowerOption (label + casesLabels cases) default)
  | .breakLoop => .breakLoop
  | .continueLoop => .continueLoop
  | .declare binding name init => .declare binding name.text (lower? init)

def lowerBlock (label : Nat) : List Stmt → List Script.Stmt
  | [] => []
  | s :: ss => s.lower label :: lowerBlock (label + s.labels) ss

def lowerFunction (label : Nat) : Function Stmt → Script.Function Script.Stmt
  | ⟨name, params, body, isAsync, isGenerator⟩ =>
    ⟨name.text, lowerParams params, prologueStatements params ++ lowerBlock label body, isAsync,
      isGenerator⟩

def lowerMethods (label : Nat) : List (Function Stmt) → List (Script.Function Script.Stmt)
  | [] => []
  | m :: ms => lowerFunction label m :: lowerMethods (label + functionLabels m) ms

def lowerHandler (label : Nat) : Option (Handler Stmt) → Option (Script.Handler Script.Stmt)
  | none => none
  | some ⟨param, body⟩ => some ⟨param.map Ident.text, lowerBlock label body⟩

def lowerOption (label : Nat) : Option (List Stmt) → Option (List Script.Stmt)
  | none => none
  | some body => some (lowerBlock label body)

def lowerCase (label : Nat) : Expr × List Stmt → Script.Expr × List Script.Stmt
  | (test, body) => (test.lower, lowerBlock label body)

def lowerCases (label : Nat) : List (Expr × List Stmt) → List (Script.Expr × List Script.Stmt)
  | [] => []
  | c :: cs => lowerCase label c :: lowerCases (label + caseLabels c) cs

end

/-! ## Helpers -/

/-- Whether an expression is the bare name of the `range` helper. -/
def Expr.isRange : Expr → Bool
  | .variable name => name.text = Helper.range.name
  | _ => false

mutual

/-- The helpers that the script of an expression calls. -/
def Expr.needs : Expr → Needs
  | .assign _ value => value.needs
  | .binary op left right =>
    let own := match op with
      | .member => Needs.only .membership
      | .equal | .notEqual => Needs.when (Expr.isDeep left right) .deepEquals
      | _ => Needs.none
    own ++ left.needs ++ right.needs
  | .ternary condition yes no => condition.needs ++ yes.needs ++ optionNeeds no
  | .lambda params body _ => paramsNeeds params ++ body.needs
  | .call callee arguments =>
    Needs.when callee.isRange .range ++ callee.needs ++ listNeeds arguments
  | .get object _ => object.needs
  | .set object _ value => object.needs ++ value.needs
  | .grouping inner => inner.needs
  | .literal _ | .variable _ => Needs.none
  | .array elements => listNeeds elements
  | .dictionary entries => entriesNeeds entries
  | .subscript object start colon stop =>
    object.needs ++ optionNeeds start ++ (if colon then optionNeeds stop else Needs.none)
  | .assignSubscript object start colon stop value =>
    object.needs ++ optionNeeds start ++ (if colon then optionNeeds stop else Needs.none)
      ++ value.needs
  | .logical _ left right => left.needs ++ right.needs
  | .unary _ operand | .worded _ operand => operand.needs
  | .updateAfter _ target | .updateBefore _ target => target.needs

def listNeeds : List Expr → Needs
  | [] => Needs.none
  | e :: es => e.needs ++ listNeeds es

def optionNeeds : Option Expr → Needs
  | none => Needs.none
  | some e => e.needs

def entryNeeds : Expr × Expr → Needs
  | (key, value) => key.needs ++ value.needs

def entriesNeeds : List (Expr × Expr) → Needs
  | [] => Needs.none
  | e :: es => entryNeeds e ++ entriesNeeds es

def paramNeeds : Param Expr → Needs
  | ⟨_, _, default, _⟩ => optionNeeds default

def paramsNeeds : List (Param Expr) → Needs
  | [] => Needs.none
  | p :: ps => paramNeeds p ++ paramsNeeds ps

end

mutual

/-- The helpers that the script of a statement calls. -/
def Stmt.needs : Stmt → Needs
  | .expression value | .throw value => value.needs
  | .raw _ | .breakLoop | .continueLoop => Needs.none
  | .function decl => functionNeeds decl
  | .ret value | .yield value => optionNeeds value
  | .classDecl _ superclass methods => optionNeeds superclass ++ methodsNeeds methods
  | .block body => blockNeeds body
  | .whileLoop condition body | .doLoop body condition => condition.needs ++ blockNeeds body
  | .forLoop _ iterable body => Needs.only .iterable ++ iterable.needs ++ blockNeeds body
  | .tryBlock body handler otherwise finalizer =>
    blockNeeds body ++ handlerNeeds handler ++ bodyNeeds otherwise ++ bodyNeeds finalizer
  | .branch condition body elifs otherwise =>
    condition.needs ++ blockNeeds body ++ casesNeeds elifs ++ bodyNeeds otherwise
  | .switch value cases default => value.needs ++ casesNeeds cases ++ bodyNeeds default
  | .declare _ _ init => optionNeeds init

def blockNeeds : List Stmt → Needs
  | [] => Needs.none
  | s :: ss => s.needs ++ blockNeeds ss

def functionNeeds : Function Stmt → Needs
  | ⟨_, params, body, _, _⟩ => paramsNeeds params ++ blockNeeds body

def methodsNeeds : List (Function Stmt) → Needs
  | [] => Needs.none
  | m :: ms => functionNeeds m ++ methodsNeeds ms

def handlerNeeds : Option (Handler Stmt) → Needs
  | none => Needs.none
  | some ⟨_, body⟩ => blockNeeds body

def bodyNeeds : Option (List Stmt) → Needs
  | none => Needs.none
  | some body => blockNeeds body

def caseNeeds : Expr × List Stmt → Needs
  | (test, body) => test.needs ++ blockNeeds body

def casesNeeds : List (Expr × List Stmt) → Needs
  | [] => Needs.none
  | c :: cs => caseNeeds c ++ casesNeeds cs

end

end Offside
