import Offside.Proofs.Grammar.Progress
import Offside.Proofs.Tree.Parts

/-!
# Derivations

Which trees the grammar has, told the tokens of the source: one rule for each form of expression and of statement.
Every form has a level, from assignment, the loosest, to primary expressions, the tightest, and a rule asks for levels
of what stands inside.  Names and literals are those of tokens.  A run that records faults may still give a tree, and
the one rule that such a tree may break is that what is incremented can be; so the rules are told whether the run was
quiet.  Of the expressions that stand in statements it is kept that parsers gave them.
-/

namespace Offside

def BinaryOp.level : BinaryOp → Nat
  | .member => 4
  | .equal | .notEqual => 6
  | .less | .lessEqual | .greater | .greaterEqual => 7
  | .bitOr | .bitXor => 8
  | .bitAnd => 9
  | .shiftLeft | .shiftRight => 10
  | .add | .sub => 11
  | .mul | .div | .floorDiv | .mod => 12
  | .exp => 13

def LogicalOp.level : LogicalOp → Nat
  | .or => 2
  | .and => 3

/-- The level of an expression. -/
def Expr.level : Expr → Nat
  | .assign .. | .set .. | .assignSubscript .. => 1
  | .logical op .. => op.level
  | .ternary .. => 5
  | .binary op .. => op.level
  | .unary .. | .updateBefore .. => 14
  | .worded .. => 15
  | .call .. | .get .. | .subscript .. | .updateAfter .. => 16
  | .variable _ | .literal _ | .grouping _ | .array _ | .dictionary _ | .lambda .. => 17

/-- The levels of the two operands that a binary operator asks for.  Powers associate to the right, and what stands
behind `in` is no conditional. -/
def BinaryOp.operandLevels : BinaryOp → Nat × Nat
  | .member => (4, 6)
  | .exp => (14, 13)
  | op => (op.level, op.level + 1)

def LogicalOp.operandLevels (op : LogicalOp) : Nat × Nat := (op.level, op.level + 1)

/-- The level of the operand of an operator that is spelled by a word. -/
def WordOp.operandLevel : WordOp → Nat
  | .new => 15
  | _ => 14

namespace Grammar

open Offside.Grammar.Parser

variable {α β : Type} {e : Expr} {s : Stmt}

/-! ## The knot -/

namespace Inner

/-- The parsers that look inside with the parsers at hand. -/
def tie (inner : Inner) (rounds : Nat) : Inner :=
  ⟨rounds, Grammar.expression inner, Grammar.exponent inner, Grammar.unary inner, Grammar.worded inner,
    Grammar.declaration inner⟩

/-- The parsers are tied at least `n` times, above any others, with rounds enough for `n` tokens. -/
inductive Tied : Nat → Inner → Prop
  | bottom (inner : Inner) : Tied 0 inner
  | tie {n rounds : Nat} {inner : Inner} : Tied n inner → n < rounds → Tied (n + 1) (inner.tie rounds)

theorem tied_ofDepth (n : Nat) : Tied n (ofDepth n) := by
  induction n with
  | zero => exact .bottom _
  | succ n ih => exact .tie ih (Nat.lt_succ_self n)

theorem Tied.le {n m : Nat} {inner : Inner} (h : inner.Tied n) (hle : m ≤ n) : inner.Tied m := by
  induction h generalizing m with
  | bottom inner =>
    rw [Nat.le_zero.1 hle]
    exact .bottom inner
  | tie h hrounds ih =>
    cases m with
    | zero => exact .bottom _
    | succ m => exact .tie (ih (Nat.le_of_succ_le_succ hle)) (by omega)

theorem Tied.le_rounds {n : Nat} {inner : Inner} (h : inner.Tied n) : n ≤ inner.rounds := by
  cases h with
  | bottom inner => exact Nat.zero_le _
  | tie h hrounds => exact hrounds

end Inner

/-- A quiet run of the parser on tokens of the source that its depth is enough for gave the expression. -/
def Given (source : List Token) (p : Inner → Parser Expr) (e : Expr) : Prop :=
  ∃ (n : Nat) (inner : Inner) (stop : Eof) (tokens rest : List Token),
    inner.Tied n ∧ tokens.length ≤ n ∧ tokens <:+ source ∧ Gives (p inner) stop tokens e rest

/-! ## Names and parameters -/

section
variable (source : List Token)

/-- A name that stands in the source. -/
def Named (name : Ident) : Prop := ∃ token ∈ source, IsIdent token name

/-- A name that stands in the source where a member is named, for which reserved words can be taken. -/
def MemberNamed (name : Ident) : Prop := ∃ token ∈ source, IsProperty token name

/-- A parameter whose name and cast stand in the source. -/
structure ParamNamed (p : Param Expr) : Prop where
  name : Named source p.name
  cast : ∀ name ∈ p.cast, Named source name

/-- Parameters whose names and casts stand in the source, of which only the last is a wildcard. -/
structure ParamsNamed (params : List (Param Expr)) : Prop where
  named : ∀ p ∈ params, ParamNamed source p
  standard : ∀ p ∈ params.dropLast, p.kind = .standard

/-! ## Expressions -/

/-- The expressions of the grammar. -/
inductive Derives (quiet : Prop) : Expr → Prop
  | assign {name : Ident} {value : Expr} : Named source name → Derives quiet value →
      Derives quiet (.assign name value)
  | set {object value : Expr} {name : Ident} : 16 ≤ object.level → Derives quiet object → MemberNamed source name →
      Derives quiet value → Derives quiet (.set object name value)
  | assignSubscript {object value : Expr} {start stop : Option Expr} {colon : Bool} : 16 ≤ object.level →
      Derives quiet object → (∀ e ∈ start, Derives quiet e) → (∀ e ∈ stop, Derives quiet e) →
      (colon = false → start.isSome = true ∧ stop = none) → Derives quiet value →
      Derives quiet (.assignSubscript object start colon stop value)
  | logical {op : LogicalOp} {left right : Expr} : op.operandLevels.1 ≤ left.level → Derives quiet left →
      op.operandLevels.2 ≤ right.level → Derives quiet right → Derives quiet (.logical op left right)
  | binary {op : BinaryOp} {left right : Expr} : op.operandLevels.1 ≤ left.level → Derives quiet left →
      op.operandLevels.2 ≤ right.level → Derives quiet right → Derives quiet (.binary op left right)
  | ternary {condition yes : Expr} {no : Option Expr} : 6 ≤ condition.level → Derives quiet condition →
      6 ≤ yes.level → Derives quiet yes → (∀ e ∈ no, 6 ≤ e.level) → (∀ e ∈ no, Derives quiet e) →
      Derives quiet (.ternary condition yes no)
  | unary {op : UnaryOp} {operand : Expr} : 14 ≤ operand.level → Derives quiet operand →
      Derives quiet (.unary op operand)
  | updateBefore {op : UpdateOp} {target : Expr} : 14 ≤ target.level → Derives quiet target →
      (quiet → target.isUpdatable = true) → Derives quiet (.updateBefore op target)
  | worded {op : WordOp} {operand : Expr} : op.operandLevel ≤ operand.level → Derives quiet operand →
      Derives quiet (.worded op operand)
  | call {callee : Expr} {arguments : List Expr} : 16 ≤ callee.level → Derives quiet callee →
      (∀ e ∈ arguments, Derives quiet e) → Derives quiet (.call callee arguments)
  | get {object : Expr} {name : Ident} : 16 ≤ object.level → Derives quiet object → MemberNamed source name →
      Derives quiet (.get object name)
  | subscript {object : Expr} {start stop : Option Expr} {colon : Bool} : 16 ≤ object.level →
      Derives quiet object → (∀ e ∈ start, Derives quiet e) → (∀ e ∈ stop, Derives quiet e) →
      (colon = false → start.isSome = true ∧ stop = none) → Derives quiet (.subscript object start colon stop)
  | updateAfter {op : UpdateOp} {target : Expr} : 16 ≤ target.level → Derives quiet target →
      (quiet → target.isUpdatable = true) → Derives quiet (.updateAfter op target)
  | variable {name : Ident} : Named source name → Derives quiet (.variable name)
  | literal {token : Token} {value : Literal} : token ∈ source → literal? token.kind = some value →
      Derives quiet (.literal value)
  | regex {token : Token} {pattern flags : List Char} : token ∈ source → token.kind.isString = true →
      Regex.split? (quotedText token) = some (pattern, flags) →
      Derives quiet (.literal (.regex (String.ofList pattern) (String.ofList flags)))
  | grouping {inner : Expr} : Derives quiet inner → Derives quiet (.grouping inner)
  | array {elements : List Expr} : (∀ e ∈ elements, Derives quiet e) → Derives quiet (.array elements)
  | dictionary {entries : List (Expr × Expr)} : (∀ entry ∈ entries, Derives quiet entry.1) →
      (∀ entry ∈ entries, Derives quiet entry.2) → Derives quiet (.dictionary entries)
  | lambda {params : List (Param Expr)} {body : Expr} {isAsync : Bool} : ParamsNamed source params →
      (∀ p ∈ params, ∀ e ∈ p.default, 14 ≤ e.level) → (∀ p ∈ params, ∀ e ∈ p.default, Derives quiet e) →
      Derives quiet body → Derives quiet (.lambda params body isAsync)

/-- The expressions of a level and of the tighter ones. -/
structure DerivesAt (quiet : Prop) (level : Nat) (e : Expr) : Prop where
  level_le : level ≤ e.level
  derives : Derives source quiet e

/-- Those that the parser of the level gave. -/
structure GivenAt (quiet : Prop) (parser : Inner → Parser Expr) (level : Nat) (e : Expr) : Prop
    extends DerivesAt source quiet level e where
  given : quiet → Given source parser e

/-- A list of parameters. -/
structure ParamsDerive (quiet : Prop) (params : List (Param Expr)) : Prop extends ParamsNamed source params where
  default : ∀ p ∈ params, ∀ e ∈ p.default, GivenAt source quiet unary 14 e

/-! ## Statements -/

/-- An expression that a statement holds. -/
abbrev Held (quiet : Prop) (e : Expr) : Prop := GivenAt source quiet expression 0 e

/-- The name and the parameters of a function. -/
structure HeadDerives (quiet : Prop) (decl : Function Stmt) : Prop where
  name : Named source decl.name
  params : ParamsDerive source quiet decl.params

/-- The statements of the grammar. -/
inductive StmtDerives (quiet : Prop) : Stmt → Prop
  | expression {value : Expr} : Held source quiet value → StmtDerives quiet (.expression value)
  | raw {token : Token} : token ∈ source → token.kind.isString = true →
      StmtDerives quiet (.raw (String.ofList (quotedText token)))
  | function {decl : Function Stmt} : HeadDerives source quiet decl → (∀ s ∈ decl.body, StmtDerives quiet s) →
      StmtDerives quiet (.function decl)
  | ret {value : Option Expr} : (∀ e ∈ value, Held source quiet e) → StmtDerives quiet (.ret value)
  | throw {value : Expr} : Held source quiet value → StmtDerives quiet (.throw value)
  | yield {value : Option Expr} : (∀ e ∈ value, Held source quiet e) → StmtDerives quiet (.yield value)
  | classDecl {name : Ident} {superclass : Option Expr} {methods : List (Function Stmt)} : Named source name →
      (∀ e ∈ superclass, GivenAt source quiet call 16 e) → (∀ decl ∈ methods, HeadDerives source quiet decl) →
      (∀ decl ∈ methods, ∀ s ∈ decl.body, StmtDerives quiet s) →
      StmtDerives quiet (.classDecl name superclass methods)
  | block {body : List Stmt} : (∀ s ∈ body, StmtDerives quiet s) → StmtDerives quiet (.block body)
  | whileLoop {condition : Expr} {body : List Stmt} : Held source quiet condition →
      (∀ s ∈ body, StmtDerives quiet s) → StmtDerives quiet (.whileLoop condition body)
  | doLoop {condition : Expr} {body : List Stmt} : (∀ s ∈ body, StmtDerives quiet s) →
      Held source quiet condition → StmtDerives quiet (.doLoop body condition)
  | forLoop {name : Ident} {iterable : Expr} {body : List Stmt} : Named source name →
      Held source quiet iterable → (∀ s ∈ body, StmtDerives quiet s) → StmtDerives quiet (.forLoop name iterable body)
  | tryBlock {body : List Stmt} {handler : Option (Handler Stmt)} {otherwise finalizer : Option (List Stmt)} :
      (∀ s ∈ body, StmtDerives quiet s) → (∀ caught ∈ handler, ∀ name ∈ caught.param, Named source name) →
      (∀ caught ∈ handler, ∀ s ∈ caught.body, StmtDerives quiet s) →
      (∀ content ∈ otherwise, ∀ s ∈ content, StmtDerives quiet s) →
      (∀ content ∈ finalizer, ∀ s ∈ content, StmtDerives quiet s) →
      StmtDerives quiet (.tryBlock body handler otherwise finalizer)
  | branch {condition : Expr} {body : List Stmt} {elifs : List (Expr × List Stmt)}
      {otherwise : Option (List Stmt)} : Held source quiet condition → (∀ s ∈ body, StmtDerives quiet s) →
      (∀ clause ∈ elifs, Held source quiet clause.1) → (∀ clause ∈ elifs, ∀ s ∈ clause.2, StmtDerives quiet s) →
      (∀ content ∈ otherwise, ∀ s ∈ content, StmtDerives quiet s) →
      StmtDerives quiet (.branch condition body elifs otherwise)
  | switch {value : Expr} {cases : List (Expr × List Stmt)} {default : Option (List Stmt)} :
      Held source quiet value → (∀ clause ∈ cases, Held source quiet clause.1) →
      (∀ clause ∈ cases, ∀ s ∈ clause.2, StmtDerives quiet s) →
      (∀ content ∈ default, ∀ s ∈ content, StmtDerives quiet s) → StmtDerives quiet (.switch value cases default)
  | breakLoop : StmtDerives quiet .breakLoop
  | continueLoop : StmtDerives quiet .continueLoop
  | declare {binding : Binding} {name : Ident} {init : Option Expr} : Named source name →
      (∀ e ∈ init, Held source quiet e) → (binding = .constant → init.isSome = true) →
      StmtDerives quiet (.declare binding name init)

end

/-! ## Parts -/

section
variable {source : List Token} {quiet : Prop}

theorem Derives.of_mem_parts {part : Expr} (h : Derives source quiet e) (hpart : part ∈ e.parts) :
    Derives source quiet part := by
  cases h <;> simp only [Expr.parts] at hpart <;> grind

theorem Derives.stopsSlice (h : Derives source quiet e) : e.stopsSlice = true := by
  cases h with
  | @subscript _ _ _ colon _ _ _ _ hplain | @assignSubscript _ _ _ _ colon _ _ _ _ hplain _ =>
    cases colon with
    | true => rfl
    | false => simp [Expr.stopsSlice, (hplain rfl).2]
  | _ => rfl

theorem StmtDerives.of_mem_parts {part : Stmt} (h : StmtDerives source quiet s) (hpart : part ∈ s.parts) :
    StmtDerives source quiet part := by
  cases h with
  | branch hcondition hbody htests hclauses hotherwise =>
    simp only [Stmt.parts, List.mem_append, List.mem_flatMap, mem_getD_nil] at hpart
    rcases hpart with (hpart | ⟨clause, hclause, hpart⟩) | ⟨content, hcontent, hpart⟩
    · exact hbody part hpart
    · exact hclauses clause hclause part hpart
    · exact hotherwise content hcontent part hpart
  | switch hvalue htests hclauses hdefault =>
    simp only [Stmt.parts, List.mem_append, List.mem_flatMap, mem_getD_nil] at hpart
    rcases hpart with ⟨clause, hclause, hpart⟩ | ⟨content, hcontent, hpart⟩
    · exact hclauses clause hclause part hpart
    · exact hdefault content hcontent part hpart
  | _ =>
    simp only [Stmt.parts] at hpart
    grind [mem_getD_nil]

theorem ParamsDerive.of_mem_defaults {params : List (Param Expr)} (h : ParamsDerive source quiet params)
    (he : e ∈ params.filterMap Param.default) : Derives source quiet e := by
  obtain ⟨p, hp, hdefault⟩ := List.mem_filterMap.1 he
  exact (h.default p hp e hdefault).derives

theorem StmtDerives.of_mem_values {value : Expr} (h : StmtDerives source quiet s)
    (hvalue : value ∈ s.values) : Derives source quiet value := by
  cases h with
  | function hhead hbody => exact hhead.params.of_mem_defaults hvalue
  | classDecl hname hsuperclass hheads hbodies =>
    simp only [Stmt.values, List.mem_append, Option.mem_toList, List.mem_flatMap] at hvalue
    rcases hvalue with hvalue | ⟨decl, hdecl, hvalue⟩
    · exact (hsuperclass value hvalue).derives
    · exact (hheads decl hdecl).params.of_mem_defaults hvalue
  | _ =>
    have hheld : Held source quiet value := by
      simp only [Stmt.values] at hvalue
      grind
    exact hheld.derives

/-- The expressions inside an expression of the grammar. -/
theorem Derives.of_mem_nodes {node : Expr} (h : Derives source quiet e) (hnode : node ∈ Branching.nodes e) :
    Derives source quiet node :=
  Branching.forall_nodes_of (fun _ ha _ hpart => ha.of_mem_parts hpart) h node hnode

theorem StmtDerives.of_mem_nodes {node : Stmt} (h : StmtDerives source quiet s)
    (hnode : node ∈ Branching.nodes s) : StmtDerives source quiet node :=
  Branching.forall_nodes_of (fun _ ha _ hpart => ha.of_mem_parts hpart) h node hnode

variable {body : List Stmt} (h : ∀ s ∈ body, StmtDerives source quiet s)

include h

theorem stmtDerives_of_mem_statements (hs : s ∈ Program.statements body) : StmtDerives source quiet s := by
  obtain ⟨outer, houter, hnode⟩ := Program.mem_statements.1 hs
  exact (h outer houter).of_mem_nodes hnode

theorem derives_of_mem_expressions (he : e ∈ Program.expressions body) : Derives source quiet e := by
  obtain ⟨outer, houter, node, hnode, value, hvalue, hinside⟩ := Program.mem_expressions.1 he
  have hstatement : StmtDerives source quiet node := (h outer houter).of_mem_nodes hnode
  exact (hstatement.of_mem_values hvalue).of_mem_nodes hinside

end

end Grammar

end Offside
