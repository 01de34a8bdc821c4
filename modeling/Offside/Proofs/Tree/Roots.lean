import Mathlib.Algebra.BigOperators.Group.Multiset.Basic
import Mathlib.Algebra.Order.Group.Multiset
import Offside.Proofs.Tree.Lowering

/-!
# Expressions behind the lowering

The expressions that stand in the statements of a script, each as a whole: those of a lowered statement are those that
the statement itself is lowered to and those of its parts.
-/

namespace Offside

open Branching (nodes)
open Script (indexName sequenceName flagName thrownName)

namespace Script

/-- The expressions that stand in statements or in statements inside them, each as a whole. -/
def roots (body : List Stmt) : Multiset Expr := ((statements body).flatMap Stmt.values : List Expr)

@[simp]
theorem roots_nil : roots [] = 0 := rfl

theorem roots_append (front back : List Stmt) : roots (front ++ back) = roots front + roots back := by
  simp [roots, statements]

theorem roots_cons (s : Stmt) (rest : List Stmt) :
    roots (s :: rest) = (s.values : Multiset Expr) + roots s.parts + roots rest := by
  have hnodes : nodes s = s :: s.parts.flatMap nodes := Branching.nodes_eq s
  simp [roots, statements, hnodes]

/-! ## Nodes of a kind -/

/-- The nodes of an expression that a test accepts. -/
def collect (p : Expr → Bool) (t : Expr) : Multiset Expr := ((nodes t).filter p : List Expr)

/-- What the root of an expression adds to its nodes. -/
def root (p : Expr → Bool) (t : Expr) : Multiset Expr := if p t then {t} else 0

section
variable {p : Expr → Bool}

theorem coe_filter_flatMap_nodes (ts : List Expr) :
    ((ts.flatMap nodes).filter p : Multiset Expr) = (ts.map (collect p)).sum := by
  induction ts with
  | nil => rfl
  | cons t ts ih =>
    rw [List.flatMap_cons, List.filter_append, ← Multiset.coe_add, ih, List.map_cons, List.sum_cons]
    rfl

theorem collect_eq (t : Expr) : collect p t = root p t + (t.parts.map (collect p)).sum := by
  have hnodes : nodes t = t :: t.parts.flatMap nodes := Branching.nodes_eq t
  rw [← coe_filter_flatMap_nodes, collect, hnodes, root]
  cases hp : p t with
  | true =>
    rw [List.filter_cons_of_pos hp, if_pos rfl, Multiset.singleton_add]
    rfl
  | false => rw [List.filter_cons_of_neg (by simp [hp]), if_neg Bool.false_ne_true, zero_add]

@[simp]
theorem collect_name (text : String) : collect p (.name text) = root p (.name text) := by
  simp [collect_eq (.name text), Expr.parts]

@[simp]
theorem collect_literal (value : Literal) : collect p (.literal value) = root p (.literal value) := by
  simp [collect_eq (.literal value), Expr.parts]

@[simp]
theorem collect_paren (inner : Expr) : collect p (.paren inner) = root p (.paren inner) + collect p inner := by
  simp [collect_eq (.paren inner), Expr.parts]

@[simp]
theorem collect_array (elements : List Expr) :
    collect p (.array elements) = root p (.array elements) + (elements.map (collect p)).sum :=
  collect_eq _

@[simp]
theorem collect_member (target : Expr) (name : String) :
    collect p (.member target name) = root p (.member target name) + collect p target := by
  simp [collect_eq (.member target name), Expr.parts]

@[simp]
theorem collect_index (target position : Expr) :
    collect p (.index target position) = root p (.index target position) + (collect p target + collect p position) := by
  simp [collect_eq (.index target position), Expr.parts]

@[simp]
theorem collect_call (callee : Expr) (arguments : List Expr) : collect p (.call callee arguments) =
    root p (.call callee arguments) + (collect p callee + (arguments.map (collect p)).sum) := by
  simp [collect_eq (.call callee arguments), Expr.parts]

@[simp]
theorem collect_updateAfter (op : UpdateOp) (target : Expr) :
    collect p (.updateAfter op target) = root p (.updateAfter op target) + collect p target := by
  simp [collect_eq (.updateAfter op target), Expr.parts]

@[simp]
theorem collect_updateBefore (op : UpdateOp) (target : Expr) :
    collect p (.updateBefore op target) = root p (.updateBefore op target) + collect p target := by
  simp [collect_eq (.updateBefore op target), Expr.parts]

@[simp]
theorem collect_unary (op : UnaryOp) (operand : Expr) :
    collect p (.unary op operand) = root p (.unary op operand) + collect p operand := by
  simp [collect_eq (.unary op operand), Expr.parts]

@[simp]
theorem collect_worded (op : WordOp) (operand : Expr) :
    collect p (.worded op operand) = root p (.worded op operand) + collect p operand := by
  simp [collect_eq (.worded op operand), Expr.parts]

@[simp]
theorem collect_binary (op : Operator) (left right : Expr) :
    collect p (.binary op left right) = root p (.binary op left right) + (collect p left + collect p right) := by
  simp [collect_eq (.binary op left right), Expr.parts]

@[simp]
theorem collect_conditional (condition yes no : Expr) : collect p (.conditional condition yes no) =
    root p (.conditional condition yes no) + (collect p condition + (collect p yes + collect p no)) := by
  simp [collect_eq (.conditional condition yes no), Expr.parts]

@[simp]
theorem collect_assign (target value : Expr) :
    collect p (.assign target value) = root p (.assign target value) + (collect p target + collect p value) := by
  simp [collect_eq (.assign target value), Expr.parts]

/-- The nodes of a kind in a script are those in the expressions of its statements. -/
theorem filter_expressions (body : List Stmt) :
    ((expressions body).filter p : Multiset Expr) = ((roots body).map (collect p)).sum := by
  have hexpressions : expressions body = ((statements body).flatMap Stmt.values).flatMap nodes := by
    rw [expressions, List.flatMap_assoc]
  rw [hexpressions, coe_filter_flatMap_nodes, roots, Multiset.map_coe, Multiset.sum_coe]

end

end Script

/-- The expressions that the parameters of a function are lowered to. -/
def paramRoots (params : List (Param Expr)) : Multiset Script.Expr :=
  ((lowerParams params).filterMap Script.Param.default? : List Script.Expr) +
    ((prologue params).map Prod.snd : List Script.Expr)

namespace Stmt

/-- The expressions that a statement with a number is lowered to, beside those of its parts. -/
def roots (number : Nat) : Stmt → Multiset Script.Expr
  | .expression value | .throw value => {value.lower}
  | .function decl => paramRoots decl.params
  | .ret value | .yield value => (value.toList.map Expr.lower : List Script.Expr)
  | .classDecl _ superclass methods =>
    (superclass.toList.map fun e => Script.parenIf e.isLooseObject e.lower : List Script.Expr) +
      (methods.map fun decl => paramRoots decl.params).sum
  | .whileLoop condition _ | .doLoop _ condition => {condition.lower}
  | .forLoop _ iterable _ =>
    {Script.callHelper .iterable [iterable.lower], .index (.name (sequenceName number)) (.name (indexName number))}
  | .tryBlock _ (some _) (some _) _ =>
    {.literal (.boolean true), .literal (.boolean false), .name (flagName number)}
  | .tryBlock _ none (some _) _ =>
    {.literal (.boolean true), .literal (.boolean false), .name (flagName number), .name (thrownName number)}
  | .branch condition _ clauses _ | .switch condition clauses _ =>
    {condition.lower} + (clauses.map fun clause => clause.1.lower : List Script.Expr)
  | .declare _ _ init => (init.toList.map Expr.lower : List Script.Expr)
  | .raw _ | .block _ | .tryBlock _ _ none _ | .breakLoop | .continueLoop => 0

end Stmt

theorem roots_prologueStatements (params : List (Param Expr)) :
    Script.roots (prologueStatements params) = ((prologue params).map Prod.snd : List Script.Expr) := by
  rw [prologueStatements_eq_map]
  induction prologue params with
  | nil => rfl
  | cons assignment rest ih =>
    rw [List.map_cons, Script.roots_cons, ih]
    simp [Script.Stmt.values, Script.Stmt.parts]

theorem params_lowerFunction (number : Nat) (decl : Function Stmt) :
    (lowerFunction number decl).params = lowerParams decl.params := by
  obtain ⟨name, params, body, isAsync, isGenerator⟩ := decl
  rw [lowerFunction]

theorem roots_lowerFunction (number : Nat) (decl : Function Stmt) :
    ((lowerFunction number decl).params.filterMap Script.Param.default? : Multiset Script.Expr) +
      Script.roots (lowerFunction number decl).body =
        paramRoots decl.params + Script.roots (lowerBlock number decl.body) := by
  rw [params_lowerFunction, body_lowerFunction, Script.roots_append, roots_prologueStatements, paramRoots, add_assoc]

theorem roots_lowerMethods (number : Nat) (methods : List (Function Stmt)) :
    (((lowerMethods number methods).flatMap fun decl => decl.params.filterMap Script.Param.default? :
        List Script.Expr) : Multiset Script.Expr) +
      Script.roots ((lowerMethods number methods).flatMap Script.Function.body) =
        (methods.map fun decl => paramRoots decl.params).sum +
          Script.roots (lowerBlock number (methods.flatMap Function.body)) := by
  induction methods generalizing number with
  | nil => rfl
  | cons decl methods ih =>
    have hdecl := roots_lowerFunction number decl
    have hothers := ih (number + functionLabels decl)
    rw [functionLabels_eq] at hothers
    simp only [lowerMethods, List.flatMap_cons, List.map_cons, List.sum_cons, lowerBlock_append, Script.roots_append,
      ← Multiset.coe_add, functionLabels_eq]
    rw [add_add_add_comm, hdecl, hothers, add_add_add_comm]

theorem toList_lower? (value : Option Expr) : (lower? value).toList = value.toList.map Expr.lower := by
  cases value <;> rfl

theorem roots_notingHandler (number : Nat) (handler : Option (Script.Handler Script.Stmt)) :
    Script.roots (Script.notingHandler number handler).body =
      {.literal (.boolean false)} + (if handler.isNone then {.name (thrownName number)} else 0) +
        Script.roots (handler.toList.flatMap Script.Handler.body) := by
  cases handler <;>
    simp [Script.notingHandler, Script.notingHandler.noted, Script.roots_cons, Script.Stmt.values, Script.Stmt.parts]

theorem roots_tryElse (number : Nat) (body : List Script.Stmt) (handler : Option (Script.Handler Script.Stmt))
    (otherwise : List Script.Stmt) (finalizer : Option (List Script.Stmt)) :
    Script.roots [Script.tryElse number body handler otherwise finalizer] =
      {.literal (.boolean true), .literal (.boolean false), .name (flagName number)} +
        (if handler.isNone then {.name (thrownName number)} else 0) +
        Script.roots (body ++ handler.toList.flatMap Script.Handler.body ++ otherwise ++ finalizer.getD []) := by
  cases finalizer <;>
  · simp only [Script.tryElse, Script.roots_cons, Script.roots_append, Script.Stmt.values, Script.Stmt.parts,
      roots_notingHandler, Multiset.insert_eq_cons, ← Multiset.singleton_add, Option.toList_some, Option.toList_none,
      List.flatMap_cons, List.flatMap_nil, List.append_nil, Option.getD_some, Option.getD_none, Script.roots_nil,
      Multiset.coe_singleton, Multiset.coe_nil, List.map_nil, add_zero, zero_add]
    ac_rfl

theorem roots_plainTry (body : List Script.Stmt) (handler : Option (Script.Handler Script.Stmt))
    (finalizer : Option (List Script.Stmt)) : Script.roots [Script.plainTry body handler finalizer] =
      Script.roots (body ++ handler.toList.flatMap Script.Handler.body ++ finalizer.getD []) := by
  cases handler <;> cases finalizer <;>
    simp [Script.plainTry, Script.roots_cons, Script.Stmt.values, Script.Stmt.parts]

theorem roots_lower (s : Stmt) (number : Nat) : Script.roots [s.lower number] =
      s.roots number + Script.roots (lowerBlock (number + s.isNumbered.toNat) s.parts) := by
  cases s with
  | tryBlock body handler otherwise finalizer =>
    cases otherwise with
    | none =>
      simp only [Stmt.lower, lowerOption]
      rw [roots_plainTry]
      simp [Stmt.roots, Stmt.isNumbered, Stmt.parts, lowerBlock_append, body_lowerHandler, getD_lowerOption,
        handlerLabels_eq, optionLabels_eq, blockLabels, Nat.add_assoc]
    | some content =>
      simp only [Stmt.lower, lowerOption]
      rw [roots_tryElse]
      cases handler <;>
        simp [Stmt.roots, Stmt.isNumbered, Stmt.parts, lowerBlock_append, lowerHandler, getD_lowerOption,
          handlerLabels, optionLabels, Nat.add_assoc]
  | function decl =>
    have hdecl := roots_lowerFunction number decl
    simpa [Script.roots_cons, Stmt.lower, Stmt.roots, Stmt.parts, Stmt.isNumbered, Script.Stmt.values,
      Script.Stmt.parts] using hdecl
  | classDecl name superclass methods =>
    have hmethods := roots_lowerMethods number methods
    rw [Script.roots_cons]
    simp only [Stmt.lower, Stmt.roots, Stmt.parts, Stmt.isNumbered, Script.Stmt.values, Script.Stmt.parts,
      Bool.toNat_false, Script.roots_nil, add_zero, ← Multiset.coe_add]
    rw [add_assoc, hmethods, ← add_assoc]
    cases superclass <;> rfl
  | forLoop name iterable body =>
    simp [Script.roots_cons, Stmt.lower, Stmt.roots, Stmt.parts, Stmt.isNumbered, Script.forEach, Script.Stmt.values,
      Script.Stmt.parts]
    exact Multiset.cons_swap _ _ _
  | _ =>
    rw [Script.roots_cons]
    simp [Stmt.lower, Stmt.roots, Stmt.parts, Stmt.isNumbered, Script.Stmt.values, Script.Stmt.parts,
      lowerBlock, lowerBlock_append, bodies_lowerCases, tests_lowerCases, getD_lowerOption, casesLabels_eq,
      toList_lower?, Nat.add_assoc]

section
variable {M : Type} [AddCommMonoid M] {f : Script.Expr → M} {g : Stmt → M}

/-- What is counted in the expressions of a script is counted for each statement of the program, whatever its number
is. -/
theorem sum_map_roots_lowerBlock (body : List Stmt)
    (hstep : ∀ s ∈ Program.statements body, ∀ number, ((s.roots number).map f).sum = g s) (number : Nat) :
    ((Script.roots (lowerBlock number body)).map f).sum = ((Program.statements body).map g).sum := by
  induction body using Program.body_induction generalizing number with
  | nil => rfl
  | cons s rest hparts hrest =>
    rw [Program.statements_cons, List.forall_mem_cons, List.forall_mem_append] at hstep
    obtain ⟨hself, hbelow, hbehind⟩ := hstep
    rw [lowerBlock, ← List.singleton_append, Script.roots_append, roots_lower]
    simp only [Multiset.map_add, Multiset.sum_add, Program.statements_cons, List.map_cons, List.map_append,
      List.sum_cons, List.sum_append, hself number, add_assoc]
    rw [hparts hbelow, hrest hbehind]

end

end Offside
