import Offside.Script.Lowering
import Offside.Proofs.Tree.Parts

/-!
# Statements behind the lowering

The bodies inside a statement are lowered one behind the other, as one list of statements: the number at which the
fresh names of a body start counts all those of the bodies in front of it.
-/

namespace Offside

/-- Loops and `try` statements with an `else` are numbered, and their fresh names have the number. -/
def Stmt.isNumbered : Stmt → Bool
  | .forLoop .. => true
  | .tryBlock _ _ otherwise _ => otherwise.isSome
  | _ => false

/-! ## Fresh names of the bodies inside a statement -/

theorem blockLabels_append (front back : List Stmt) :
    blockLabels (front ++ back) = blockLabels front + blockLabels back := by
  induction front with
  | nil => simp [blockLabels]
  | cons s front ih => simp [blockLabels, ih, Nat.add_assoc]

theorem functionLabels_eq (decl : Function Stmt) : functionLabels decl = blockLabels decl.body := by
  obtain ⟨name, params, body, isAsync, isGenerator⟩ := decl
  rw [functionLabels]

theorem methodsLabels_eq (methods : List (Function Stmt)) :
    methodsLabels methods = blockLabels (methods.flatMap Function.body) := by
  induction methods with
  | nil => rfl
  | cons decl methods ih => rw [methodsLabels, ih, functionLabels_eq, List.flatMap_cons, blockLabels_append]

theorem handlerLabels_eq (handler : Option (Handler Stmt)) :
    handlerLabels handler = blockLabels (handler.toList.flatMap Handler.body) := by
  cases handler with
  | none => rfl
  | some caught =>
    obtain ⟨param, body⟩ := caught
    simp [handlerLabels]

theorem optionLabels_eq (content : Option (List Stmt)) : optionLabels content = blockLabels (content.getD []) := by
  cases content <;> simp [optionLabels, blockLabels]

theorem casesLabels_eq (clauses : List (Expr × List Stmt)) :
    casesLabels clauses = blockLabels (clauses.flatMap Prod.snd) := by
  induction clauses with
  | nil => rfl
  | cons clause clauses ih =>
    obtain ⟨test, body⟩ := clause
    rw [casesLabels, ih, caseLabels, List.flatMap_cons, blockLabels_append]

/-! ## The bodies themselves -/

theorem lowerBlock_append (label : Nat) (front back : List Stmt) :
    lowerBlock label (front ++ back) = lowerBlock label front ++ lowerBlock (label + blockLabels front) back := by
  induction front generalizing label with
  | nil => simp [lowerBlock, blockLabels]
  | cons s front ih => simp [lowerBlock, blockLabels, ih, Nat.add_assoc]

theorem body_lowerHandler (label : Nat) (handler : Option (Handler Stmt)) :
    (lowerHandler label handler).toList.flatMap Script.Handler.body =
      lowerBlock label (handler.toList.flatMap Handler.body) := by
  cases handler with
  | none => rfl
  | some caught =>
    obtain ⟨param, body⟩ := caught
    simp [lowerHandler]

theorem getD_lowerOption (label : Nat) (content : Option (List Stmt)) :
    (lowerOption label content).getD [] = lowerBlock label (content.getD []) := by
  cases content <;> simp [lowerOption, lowerBlock]

theorem bodies_lowerCases (label : Nat) (clauses : List (Expr × List Stmt)) :
    (lowerCases label clauses).flatMap Prod.snd = lowerBlock label (clauses.flatMap Prod.snd) := by
  induction clauses generalizing label with
  | nil => rfl
  | cons clause clauses ih =>
    obtain ⟨test, body⟩ := clause
    rw [lowerCases, lowerCase, caseLabels, List.flatMap_cons, List.flatMap_cons, ih, lowerBlock_append]

theorem tests_lowerCases (label : Nat) (clauses : List (Expr × List Stmt)) :
    (lowerCases label clauses).map Prod.fst = clauses.map fun clause => clause.1.lower := by
  induction clauses generalizing label with
  | nil => rfl
  | cons clause clauses ih =>
    obtain ⟨test, body⟩ := clause
    rw [lowerCases, lowerCase, List.map_cons, List.map_cons, ih]

theorem prologueStatements_eq_map (params : List (Param Expr)) :
    prologueStatements params = (prologue params).map fun assignment => .assign assignment.1 assignment.2 := rfl

/-- A function first assigns to its parameters. -/
theorem body_lowerFunction (label : Nat) (decl : Function Stmt) :
    (lowerFunction label decl).body = prologueStatements decl.params ++ lowerBlock label decl.body := by
  obtain ⟨name, params, body, isAsync, isGenerator⟩ := decl
  rw [lowerFunction]

end Offside
