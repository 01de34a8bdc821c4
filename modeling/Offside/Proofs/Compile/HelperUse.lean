import Offside.Proofs.Compile.Outcome

/-!
# Helpers in front of a script

A helper is put in front of a script exactly when some node of the program, however deep, is lowered to a call of it.
The set of helpers is gathered along the tree, so it is compared with the nodes of the tree part by part.
-/

namespace Offside

open Branching (nodes parts)
open Script (Helper Needs)

/-! ## Sets of helpers -/

namespace Script.Needs

variable {helper : Helper}

@[simp]
theorem contains_none : none.contains helper = false := by
  cases helper <;> rfl

@[simp]
theorem contains_append (a b : Needs) : (a ++ b).contains helper = (a.contains helper || b.contains helper) := by
  cases helper <;> rfl

@[simp]
theorem contains_only (own : Helper) : (only own).contains helper = decide (own = helper) := by
  cases own <;> cases helper <;> rfl

@[simp]
theorem contains_when (needed : Bool) (own : Helper) :
    (when needed own).contains helper = (needed && decide (own = helper)) := by
  cases needed <;> simp [when]

end Script.Needs

/-! ## Expressions -/

namespace Expr

variable {e : Expr}

/-- Whether an expression by itself, its parts apart, is lowered to a call of a helper. -/
def asksFor (helper : Helper) : Expr → Bool
  | .binary .member _ _ => Helper.membership = helper
  | .binary .equal left right | .binary .notEqual left right => isDeep left right && Helper.deepEquals = helper
  | .call callee _ => callee.isRange && Helper.range = helper
  | _ => false

theorem asksFor_membership : e.asksFor .membership = true ↔ ∃ left right, e = .binary .member left right := by
  cases e with
  | binary op left right => cases op <;> simp [asksFor]
  | _ => simp [asksFor]

theorem asksFor_iterable (e : Expr) : e.asksFor .iterable = false := by
  cases e with
  | binary op left right => cases op <;> simp [asksFor]
  | _ => simp [asksFor]

theorem asksFor_range :
    e.asksFor .range = true ↔ ∃ line arguments, e = .call (.variable ⟨"range", line⟩) arguments := by
  cases e with
  | binary op left right => cases op <;> simp [asksFor]
  | call callee arguments =>
    cases callee with
    | «variable» name =>
      obtain ⟨text, line⟩ := name
      have hname : (Expr.variable ⟨text, line⟩).isRange = true ↔ text = "range" := decide_eq_true_iff
      simp [asksFor, hname]
    | _ => simp [asksFor, isRange]
  | _ => simp [asksFor]

theorem asksFor_deepEquals :
    e.asksFor .deepEquals = true ↔ ∃ op left right, (op = .equal ∨ op = .notEqual) ∧ left.isLiteral = false ∧
      right.isLiteral = false ∧ e = .binary op left right := by
  cases e with
  | binary op left right => cases op <;> simp [asksFor, isDeep]
  | _ => simp [asksFor]

end Expr

section
variable (helper : Helper)

theorem contains_listNeeds (es : List Expr) :
    (listNeeds es).contains helper = es.any fun e => e.needs.contains helper := by
  induction es with
  | nil => simp [listNeeds]
  | cons e es ih => simp [listNeeds, ih]

theorem contains_optionNeeds (found : Option Expr) :
    (optionNeeds found).contains helper = found.toList.any fun e => e.needs.contains helper := by
  cases found <;> simp [optionNeeds]

theorem contains_entriesNeeds (entries : List (Expr × Expr)) : (entriesNeeds entries).contains helper =
      (entries.flatMap fun entry => [entry.1, entry.2]).any fun e => e.needs.contains helper := by
  induction entries with
  | nil => simp [entriesNeeds]
  | cons entry entries ih =>
    obtain ⟨key, value⟩ := entry
    simp [entriesNeeds, entryNeeds, ih, Bool.or_assoc]

theorem contains_paramsNeeds (params : List (Param Expr)) : (paramsNeeds params).contains helper =
      (params.filterMap Param.default).any fun e => e.needs.contains helper := by
  induction params with
  | nil => simp [paramsNeeds]
  | cons p ps ih =>
    obtain ⟨name, kind, default, cast⟩ := p
    cases default <;> simp [paramsNeeds, paramNeeds, contains_optionNeeds, ih]

/-- An expression needs what it asks for itself and what its parts need. -/
theorem Expr.contains_needs {e : Expr} (h : e.stopsSlice = true) :
    e.needs.contains helper = (e.asksFor helper || e.parts.any fun part => part.needs.contains helper) := by
  cases e with
  | binary op left right => cases op <;> simp [needs, asksFor, Expr.parts, Bool.or_assoc]
  | ternary condition yes no => simp [needs, asksFor, Expr.parts, contains_optionNeeds, Bool.or_assoc]
  | lambda params body isAsync => simp [needs, asksFor, Expr.parts, contains_paramsNeeds]
  | call callee arguments => simp [needs, asksFor, Expr.parts, contains_listNeeds, Bool.or_assoc]
  | array elements => simp [needs, asksFor, Expr.parts, contains_listNeeds]
  | dictionary entries => simp only [needs, asksFor, Expr.parts, contains_entriesNeeds, Bool.false_or]
  | subscript object start colon stop | assignSubscript object start colon stop value =>
    cases colon with
    | true => simp [needs, asksFor, Expr.parts, contains_optionNeeds, Bool.or_assoc]
    | false =>
      have hstop : stop = none := by simpa [stopsSlice] using h
      simp [needs, asksFor, Expr.parts, contains_optionNeeds, hstop, Bool.or_assoc]
  | _ => simp [needs, asksFor, Expr.parts]

/-- An expression needs the helpers that its nodes ask for. -/
theorem Expr.contains_needs_iff {e : Expr} (h : ∀ node ∈ nodes e, node.stopsSlice = true) :
    e.needs.contains helper = true ↔ ∃ node ∈ nodes e, node.asksFor helper = true := by
  induction e using Branching.induction with
  | step e ih =>
    obtain ⟨hown, hparts⟩ := Branching.forall_nodes.1 h
    rw [e.contains_needs helper hown, Bool.or_eq_true, List.any_eq_true, Branching.exists_nodes]
    apply or_congr_right
    apply exists_congr
    intro part
    apply and_congr_right
    intro hpart
    exact ih part hpart (hparts part hpart)

end

/-! ## Statements -/

/-- Whether a statement by itself is lowered to a call of a helper. -/
def Stmt.asksFor (helper : Helper) : Stmt → Bool
  | .forLoop .. => Helper.iterable = helper
  | _ => false

theorem Stmt.asksFor_iff {helper : Helper} {s : Stmt} :
    s.asksFor helper = true ↔ helper = .iterable ∧ ∃ name iterable inside, s = .forLoop name iterable inside := by
  cases s <;> simp [asksFor, eq_comm]

section
variable (helper : Helper)

theorem contains_blockNeeds (body : List Stmt) :
    (blockNeeds body).contains helper = body.any fun s => s.needs.contains helper := by
  induction body with
  | nil => simp [blockNeeds]
  | cons s ss ih => simp [blockNeeds, ih]

theorem contains_bodyNeeds (content : Option (List Stmt)) :
    (bodyNeeds content).contains helper = (content.getD []).any fun s => s.needs.contains helper := by
  cases content <;> simp [bodyNeeds, contains_blockNeeds]

theorem contains_handlerNeeds (handler : Option (Handler Stmt)) : (handlerNeeds handler).contains helper =
      (handler.toList.flatMap Handler.body).any fun s => s.needs.contains helper := by
  cases handler <;> simp [handlerNeeds, contains_blockNeeds]

theorem contains_functionNeeds (decl : Function Stmt) : (functionNeeds decl).contains helper =
      ((decl.params.filterMap Param.default).any (fun e => e.needs.contains helper) ||
        decl.body.any fun s => s.needs.contains helper) := by
  obtain ⟨name, params, body, isAsync, isGenerator⟩ := decl
  simp only [functionNeeds, Needs.contains_append, contains_paramsNeeds, contains_blockNeeds]

theorem contains_methodsNeeds (methods : List (Function Stmt)) : (methodsNeeds methods).contains helper =
      ((methods.flatMap fun decl => decl.params.filterMap Param.default).any (fun e => e.needs.contains helper) ||
        (methods.flatMap Function.body).any fun s => s.needs.contains helper) := by
  induction methods with
  | nil => simp [methodsNeeds]
  | cons decl decls ih =>
    simp only [methodsNeeds, Needs.contains_append, contains_functionNeeds, ih, List.flatMap_cons, List.any_append]
    ac_rfl

theorem contains_casesNeeds (clauses : List (Expr × List Stmt)) : (casesNeeds clauses).contains helper =
      ((clauses.map Prod.fst).any (fun e => e.needs.contains helper) ||
        (clauses.flatMap Prod.snd).any fun s => s.needs.contains helper) := by
  induction clauses with
  | nil => simp [casesNeeds]
  | cons clause clauses ih =>
    obtain ⟨test, body⟩ := clause
    simp only [casesNeeds, caseNeeds, Needs.contains_append, contains_blockNeeds, ih, List.map_cons,
      List.flatMap_cons, List.any_cons, List.any_append]
    ac_rfl

/-- A statement needs what it asks for itself and what its expressions and the statements in it need. -/
theorem Stmt.contains_needs (s : Stmt) :
    s.needs.contains helper = (s.asksFor helper || (s.values.any (fun e => e.needs.contains helper) ||
      s.parts.any fun part => part.needs.contains helper)) := by
  cases s with
  | function decl => simp only [needs, asksFor, values, Stmt.parts, contains_functionNeeds, Bool.false_or]
  | classDecl name superclass methods =>
    simp only [needs, asksFor, values, Stmt.parts, Needs.contains_append, contains_optionNeeds, contains_methodsNeeds,
      List.any_append, Bool.false_or, Bool.or_assoc]
  | tryBlock body handler otherwise finalizer =>
    simp only [needs, asksFor, values, Stmt.parts, Needs.contains_append, contains_blockNeeds, contains_handlerNeeds,
      contains_bodyNeeds, List.any_append, List.any_nil, Bool.false_or, Bool.or_assoc]
  | branch condition body elifs otherwise =>
    simp only [needs, asksFor, values, Stmt.parts, Needs.contains_append, contains_blockNeeds, contains_casesNeeds,
      contains_bodyNeeds, List.any_append, List.any_cons, Bool.false_or]
    ac_rfl
  | switch value cases default =>
    simp only [needs, asksFor, values, Stmt.parts, Needs.contains_append, contains_casesNeeds, contains_bodyNeeds,
      List.any_append, List.any_cons, Bool.false_or, Bool.or_assoc]
  | _ => simp [needs, asksFor, values, Stmt.parts, contains_optionNeeds, contains_blockNeeds, Bool.or_assoc]

/-- A statement asks for a helper itself or in one of its expressions. -/
def Stmt.Asks (s : Stmt) : Prop :=
  s.asksFor helper = true ∨ ∃ value ∈ s.values, ∃ node ∈ nodes value, node.asksFor helper = true

/-- A statement needs the helpers that the statements in it ask for. -/
theorem Stmt.contains_needs_iff {s : Stmt}
    (h : ∀ node ∈ nodes s, ∀ value ∈ node.values, ∀ e ∈ nodes value, e.stopsSlice = true) :
    s.needs.contains helper = true ↔ ∃ node ∈ nodes s, node.Asks helper := by
  induction s using Branching.induction with
  | step s ih =>
    obtain ⟨hown, hparts⟩ := Branching.forall_nodes.1 h
    rw [s.contains_needs helper, Bool.or_eq_true, Bool.or_eq_true, List.any_eq_true, List.any_eq_true,
      Branching.exists_nodes, Stmt.Asks, or_assoc]
    apply or_congr_right
    apply or_congr
    · apply exists_congr
      intro value
      apply and_congr_right
      intro hvalue
      exact value.contains_needs_iff helper (hown value hvalue)
    · apply exists_congr
      intro part
      apply and_congr_right
      intro hpart
      exact ih part hpart (hparts part hpart)

end

/-! ## Programs -/

namespace Program

/-- What makes a program use a helper: a membership test, a loop, a call of the bare name `range`, or an equality of
two expressions that are no literals, anywhere in the program. -/
def Uses (body : List Stmt) : Helper → Prop
  | .membership => ∃ left right, Expr.binary .member left right ∈ expressions body
  | .iterable => ∃ name iterable inside, Stmt.forLoop name iterable inside ∈ statements body
  | .range => ∃ line arguments, Expr.call (.variable ⟨"range", line⟩) arguments ∈ expressions body
  | .deepEquals => ∃ op left right, (op = .equal ∨ op = .notEqual) ∧ left.isLiteral = false ∧
      right.isLiteral = false ∧ Expr.binary op left right ∈ expressions body

theorem uses_iff {body : List Stmt} {helper : Helper} :
    Uses body helper ↔ (∃ s ∈ statements body, s.asksFor helper = true) ∨
      ∃ e ∈ expressions body, e.asksFor helper = true := by
  cases helper with
  | membership => grind [Uses, Expr.asksFor_membership, Stmt.asksFor_iff]
  | iterable => grind [Uses, Expr.asksFor_iterable, Stmt.asksFor_iff]
  | range => grind [Uses, Expr.asksFor_range, Stmt.asksFor_iff]
  | deepEquals => grind [Uses, Expr.asksFor_deepEquals, Stmt.asksFor_iff]

/-- A program needs the helpers that it uses. -/
theorem contains_blockNeeds_iff {body : List Stmt} (h : ∀ e ∈ expressions body, e.stopsSlice = true)
    {helper : Helper} : (blockNeeds body).contains helper = true ↔ Uses body helper := by
  have hneeds : ∀ s ∈ body, s.needs.contains helper = true ↔ ∃ node ∈ nodes s, node.Asks helper := by
    intro s hs
    apply Stmt.contains_needs_iff
    intro node hnode value hvalue e he
    exact h e (mem_expressions.2 ⟨s, hs, node, hnode, value, hvalue, he⟩)
  rw [contains_blockNeeds, List.any_eq_true, uses_iff]
  simp only [mem_expressions, mem_statements]
  grind [Stmt.Asks]

/-- Between the pragma and the statements stand the helpers that the program uses, once each and in a fixed order,
and no others. -/
theorem script_eq_helpers (program : Program) (h : ∀ e ∈ expressions program, e.stopsSlice = true) :
    ∃ helpers : List Helper,
      script program = (if (splitDirective program).1 = some .unstrict then "" else pragma) ++
        String.join (helpers.map Helper.text) ++ Script.blockText 0 (lowerBlock 0 (splitDirective program).2) ∧
      helpers.Sublist [.membership, .iterable, .range, .deepEquals] ∧
      ∀ helper, helper ∈ helpers ↔ Uses (splitDirective program).2 helper := by
  have hbody : ∀ e ∈ expressions (splitDirective program).2, e.stopsSlice = true := by
    intro e he
    obtain ⟨s, hs, hinside⟩ := mem_expressions.1 he
    exact h e (mem_expressions.2 ⟨s, (body_sublist program).subset hs, hinside⟩)
  refine ⟨Helper.all.filter (blockNeeds (splitDirective program).2).contains, rfl, List.filter_sublist, ?_⟩
  intro helper
  have hall : helper ∈ Helper.all := by cases helper <;> decide
  rw [List.mem_filter, and_iff_right hall]
  exact contains_blockNeeds_iff hbody

/-- An upper bound of a slice inside the default value of a parameter calls `range`, and a test of a case compares
two variables. -/
theorem script_eq_helpers_nested :
    let a : Expr := .variable ⟨"a", 1⟩
    let range : Expr := .call (.variable ⟨"range", 1⟩) [a]
    let program : Program :=
      [.function ⟨⟨"f", 1⟩, [⟨⟨"x", 1⟩, .standard, some (.subscript a none true (some range)), none⟩],
        [.switch a [(.binary .equal a a, [])] none], false, false⟩]
    (∀ e ∈ expressions program, e.stopsSlice = true) ∧ Uses program .range ∧ Uses program .deepEquals ∧
      ∃ helpers : List Helper,
        script program = (if (splitDirective program).1 = some .unstrict then "" else pragma) ++
          String.join (helpers.map Helper.text) ++ Script.blockText 0 (lowerBlock 0 (splitDirective program).2) ∧
        helpers.Sublist [.membership, .iterable, .range, .deepEquals] ∧
        ∀ helper, helper ∈ helpers ↔ Uses (splitDirective program).2 helper := by
  intro a range program
  have hexpressions : expressions program = [.subscript a none true (some range), a, range, .variable ⟨"range", 1⟩, a,
      a, .binary .equal a a, a, a] := by
    simp [program, expressions, statements, nodes, parts, Stmt.parts, Stmt.values, Expr.parts, a, range]
  have hstops : ∀ e ∈ expressions program, e.stopsSlice = true := by
    simp [hexpressions, Expr.stopsSlice, a, range]
  refine ⟨hstops, ⟨1, [a], ?_⟩, ⟨.equal, a, a, ?_⟩, script_eq_helpers program hstops⟩
  · simp [hexpressions, range]
  · simp [hexpressions, a, Expr.isLiteral]

end Program

end Offside
