import Offside.Proofs.Grammar.StatementConduct

/-!
# Precedence

Every form of expression asks for levels of its operands.  The table of these levels is stated for a single node, and
whatever the tokens are and whichever faults are recorded, every node of a parsed program keeps to it.
-/

namespace Offside

/-- The operands of an expression, each with the loosest level that it may have.  What stands in brackets, behind a
colon or behind the sign of an assignment may have any level and is left out. -/
def Expr.operands : Expr → List (Nat × Expr)
  | .logical op left right => [(op.operandLevels.1, left), (op.operandLevels.2, right)]
  | .binary op left right => [(op.operandLevels.1, left), (op.operandLevels.2, right)]
  | .ternary condition yes no => (6, condition) :: (6, yes) :: no.toList.map (6, ·)
  | .unary _ operand | .updateBefore _ operand => [(14, operand)]
  | .worded op operand => [(op.operandLevel, operand)]
  | .call object _ | .get object _ | .subscript object _ _ _ | .updateAfter _ object => [(16, object)]
  | .set object _ _ | .assignSubscript object _ _ _ _ => [(16, object)]
  | .lambda params _ _ => (params.filterMap Param.default).map (14, ·)
  | .assign .. | .grouping _ | .literal _ | .array _ | .dictionary _ | .variable _ => []

/-- The expressions in a statement for which a level is asked: the defaults of parameters and superclasses. -/
def Stmt.operands : Stmt → List (Nat × Expr)
  | .function decl => (decl.params.filterMap Param.default).map (14, ·)
  | .classDecl _ superclass methods =>
    superclass.toList.map (16, ·) ++ methods.flatMap fun decl => (decl.params.filterMap Param.default).map (14, ·)
  | _ => []

namespace Grammar

variable {source : List Token} {quiet : Prop} {params : List (Param Expr)} {operand : Nat × Expr}

theorem le_level_of_mem_defaults (h : ∀ p ∈ params, ∀ e ∈ p.default, 14 ≤ e.level)
    (hoperand : operand ∈ (params.filterMap Param.default).map (14, ·)) : operand.1 ≤ operand.2.level := by
  obtain ⟨e, he, rfl⟩ := List.mem_map.1 hoperand
  obtain ⟨p, hp, hdefault⟩ := List.mem_filterMap.1 he
  exact h p hp e hdefault

theorem Derives.le_level {e : Expr} (h : Derives source quiet e)
    (hoperand : operand ∈ e.operands) : operand.1 ≤ operand.2.level := by
  cases h with
  | lambda hnamed hlevels hdefaults hbody => exact le_level_of_mem_defaults hlevels hoperand
  | _ =>
    simp only [Expr.operands] at hoperand
    grind

theorem ParamsDerive.le_level (h : ParamsDerive source quiet params)
    (hoperand : operand ∈ (params.filterMap Param.default).map (14, ·)) : operand.1 ≤ operand.2.level :=
  le_level_of_mem_defaults (fun p hp e he => (h.default p hp e he).level_le) hoperand

theorem StmtDerives.le_level {s : Stmt} (h : StmtDerives source quiet s)
    (hoperand : operand ∈ s.operands) : operand.1 ≤ operand.2.level := by
  cases h with
  | function hhead hbody => exact hhead.params.le_level hoperand
  | classDecl hname hsuperclass hheads hbodies =>
    simp only [Stmt.operands, List.mem_append, List.mem_map, Option.mem_toList, List.mem_flatMap] at hoperand
    rcases hoperand with ⟨e, he, rfl⟩ | ⟨decl, hdecl, hdefault⟩
    · exact (hsuperclass e he).level_le
    · exact (hheads decl hdecl).params.le_level (List.mem_map.2 hdefault)
  | _ => cases hoperand

/-- Every operand in a parsed program has at least the level that its place asks for. -/
theorem Parse.le_level_ofTokens (tokens : List Token) :
    (∀ e ∈ Program.expressions (ofTokens tokens).program, ∀ operand ∈ e.operands, operand.1 ≤ operand.2.level) ∧
      ∀ s ∈ Program.statements (ofTokens tokens).program, ∀ operand ∈ s.operands, operand.1 ≤ operand.2.level := by
  have hprogram := stmtDerives_ofTokens tokens
  constructor
  · intro e he operand hoperand
    exact (derives_of_mem_expressions hprogram he).le_level hoperand
  · intro s hs operand hoperand
    exact (stmtDerives_of_mem_statements hprogram hs).le_level hoperand

end Grammar

end Offside
