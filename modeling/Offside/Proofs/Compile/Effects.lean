import Mathlib.Algebra.Order.BigOperators.Group.List
import Offside.Proofs.Compile.Renderings

/-!
# Effects

How often what a program does is written in its script.  A call, a `new`, an `await`, a `delete`, an assignment or an
increment of the program is written once, except that it is written again for each place around it that is written
twice.  Beside these the script has only the calls that stand for operators, slices, casts and loops.
-/

namespace Offside

open Script (root parenIf callHelper)

/-- Whether evaluating a tree does something by itself, what it does in its parts apart. -/
def Script.Expr.isEffect : Script.Expr → Bool
  | .call .. | .assign .. | .updateAfter .. | .updateBefore .. | .worded .new _ | .worded .await _
  | .worded .delete _ => true
  | _ => false

theorem isEffect_of_isInert {t : Script.Expr} (h : t.isInert = true) : t.isEffect = false := by
  cases t with
  | call | assign | updateAfter | updateBefore | worded => cases h
  | _ => rfl

/-- The calls that pass arguments through the functions named with them. -/
def casts (params : List (Param Expr)) : List Script.Expr := (params.filterMap castOf).map Prod.snd

namespace Expr

/-- Whether evaluating an expression does something by itself, what it does in its parts apart. -/
def isEffect : Expr → Bool
  | .call .. | .assign .. | .set .. | .assignSubscript .. | .updateAfter .. | .updateBefore .. | .worded .new _
  | .worded .await _ | .worded .delete _ => true
  | _ => false

/-- The calls that are written for an expression that calls nothing itself, and those that an assignment to a slice
makes on the way. -/
def scaffold : Expr → List Script.Expr
  | .binary .floorDiv left right => [(binary .floorDiv left right).lower]
  | .binary .member left right => [callHelper .membership [left.lower, right.lower]]
  | .binary .equal left right | .binary .notEqual left right =>
    if isDeep left right then [callHelper .deepEquals [left.lower, right.lower]] else []
  | .lambda params _ _ => casts params
  | .subscript object start true stop => [(subscript object start true stop).lower]
  | .assignSubscript object start true stop value =>
    let (first, count) := replaced (parenIf object.isLooseObject object.lower) start stop
    [.call (.member (.array [first, count]) "concat") [value.lower]]
  | _ => []

/-- What an expression is written as, if it does something by itself. -/
def effect (e : Expr) : List Script.Expr := if e.isEffect then [e.lower] else []

end Expr

/-- The calls that are written for a statement, beside those of its expressions. -/
def Stmt.scaffold : Stmt → List Script.Expr
  | .function decl => casts decl.params
  | .classDecl _ _ methods => methods.flatMap fun decl => casts decl.params
  | .forLoop _ iterable _ => [callHelper .iterable [iterable.lower]]
  | _ => []

/-! ## What is written for expressions and statements -/

theorem root_of_isEffect {t : Script.Expr} (h : t.isEffect = true) : root Script.Expr.isEffect t = {t} := by
  simp [root, h]

theorem paramFrame_isEffect (params : List (Param Expr)) : paramFrame Script.Expr.isEffect params = casts params := by
  have hcast : ∀ assignment ∈ params.filterMap castOf, root Script.Expr.isEffect assignment.2 = {assignment.2} := by
    intro assignment hassignment
    obtain ⟨param, -, hcast⟩ := List.mem_filterMap.1 hassignment
    obtain ⟨cast, -, rfl⟩ := Option.map_eq_some_iff.1 hcast
    exact root_of_isEffect rfl
  rw [paramFrame, casts, List.map_congr_left hcast]
  induction params.filterMap castOf with
  | nil => rfl
  | cons assignment rest ih =>
    rw [List.map_cons, List.sum_cons, ih]
    rfl

theorem frame_isEffect (e : Expr) : e.frame Script.Expr.isEffect = e.effect + e.scaffold := by
  cases e with
  | lambda params body isAsync =>
    rw [Expr.frame, paramFrame_isEffect]
    exact (zero_add _).symm
  | binary op left right =>
    cases op with
    | equal | notEqual =>
      cases hdeep : Expr.isDeep left right <;>
        simp [Expr.frame, Expr.lower, Expr.effect, Expr.isEffect, Expr.scaffold, hdeep, root,
          Script.Expr.isEffect, callHelper]
    | _ => rfl
  | subscript object start colon stop =>
    cases colon with
    | true => cases stop <;> rfl
    | false => rfl
  | assignSubscript object start colon stop value =>
    cases colon with
    | true => cases start <;> cases stop <;> rfl
    | false => rfl
  | worded op operand => cases op <;> rfl
  | _ => rfl

theorem stmtFrame_isEffect (s : Stmt) : s.frame Script.Expr.isEffect = s.scaffold := by
  cases s with
  | function decl => exact paramFrame_isEffect decl.params
  | classDecl name superclass methods =>
    simp only [Stmt.frame, Stmt.scaffold, paramFrame_isEffect]
    induction methods with
    | nil => rfl
    | cons decl methods ih =>
      rw [List.map_cons, List.sum_cons, List.flatMap_cons, ← Multiset.coe_add, ih]
  | forLoop name iterable body => exact root_of_isEffect rfl
  | _ => rfl

/-! ## Sources that compile -/

namespace Program

variable {β : Type}

/-- The calls that are written for a program and are not calls of the program itself. -/
def scaffold (program : Program) : Multiset Script.Expr :=
  ((places program).map fun place => 2 ^ place.1 • (place.2.scaffold : Multiset Script.Expr)).sum +
    ((statements program).map fun s => (s.scaffold : Multiset Script.Expr)).sum

theorem sum_effect_places (program : Program) :
    ((places program).map fun place => (place.2.effect : Multiset Script.Expr)).sum =
      ((expressions program).flatMap Expr.effect : List Script.Expr) := by
  rw [← map_snd_places]
  induction places program with
  | nil => rfl
  | cons place rest ih =>
    rw [List.map_cons, List.sum_cons, ih, List.map_cons, List.flatMap_cons, Multiset.coe_add]

theorem le_doubled (depth : Nat) (bs : Multiset β) : bs ≤ 2 ^ depth • bs := by
  calc
    bs = 1 • bs := (one_nsmul bs).symm
    _ ≤ 2 ^ depth • bs := nsmul_le_nsmul_left (Multiset.zero_le bs) Nat.one_le_two_pow

theorem eq_doubled_iff {depth : Nat} {bs : List β} :
    (bs : Multiset β) = 2 ^ depth • (bs : Multiset β) ↔ bs ≠ [] → depth = 0 := by
  constructor
  · intro h hbs
    have hcard : bs.length = 2 ^ depth * bs.length := by simpa using congrArg Multiset.card h
    have hpositive : 0 < bs.length := List.length_pos_iff.2 hbs
    have hone : 2 ^ depth = 1 := Nat.eq_of_mul_eq_mul_right hpositive (by omega)
    exact (Nat.pow_eq_one.1 hone).resolve_left (by decide)
  · intro h
    cases bs with
    | nil => simp
    | cons b bs => rw [h (List.cons_ne_nil b bs), pow_zero, one_nsmul]

/-- Doubling makes no part of a sum smaller, so the sum is left as it was only if nothing in it is doubled. -/
theorem sum_eq_sum_doubled_iff {α : Type} (f : α → List β) (places : List (Nat × α)) :
    (places.map fun place => (f place.2 : Multiset β)).sum =
        (places.map fun place => 2 ^ place.1 • (f place.2 : Multiset β)).sum ↔
      ∀ place ∈ places, f place.2 ≠ [] → place.1 = 0 := by
  induction places with
  | nil => simp
  | cons place rest ih =>
    have hrest : (rest.map fun place => (f place.2 : Multiset β)).sum ≤
        (rest.map fun place => 2 ^ place.1 • (f place.2 : Multiset β)).sum :=
      List.sum_le_sum fun place _ => le_doubled place.1 _
    rw [List.map_cons, List.map_cons, List.sum_cons, List.sum_cons,
      add_eq_add_iff_eq_and_eq (le_doubled place.1 _) hrest, eq_doubled_iff, ih, List.forall_mem_cons]

variable {source js : String}

/-- The effects of the script of a source that compiles are those of the program, each written once and again for each
place around it that is written twice, and the calls that stand for other things.  So each effect is written once
exactly if none stands in such a place. -/
theorem effects_of_compile (h : compile source = .ok js) :
    js = preamble (ofSource source) ++ Script.blockText 0 (lowered (ofSource source)) ∧
      ((Script.expressions (lowered (ofSource source))).filter Script.Expr.isEffect : Multiset Script.Expr) =
        ((places (ofSource source)).map fun place => 2 ^ place.1 • (place.2.effect : Multiset Script.Expr)).sum +
          scaffold (ofSource source) ∧
      (((Script.expressions (lowered (ofSource source))).filter Script.Expr.isEffect : Multiset Script.Expr) =
          ((expressions (ofSource source)).flatMap Expr.effect : List Script.Expr) + scaffold (ofSource source) ↔
        ∀ place ∈ places (ofSource source), place.2.isEffect = true → place.1 = 0) := by
  have hstatements : Stmt.frame Script.Expr.isEffect = fun s => (s.scaffold : Multiset Script.Expr) :=
    funext stmtFrame_isEffect
  have heffects :
      ((Script.expressions (lowered (ofSource source))).filter Script.Expr.isEffect : Multiset Script.Expr) =
        ((places (ofSource source)).map fun place => 2 ^ place.1 • (place.2.effect : Multiset Script.Expr)).sum +
          scaffold (ofSource source) := by
    rw [filter_expressions_of_compile ⟨fun t => isEffect_of_isInert⟩ h, hstatements, scaffold]
    simp only [frame_isEffect, nsmul_add, List.sum_map_add]
    ac_rfl
  have hnil : ∀ e : Expr, e.effect ≠ [] ↔ e.isEffect = true := by
    intro e
    cases he : e.isEffect <;> simp [Expr.effect, he]
  refine ⟨(compile_eq_ok_iff.1 h).2.2, heffects, ?_⟩
  rw [heffects, add_left_inj, ← sum_effect_places, eq_comm, sum_eq_sum_doubled_iff]
  simp only [hnil]

/-- A slice of a slice writes the call that it starts from four times. -/
theorem effects_of_compile_nested :
    let source := "y = f()[1:][2:];\n"
    compile source =
        .ok "\"use strict\";\ny = f().slice(1, f().length).slice(2, f().slice(1, f().length).length);\n" ∧
      (places (ofSource source)).filterMap (fun place => if place.2.isEffect then some place.1 else none) = [0, 2] ∧
      ((Script.expressions (lowered (ofSource source))).filter Script.Expr.isEffect : Multiset Script.Expr) =
        ((places (ofSource source)).map fun place => 2 ^ place.1 • (place.2.effect : Multiset Script.Expr)).sum +
          scaffold (ofSource source) := by
  intro source
  have h : compile source =
      .ok "\"use strict\";\ny = f().slice(1, f().length).slice(2, f().slice(1, f().length).length);\n" :=
    compile_eq_ok_of_toOption (by decide +kernel)
  exact ⟨h, by decide +kernel, (effects_of_compile h).2.1⟩

/-- The call stands once in the source and twice in the script. -/
theorem call_in_slice_twice :
    compile "y = f()[1:];\n" = .ok "\"use strict\";\ny = f().slice(1, f().length);\n" ∧
      ((expressions (ofSource "y = f()[1:];\n")).filter Expr.isEffect).map (fun e => e.lower.text) =
        ["y = f().slice(1, f().length)", "f()"] ∧
      (Script.expressions (lowered (ofSource "y = f()[1:];\n"))).countP (fun t => t.text = "f()") = 2 := by
  refine ⟨compile_eq_ok_of_toOption ?_, ?_, ?_⟩ <;> decide +kernel

end Program

end Offside
