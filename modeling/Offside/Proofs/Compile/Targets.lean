import Offside.Proofs.Compile.Renderings

/-!
# Targets

What JavaScript increments or assigns to is a name, a member or an element, and a member access, a subscript, a call
or `new` goes with an expression that holds together.  The script of a program keeps to this except in two kinds of
place: a slice that is incremented becomes a call, and an increment behind its target gets no parentheses where
something is accessed in it.
-/

namespace Offside

open Branching (nodes)
open Grammar (Derives)
open JavaScript (isObject isTarget)
open Script (root parenIf zero lengthOf)

/-- Whether what stands at the root of a tree can be applied to what stands below it. -/
def Script.Expr.isApplied : Script.Expr → Bool
  | .updateAfter _ target | .updateBefore _ target | .assign target _ => isTarget target
  | .member target _ | .index target _ | .call target _ | .worded .new target => isObject target
  | _ => true

theorem isApplied_of_isInert {t : Script.Expr} (h : t.isInert = true) : t.isApplied = true := by
  cases t with
  | member | index => exact h
  | call | assign | updateAfter | updateBefore | worded => cases h
  | _ => rfl

namespace Expr

def isSlice : Expr → Bool
  | .subscript _ _ colon _ => colon
  | _ => false

/-- An access in an object if it is written but cannot be applied to the object. -/
def misaccessed (object : Expr) (access : Script.Expr → Script.Expr) : List Script.Expr :=
  if object.isAccessed then [] else [access object.lower]

/-- The nodes that are written for an expression and cannot be applied to what they stand at. -/
def misapplied : Expr → List Script.Expr
  | .updateAfter op target => if target.isSlice then [.updateAfter op target.lower] else []
  | .updateBefore op target => if target.isSlice then [.updateBefore op target.lower] else []
  | .get object name | .set object name _ => object.misaccessed fun target => .member target name.text
  | .call callee arguments => callee.misaccessed fun target => .call target (arguments.map lower)
  | .subscript object start false _ | .assignSubscript object start false _ _ =>
    object.misaccessed fun target => .index target ((lower? start).getD zero)
  | .subscript object _ true stop =>
    (object.misaccessed fun target => .member target "slice") ++
      if stop.isNone then object.misaccessed lengthOf else []
  | .assignSubscript object _ true stop _ => if stop.isNone then object.misaccessed lengthOf else []
  | .worded .new operand => operand.misaccessed (.worded .new)
  | _ => []

theorem isObject_object_eq (e : Expr) : isObject (parenIf e.isLooseObject e.lower) = e.isAccessed := by
  cases e with
  | updateAfter op target => simp [isLooseObject, isCompound, parenIf, lower, isObject, JavaScript.rank, isAccessed]
  | _ => exact isObject_object rfl

theorem isTarget_lower_eq {e : Expr} (h : e.isUpdatable = true) : isTarget e.lower = !e.isSlice := by
  cases e with
  | «variable» | get => rfl
  | subscript object start colon stop => cases colon <;> simp [lower, isTarget, isSlice]
  | _ => simp [isUpdatable] at h

end Expr

/-! ## What is written for expressions -/

theorem root_of_isApplied {t : Script.Expr} (h : t.isApplied = true) : root (fun t => !t.isApplied) t = 0 := by
  simp [root, h]

/-- A use of a node that is sound exactly if the node is an object. -/
structure IsAccess (access : Script.Expr → Script.Expr) : Prop where
  isApplied_eq : ∀ t, (access t).isApplied = isObject t

theorem root_access (object : Expr) (access : Script.Expr → Script.Expr) (h : IsAccess access) :
    root (fun t => !t.isApplied) (access (parenIf object.isLooseObject object.lower)) =
      object.misaccessed access := by
  have happlied := h.isApplied_eq (parenIf object.isLooseObject object.lower)
  rw [Expr.isObject_object_eq] at happlied
  cases haccessed : object.isAccessed with
  | true => simp [root, Expr.misaccessed, happlied, haccessed]
  | false =>
    have hbare : parenIf object.isLooseObject object.lower = object.lower := by
      cases object with
      | updateAfter op target => rfl
      | _ => cases haccessed
    rw [hbare] at happlied ⊢
    simp [root, Expr.misaccessed, happlied, haccessed]

theorem paramFrame_isApplied (params : List (Param Expr)) : paramFrame (fun t => !t.isApplied) params = 0 := by
  apply List.sum_eq_zero
  intro ts hts
  obtain ⟨assignment, hassignment, rfl⟩ := List.mem_map.1 hts
  obtain ⟨param, -, hcast⟩ := List.mem_filterMap.1 hassignment
  obtain ⟨cast, -, rfl⟩ := Option.map_eq_some_iff.1 hcast
  exact root_of_isApplied rfl

theorem frame_isApplied {source : List Token} {e : Expr} (h : Derives source True e) :
    e.frame (fun t => !t.isApplied) = e.misapplied := by
  cases h with
  | @set object value name =>
    simp only [Expr.frame, Expr.misapplied, root_access object (fun t => .member t name.text) ⟨fun t => rfl⟩]
    rw [root_of_isApplied rfl, zero_add]
  | @assignSubscript object value start stop colon =>
    cases colon with
    | true =>
      simp only [Expr.frame, Expr.misapplied, root_access object lengthOf ⟨fun t => rfl⟩]
      rw [root_of_isApplied rfl, root_of_isApplied rfl, zero_add, zero_add]
      cases stop <;> rfl
    | false =>
      rw [Expr.frame, root_of_isApplied rfl, zero_add]
      exact root_access object (fun t => .index t _) ⟨fun t => rfl⟩
  | @subscript object start stop colon =>
    cases colon with
    | true =>
      simp only [Expr.frame, Expr.misapplied, root_access object lengthOf ⟨fun t => rfl⟩,
        root_access object (fun t => .member t "slice") ⟨fun t => rfl⟩]
      rw [root_of_isApplied rfl, zero_add]
      cases stop <;> rfl
    | false => exact root_access object (fun t => .index t _) ⟨fun t => rfl⟩
  | @worded op operand =>
    cases op with
    | new => exact root_access operand (.worded .new) ⟨fun t => rfl⟩
    | _ => exact root_of_isApplied rfl
  | @get object name => exact root_access object (fun t => .member t name.text) ⟨fun t => rfl⟩
  | @call callee arguments =>
    rw [Expr.misapplied, ← lowerList_eq_map]
    exact root_access callee (fun t => .call t (lowerList arguments)) ⟨fun t => rfl⟩
  | @updateBefore op target _ _ htarget | @updateAfter op target _ _ htarget =>
    have hslice : isTarget target.lower = !target.isSlice := Expr.isTarget_lower_eq (htarget trivial)
    cases h : target.isSlice <;>
      simp [Expr.frame, Expr.misapplied, Expr.lower, root, Script.Expr.isApplied, hslice, h]
  | @binary op left right =>
    cases op with
    | equal | notEqual =>
      cases hdeep : Expr.isDeep left right <;>
        simp [Expr.frame, Expr.lower, Expr.misapplied, hdeep, root, Script.Expr.isApplied, Script.callHelper,
          isObject, JavaScript.rank]
    | _ => exact root_of_isApplied rfl
  | @lambda params => exact paramFrame_isApplied params
  | _ => exact root_of_isApplied rfl

theorem stmtFrame_isApplied (s : Stmt) : s.frame (fun t => !t.isApplied) = 0 := by
  cases s with
  | function decl => exact paramFrame_isApplied decl.params
  | classDecl name superclass methods => simp [Stmt.frame, paramFrame_isApplied]
  | forLoop name iterable body => exact root_of_isApplied rfl
  | _ => rfl

/-! ## Sources that compile -/

namespace Program

variable {source js : String}

theorem filter_isApplied_of_compile (h : compile source = .ok js) :
    ((Script.expressions (lowered (ofSource source))).filter fun t => !t.isApplied : Multiset Script.Expr) =
      ((places (ofSource source)).map fun place => 2 ^ place.1 • (place.2.misapplied : Multiset Script.Expr)).sum := by
  have hselective : IsSelective fun t => !t.isApplied := by
    constructor
    intro t ht
    rw [isApplied_of_isInert ht]
    rfl
  have hstatements : (statements (ofSource source)).map (Stmt.frame fun t => !t.isApplied) =
      (statements (ofSource source)).map fun _ => 0 :=
    List.map_congr_left fun s _ => stmtFrame_isApplied s
  have hplaces : ∀ place ∈ places (ofSource source),
      2 ^ place.1 • place.2.frame (fun t => !t.isApplied) =
        2 ^ place.1 • (place.2.misapplied : Multiset Script.Expr) := by
    intro place hplace
    rw [frame_isApplied (derives_of_compile h _ (mem_expressions_of_mem_places hplace))]
  rw [filter_expressions_of_compile hselective h, hstatements, List.sum_map_zero, zero_add, List.map_congr_left hplaces]

theorem mem_sum_places {f : Expr → List Script.Expr} {body : List Stmt} {t : Script.Expr} :
    t ∈ ((places body).map fun place => 2 ^ place.1 • (f place.2 : Multiset Script.Expr)).sum ↔
      ∃ e ∈ expressions body, t ∈ f e := by
  rw [← map_snd_places]
  induction places body with
  | nil => simp
  | cons place rest ih => simp [ih, Multiset.mem_nsmul]

end Program

end Offside
