import Offside.Proofs.Compile.Outcome
import Offside.Proofs.JavaScript.Structure
import Offside.Proofs.Tree.Roots

/-!
# Renderings

Which nodes the script of a program has.  Each expression of the program adds some of its own, and the script of each
of its parts stands in it once or, in a slice without an upper bound or in an assignment to a slice, twice.  So the
nodes of a script are those that the expressions of the program add, doubled for each such place around them.
-/

namespace Offside

open Branching (nodes)
open JavaScript (isObject)
open Script (collect root parenIf zero lengthOf callHelper splice)

/-! ## Doubled places -/

namespace Expr

/-- The parts of an expression, each with `1` if its script is written twice and with `0` else.  The object of a slice
without an upper bound is written again to say how long it is, and the lower bound of a slice that is assigned to is
written again to say how many elements are replaced. -/
def slots : Expr → List (Nat × Expr)
  | .subscript object start true none => (1, object) :: start.toList.map fun e => (0, e)
  | .assignSubscript object start true stop value =>
    (if stop.isNone then 1 else 0, object) ::
      (start.toList.map (fun e => (1, e)) ++ stop.toList.map (fun e => (0, e)) ++ [(0, value)])
  | e => e.parts.map fun part => (0, part)

theorem map_snd_slots (e : Expr) : e.slots.map Prod.snd = e.parts := by
  unfold slots
  split <;> simp [parts, Function.comp_def]

theorem mem_parts_of_mem_slots {e : Expr} {slot : Nat × Expr} (h : slot ∈ e.slots) : slot.2 ∈ e.parts := by
  rw [← map_snd_slots]
  exact List.mem_map_of_mem h

/-- An expression and all that stand in it, outer before inner, each with the number of places around it that are
written twice. -/
def places (depth : Nat) (e : Expr) : List (Nat × Expr) :=
  (depth, e) :: e.slots.attach.flatMap fun slot => places (depth + slot.1.1) slot.1.2
termination_by sizeOf e
decreasing_by exact sizeOf_lt_of_mem_parts (mem_parts_of_mem_slots slot.2)

theorem places_eq (depth : Nat) (e : Expr) :
    places depth e = (depth, e) :: e.slots.flatMap fun slot => places (depth + slot.1) slot.2 := by
  have hattach : e.slots.attach.map Subtype.val = e.slots := List.attach_map_subtype_val e.slots
  calc
    places depth e =
        (depth, e) :: (e.slots.attach.map Subtype.val).flatMap fun slot => places (depth + slot.1) slot.2 := by
      rw [places, List.flatMap_map]
    _ = _ := by rw [hattach]

theorem map_snd_places (e : Expr) (depth : Nat) : (places depth e).map Prod.snd = nodes e := by
  induction e using Branching.induction generalizing depth with
  | step e ih =>
    have hslots : ∀ slot ∈ e.slots, (places (depth + slot.1) slot.2).map Prod.snd = nodes slot.2 := by
      intro slot hslot
      apply ih
      exact mem_parts_of_mem_slots hslot
    have hparts : Branching.parts e = e.slots.map Prod.snd := (map_snd_slots e).symm
    rw [places_eq, Branching.nodes_eq, List.map_cons, List.map_flatMap, hparts, List.flatMap_map]
    congr 1
    exact List.flatMap_congr hslots

end Expr

theorem sum_map_flatMap {α β M : Type} [AddCommMonoid M] (f : α → List β) (g : β → M) (as : List α) :
    ((as.flatMap f).map g).sum = (as.map fun a => ((f a).map g).sum).sum := by
  simp [List.flatMap_def, List.sum_flatten, List.map_flatten, Function.comp_def]

/-! ## What an expression adds -/

/-- The nodes that do nothing when they are evaluated and go with whatever they are put together from. -/
def Script.Expr.isInert : Script.Expr → Bool
  | .call .. | .assign .. | .updateAfter .. | .updateBefore .. | .worded .. => false
  | .member target _ | .index target _ => isObject target
  | _ => true

/-- A choice of nodes that takes no inert one. -/
structure IsSelective (p : Script.Expr → Bool) : Prop where
  inert : ∀ t : Script.Expr, t.isInert = true → p t = false

/-- Where a slice that is assigned to starts, and how many elements it has. -/
def replaced (target : Script.Expr) : Option Expr → Option Expr → Script.Expr × Script.Expr
  | some start, some stop =>
    let first := parenIf start.isCompound start.lower
    (first, .binary .sub (parenIf stop.isCompound stop.lower) first)
  | none, some stop => (zero, stop.lower)
  | some start, none =>
    let first := parenIf start.isCompound start.lower
    (first, .binary .sub (lengthOf target) first)
  | none, none => (zero, lengthOf target)

theorem lower_sliceAssignment (object value : Expr) (start stop : Option Expr) :
    (Expr.assignSubscript object start true stop value).lower =
      let target := parenIf object.isLooseObject object.lower
      splice target (replaced target start stop).1 (replaced target start stop).2 value.lower := by
  cases start <;> cases stop <;> simp [Expr.lower, replaced]

/-- The casts of parameters are calls. -/
def paramFrame (p : Script.Expr → Bool) (params : List (Param Expr)) : Multiset Script.Expr :=
  ((params.filterMap castOf).map fun assignment => root p assignment.2).sum

/-- The nodes that an expression adds to those of its parts. -/
def Expr.frame (p : Script.Expr → Bool) : Expr → Multiset Script.Expr
  | .set object name value =>
    let access : Script.Expr := .member (parenIf object.isLooseObject object.lower) name.text
    root p (.assign access value.lower) + root p access
  | .binary .notEqual left right =>
    if isDeep left right then root p (callHelper .deepEquals [left.lower, right.lower]) else 0
  | .lambda params _ _ => paramFrame p params
  | .subscript object start true stop =>
    let target := parenIf object.isLooseObject object.lower
    root p (Expr.subscript object start true stop).lower + root p (.member target "slice") +
      if stop.isNone then root p (lengthOf target) else 0
  | .assignSubscript object start false _ value =>
    let access : Script.Expr := .index (parenIf object.isLooseObject object.lower) ((lower? start).getD zero)
    root p (.assign access value.lower) + root p access
  | .assignSubscript object start true stop value =>
    let target := parenIf object.isLooseObject object.lower
    let (first, count) := replaced target start stop
    root p (splice target first count value.lower) +
      root p (.call (.member (.array [first, count]) "concat") [value.lower]) +
      if stop.isNone then root p (lengthOf target) else 0
  | e => root p e.lower

section
variable {p : Script.Expr → Bool} (hp : IsSelective p)

include hp

theorem root_of_isInert {t : Script.Expr} (h : t.isInert = true) : root p t = 0 := by
  simp [root, hp.inert t h]

theorem collect_of_isInert {t : Script.Expr} (h : t.isInert = true) : collect p t = (t.parts.map (collect p)).sum := by
  rw [Script.collect_eq, root_of_isInert hp h, zero_add]

theorem collect_name_eq_zero (text : String) : collect p (.name text) = 0 := collect_of_isInert hp rfl

theorem collect_zero : collect p zero = 0 := collect_of_isInert hp rfl

theorem collect_parenIf (needed : Bool) (t : Script.Expr) : collect p (parenIf needed t) = collect p t := by
  cases needed with
  | false => rfl
  | true =>
    rw [parenIf, if_pos rfl, collect_of_isInert hp rfl]
    exact List.sum_singleton

theorem collect_operator (op : Script.Operator) (left right : Script.Expr) :
    collect p (.binary op left right) = collect p left + collect p right := by
  rw [collect_of_isInert hp rfl]
  exact List.sum_pair

theorem collect_elements (elements : List Script.Expr) : collect p (.array elements) = (elements.map (collect p)).sum :=
  collect_of_isInert hp rfl

theorem collect_memberOf {target : Script.Expr} (htarget : isObject target = true) (name : String) :
    collect p (.member target name) = collect p target := by
  have hinert : (Script.Expr.member target name).isInert = true := htarget
  rw [collect_of_isInert hp hinert]
  exact List.sum_singleton

theorem collect_callHelper (helper : Script.Helper) (arguments : List Script.Expr) :
    collect p (callHelper helper arguments) =
      root p (callHelper helper arguments) + (arguments.map (collect p)).sum := by
  rw [callHelper, Script.collect_call, collect_name_eq_zero hp, zero_add]

theorem collect_splice (target first count value : Script.Expr) : collect p (splice target first count value) =
    root p (splice target first count value) +
      root p (.call (.member (.array [first, count]) "concat") [value]) +
        (collect p target + (collect p first + collect p count) + collect p value) := by
  have hmethod : collect p (.member (.member (.array []) "splice") "apply") = 0 := by
    rw [collect_memberOf hp rfl, collect_memberOf hp rfl]
    exact collect_elements hp []
  have hbounds : collect p (.member (.array [first, count]) "concat") = collect p first + collect p count := by
    rw [collect_memberOf hp rfl, collect_elements hp]
    exact List.sum_pair
  simp only [splice, Script.collect_call, hmethod, hbounds, List.map_cons, List.map_nil, List.sum_cons, List.sum_nil,
    add_zero, zero_add]
  ac_rfl

/-! ### Parameters -/

theorem collect_lowerDefault (name : Ident) (default : Expr) (cast : Option Ident) :
    ((lowerDefault ⟨name, .wildcard, some default, cast⟩).toList.map fun assignment => collect p assignment.2).sum =
      collect p default.lower := by
  have hlength : collect p (lengthOf (.name name.text)) = 0 := by
    rw [lengthOf, collect_memberOf hp rfl, collect_name_eq_zero hp]
  simp only [lowerDefault, lowerOperand?, Option.map_some, Option.toList_some, List.map_cons, List.map_nil]
  rw [collect_of_isInert hp rfl]
  simp [Script.Expr.parts, collect_operator hp, collect_zero hp, collect_name_eq_zero hp, collect_parenIf hp, hlength,
    -Script.collect_binary, -Script.collect_name]

theorem sum_collect_defaults (params : List (Param Expr)) :
    (((lowerParams params).filterMap Script.Param.default?).map (collect p)).sum +
      ((lowerDefaults params).map fun assignment => collect p assignment.2).sum =
        ((params.filterMap Param.default).map fun e => collect p e.lower).sum := by
  induction params with
  | nil => rfl
  | cons param params ih =>
    obtain ⟨name, kind, default, cast⟩ := param
    simp only [lowerParams, lowerDefaults, List.filterMap_cons, List.map_append, List.sum_append]
    cases default with
    | none =>
      cases kind <;> simpa [lowerParam, lower?, lowerDefault, lowerOperand?, Script.Param.default?] using ih
    | some default =>
      cases kind with
      | standard => simp [lowerParam, lower?, lowerDefault, Script.Param.default?, ← ih, add_assoc]
      | wildcard =>
        rw [collect_lowerDefault hp]
        simp [lowerParam, Script.Param.default?, ← ih, add_left_comm]

theorem sum_collect_casts (params : List (Param Expr)) :
    ((lowerCasts params).map fun assignment => collect p assignment.2).sum = paramFrame p params := by
  rw [lowerCasts_eq_filterMap, paramFrame]
  congr 1
  apply List.map_congr_left
  intro assignment hassignment
  obtain ⟨param, -, hcast⟩ := List.mem_filterMap.1 hassignment
  obtain ⟨cast, -, rfl⟩ := Option.map_eq_some_iff.1 hcast
  simp [collect_name_eq_zero hp]

/-! ### Expressions -/

theorem collect_lower_binary (op : BinaryOp) (left right : Expr) : collect p (Expr.binary op left right).lower =
    (Expr.binary op left right).frame p + (collect p left.lower + collect p right.lower) := by
  have hoperator : ∀ op l r, collect p (.binary op (parenIf l left.lower) (parenIf r right.lower)) =
      collect p left.lower + collect p right.lower := by
    intro op l r
    rw [collect_operator hp, collect_parenIf hp, collect_parenIf hp]
  have hroot : ∀ op l r, root p (.binary op l r) = 0 := fun op l r => root_of_isInert hp rfl
  have hfloor : collect p (.member (.name "Math") "floor") = 0 := by
    rw [collect_memberOf hp rfl, collect_name_eq_zero hp]
  have hnot : ∀ t, collect p (.unary .not t) = collect p t := by
    intro t
    rw [collect_of_isInert hp rfl]
    exact List.sum_singleton
  cases op with
  | equal | notEqual =>
    cases hdeep : Expr.isDeep left right <;>
      simp [Expr.lower, Expr.frame, hdeep, hoperator, hroot, hnot, collect_callHelper hp, -Script.collect_binary,
        -Script.collect_unary]
  | _ =>
    simp [Expr.lower, Expr.frame, hoperator, hroot, hfloor, collect_callHelper hp, -Script.collect_binary,
      -Script.collect_member]

theorem collect_lower_lambda (params : List (Param Expr)) (body : Expr) (isAsync : Bool) :
    collect p (Expr.lambda params body isAsync).lower = paramFrame p params +
      (((params.filterMap Param.default).map fun e => collect p e.lower).sum + collect p body.lower) := by
  rw [Expr.lower, collect_of_isInert hp rfl, ← sum_collect_casts hp, ← sum_collect_defaults hp]
  simp only [Script.Expr.parts, List.map_append, List.map_map, List.sum_append, List.map_cons, List.map_nil,
    List.sum_cons, List.sum_nil, add_zero, Function.comp_def]
  ac_rfl

theorem collect_first (start : Option Expr) :
    collect p ((lower? start).getD zero) = (start.toList.map fun e => collect p e.lower).sum := by
  cases start with
  | none => exact collect_zero hp
  | some e => exact List.sum_singleton.symm

theorem collect_lower_slice (object : Expr) (start stop : Option Expr) : let e := Expr.subscript object start true stop
    collect p e.lower = e.frame p + (e.slots.map fun slot => 2 ^ slot.1 • collect p slot.2.lower).sum := by
  cases stop with
  | none =>
    simp [Expr.lower, Expr.frame, Expr.slots, collect_parenIf hp, collect_first hp, one_nsmul, two_nsmul, lower?,
      lengthOf, Function.comp_def]
    ac_rfl
  | some stop =>
    simp [Expr.lower, Expr.frame, Expr.slots, Expr.parts, collect_parenIf hp, collect_first hp, one_nsmul, lower?,
      Function.comp_def]
    ac_rfl

theorem collect_replaced (target : Script.Expr) (start stop : Option Expr) :
    collect p (replaced target start stop).1 + collect p (replaced target start stop).2 =
      (start.toList.map fun e => 2 • collect p e.lower).sum + (stop.toList.map fun e => collect p e.lower).sum +
        if stop.isNone then root p (lengthOf target) + collect p target else 0 := by
  have hlength : collect p (lengthOf target) = root p (lengthOf target) + collect p target :=
    Script.collect_member target _
  match start, stop with
  | none, none | none, some stop => simp [replaced, collect_zero hp, hlength]
  | some start, none | some start, some stop =>
    simp [replaced, collect_operator hp, collect_parenIf hp, two_nsmul, hlength, -Script.collect_binary]
    ac_rfl

theorem collect_lower_sliceAssignment (object value : Expr) (start stop : Option Expr) :
    let e := Expr.assignSubscript object start true stop value
    collect p e.lower = e.frame p + (e.slots.map fun slot => 2 ^ slot.1 • collect p slot.2.lower).sum := by
  simp only [lower_sliceAssignment, collect_splice hp, collect_replaced hp]
  cases stop <;>
  · simp [Expr.frame, Expr.slots, collect_parenIf hp, one_nsmul, two_nsmul, Function.comp_def]
    ac_rfl

/-- One step of the lowering: an expression adds its own nodes to those of its parts. -/
theorem collect_lower {e : Expr} (h : e.stopsSlice = true) :
    collect p e.lower = e.frame p + (e.slots.map fun slot => 2 ^ slot.1 • collect p slot.2.lower).sum := by
  cases e with
  | binary op left right =>
    rw [collect_lower_binary hp]
    simp [Expr.slots, Expr.parts, one_nsmul]
  | lambda params body isAsync =>
    rw [collect_lower_lambda hp]
    simp [Expr.frame, Expr.slots, Expr.parts, one_nsmul, Function.comp_def]
  | subscript object start colon stop =>
    cases colon with
    | true => exact collect_lower_slice hp object start stop
    | false =>
      obtain rfl : stop = none := by simpa [Expr.stopsSlice] using h
      simp [Expr.lower, Expr.frame, Expr.slots, Expr.parts, collect_parenIf hp, collect_first hp, one_nsmul,
        Function.comp_def]
  | assignSubscript object start colon stop value =>
    cases colon with
    | true => exact collect_lower_sliceAssignment hp object value start stop
    | false =>
      obtain rfl : stop = none := by simpa [Expr.stopsSlice] using h
      simp [Expr.lower, Expr.frame, Expr.slots, Expr.parts, collect_parenIf hp, collect_first hp, one_nsmul,
        Function.comp_def, add_assoc]
  | dictionary entries =>
    rw [Expr.lower, Script.collect_eq]
    simp [Expr.lower, Expr.frame, Expr.slots, Expr.parts, Script.Expr.parts, lowerEntries_eq_map, one_nsmul,
      List.flatMap_map, List.map_flatMap]
  | ternary condition yes no =>
    have hundefined : collect p (.literal .undefined) = 0 := collect_of_isInert hp rfl
    cases no <;>
      simp [Expr.lower, lowerOperand?, Expr.frame, Expr.slots, Expr.parts, collect_parenIf hp, one_nsmul,
        hundefined, -Script.collect_literal]
  | worded op operand =>
    cases op <;> simp [Expr.lower, Expr.frame, Expr.slots, Expr.parts, collect_parenIf hp, one_nsmul]
  -- a name is no part of anything that is put together, so it is left as it is here
  | «variable» name => simp [Expr.lower, Expr.frame, Expr.slots, Expr.parts]
  | _ =>
    simp [Expr.lower, Expr.frame, Expr.slots, Expr.parts, collect_parenIf hp, collect_name_eq_zero hp,
      lowerList_eq_map, Function.comp_def, one_nsmul, add_assoc]

/-- The nodes of a kind in the script of an expression are those that the expressions in it add. -/
theorem collect_lower_eq_sum_places {e : Expr} (h : ∀ node ∈ nodes e, node.stopsSlice = true) (depth : Nat) :
    2 ^ depth • collect p e.lower = ((e.places depth).map fun place => 2 ^ place.1 • place.2.frame p).sum := by
  induction e using Branching.induction generalizing depth with
  | step e ih =>
    have hslots : ∀ slot ∈ e.slots, 2 ^ depth • 2 ^ slot.1 • collect p slot.2.lower =
        ((slot.2.places (depth + slot.1)).map fun place => 2 ^ place.1 • place.2.frame p).sum := by
      intro slot hslot
      have hpart : slot.2 ∈ e.parts := Expr.mem_parts_of_mem_slots hslot
      -- what is written twice in a place that is written twice is one place deeper
      rw [← mul_nsmul', ← pow_add]
      exact ih slot.2 hpart (fun node hnode => h node (Branching.mem_nodes.2 (.inr ⟨slot.2, hpart, hnode⟩))) _
    have hself : e.stopsSlice = true := h e (Branching.mem_nodes_self e)
    have hsum := map_list_sum (nsmulAddMonoidHom (2 ^ depth))
      (e.slots.map fun slot => 2 ^ slot.1 • collect p slot.2.lower)
    simp only [nsmulAddMonoidHom_apply, List.map_map, Function.comp_def] at hsum
    rw [collect_lower hp hself, nsmul_add, hsum, Expr.places_eq, List.map_cons, List.sum_cons, sum_map_flatMap]
    congr 2
    exact List.map_congr_left hslots

end

/-! ## What a statement adds -/

/-- The nodes that a statement adds to those of its expressions. -/
def Stmt.frame (p : Script.Expr → Bool) : Stmt → Multiset Script.Expr
  | .function decl => paramFrame p decl.params
  | .classDecl _ _ methods => (methods.map fun decl => paramFrame p decl.params).sum
  | .forLoop _ iterable _ => root p (callHelper .iterable [iterable.lower])
  | _ => 0

section
variable {p : Script.Expr → Bool} (hp : IsSelective p)

include hp

theorem sum_collect_paramRoots (params : List (Param Expr)) : ((paramRoots params).map (collect p)).sum =
    paramFrame p params + ((params.filterMap Param.default).map fun e => collect p e.lower).sum := by
  rw [paramRoots, prologue, ← sum_collect_casts hp, ← sum_collect_defaults hp]
  simp only [Multiset.map_add, Multiset.sum_add, Multiset.map_coe, Multiset.sum_coe, List.map_append, List.sum_append,
    List.map_map, Function.comp_def]
  ac_rfl

theorem sum_collect_methodRoots (methods : List (Function Stmt)) :
    (((methods.map fun decl => paramRoots decl.params).sum).map (collect p)).sum =
      (methods.map fun decl => paramFrame p decl.params).sum +
        ((methods.flatMap fun decl => decl.params.filterMap Param.default).map fun e => collect p e.lower).sum := by
  induction methods with
  | nil => rfl
  | cons decl methods ih =>
    simp only [List.map_cons, List.sum_cons, Multiset.map_add, Multiset.sum_add, sum_collect_paramRoots hp, ih,
      List.flatMap_cons, List.map_append, List.sum_append]
    exact add_add_add_comm _ _ _ _

theorem sum_collect_roots (s : Stmt) (number : Nat) : ((s.roots number).map (collect p)).sum =
    s.frame p + (s.values.map fun value => collect p value.lower).sum := by
  have hname : ∀ text, collect p (.name text) = 0 := collect_name_eq_zero hp
  have hboolean : ∀ value, collect p (.literal (.boolean value)) = 0 := fun value => collect_of_isInert hp rfl
  cases s with
  | function decl => exact sum_collect_paramRoots hp decl.params
  | classDecl name superclass methods =>
    have hmethods := sum_collect_methodRoots hp methods
    cases superclass <;> simp [Stmt.roots, Stmt.frame, Stmt.values, hmethods, collect_parenIf hp, add_left_comm]
  | forLoop name iterable body =>
    have hindex : ∀ array index, collect p (.index (.name array) (.name index)) = 0 := by
      intro array index
      rw [collect_of_isInert hp rfl]
      simp [Script.Expr.parts, hname, -Script.collect_name]
    simp [Stmt.roots, Stmt.frame, Stmt.values, collect_callHelper hp, hindex, -Script.collect_index]
  | tryBlock body handler otherwise finalizer =>
    cases handler <;> cases otherwise <;>
      simp [Stmt.roots, Stmt.frame, Stmt.values, hname, hboolean, -Script.collect_name, -Script.collect_literal]
  | _ => simp [Stmt.roots, Stmt.frame, Stmt.values, Function.comp_def]

end

/-! ## Programs -/

namespace Program

variable {p : Script.Expr → Bool}

/-- All expressions of a program, outer before inner, each with the number of places around it that are written
twice. -/
def places (body : List Stmt) : List (Nat × Expr) :=
  (statements body).flatMap fun s => s.values.flatMap (Expr.places 0)

theorem map_snd_places (body : List Stmt) : (places body).map Prod.snd = expressions body := by
  simp only [places, expressions, List.map_flatMap, Expr.map_snd_places]

theorem mem_expressions_of_mem_places {body : List Stmt} {place : Nat × Expr} (h : place ∈ places body) :
    place.2 ∈ expressions body := by
  rw [← map_snd_places]
  exact List.mem_map_of_mem h

/-- The nodes of a kind in a script are those that the statements and the expressions of the program add. -/
theorem filter_expressions_lowerBlock (hp : IsSelective p) {body : List Stmt}
    (h : ∀ e ∈ expressions body, e.stopsSlice = true) (number : Nat) :
    ((Script.expressions (lowerBlock number body)).filter p : Multiset Script.Expr) =
      ((statements body).map (Stmt.frame p)).sum +
        ((places body).map fun place => 2 ^ place.1 • place.2.frame p).sum := by
  have hvalue : ∀ s ∈ statements body, ∀ value ∈ s.values,
      collect p value.lower = ((value.places 0).map fun place => 2 ^ place.1 • place.2.frame p).sum := by
    intro s hs value hvalue
    have hstops : ∀ node ∈ nodes value, node.stopsSlice = true := by
      intro node hnode
      apply h
      exact List.mem_flatMap.2 ⟨s, hs, List.mem_flatMap.2 ⟨value, hvalue, hnode⟩⟩
    rw [← collect_lower_eq_sum_places hp hstops, pow_zero, one_nsmul]
  have hstatement : ∀ s ∈ statements body, ∀ number, ((s.roots number).map (collect p)).sum =
      s.frame p + ((s.values.flatMap (Expr.places 0)).map fun place => 2 ^ place.1 • place.2.frame p).sum := by
    intro s hs number
    rw [sum_collect_roots hp, sum_map_flatMap]
    congr 2
    exact List.map_congr_left (hvalue s hs)
  rw [Script.filter_expressions, sum_map_roots_lowerBlock body hstatement, List.sum_map_add, places,
    sum_map_flatMap]

theorem sum_frame_body (hp : IsSelective p) (program : Program) :
    ((statements (body program)).map (Stmt.frame p)).sum +
        ((places (body program)).map fun place => 2 ^ place.1 • place.2.frame p).sum =
      ((statements program).map (Stmt.frame p)).sum +
        ((places program).map fun place => 2 ^ place.1 • place.2.frame p).sum := by
  cases eq_body_or_literal program with
  | inl hbody => rw [hbody]
  | inr hdirective =>
    obtain ⟨value, hprogram⟩ := hdirective
    generalize body program = rest at hprogram ⊢
    have hnodes : nodes (Stmt.expression (.literal value)) = [.expression (.literal value)] := Branching.nodes_eq _
    have hstatements : statements program = .expression (.literal value) :: statements rest := by
      rw [hprogram, statements, List.flatMap_cons, hnodes]
      rfl
    have hplace : (Expr.literal value).places 0 = [(0, .literal value)] := Expr.places_eq 0 _
    have hplaces : places program = (0, .literal value) :: places rest := by
      simp [places, hstatements, Stmt.values, hplace]
    have hliteral : (Expr.literal value).frame p = 0 := root_of_isInert hp rfl
    simp [hstatements, hplaces, hliteral, Stmt.frame]

/-- The nodes of a kind in the script of a source that compiles. -/
theorem filter_expressions_of_compile {source js : String}
    (hp : IsSelective p) (h : compile source = .ok js) :
    ((Script.expressions (lowered (ofSource source))).filter p : Multiset Script.Expr) =
      ((statements (ofSource source)).map (Stmt.frame p)).sum +
        ((places (ofSource source)).map fun place => 2 ^ place.1 • place.2.frame p).sum := by
  have hstops : ∀ e ∈ expressions (body (ofSource source)), e.stopsSlice = true := by
    intro e he
    obtain ⟨s, hs, hinside⟩ := mem_expressions.1 he
    have hprogram : e ∈ expressions (ofSource source) := mem_expressions.2 ⟨s, (body_sublist _).subset hs, hinside⟩
    exact (derives_of_compile h e hprogram).stopsSlice
  rw [lowered, filter_expressions_lowerBlock hp hstops, sum_frame_body hp]

end Program

end Offside
