import Offside.Script.Basic

/-!
# The parts of a tree

A tree is put together from parts, which are smaller trees of the same kind, and its nodes are the tree itself and
the nodes of its parts, in the order of the parts.  What holds of every node is shown from each tree to its parts, and
what holds of every tree from its parts to the tree.  Expressions and statements are such trees, before and behind
the lowering.
-/

namespace Offside

/-! ## Lists of trees -/

section Lists

variable {α β : Type} {g : List α → List β} (hnil : g [] = [])

include hnil

/-- A function that takes a list apart maps it. -/
theorem eq_map_of_cons {f : α → β} (hcons : ∀ a as, g (a :: as) = f a :: g as) (as : List α) : g as = as.map f := by
  induction as with
  | nil => exact hnil
  | cons a as ih => rw [hcons, ih, List.map_cons]

theorem eq_flatMap_of_cons {f : α → List β} (hcons : ∀ a as, g (a :: as) = f a ++ g as) (as : List α) :
    g as = as.flatMap f := by
  induction as with
  | nil => exact hnil
  | cons a as ih => rw [hcons, ih, List.flatMap_cons]

end Lists

/-! ## Parts and nodes -/

/-- Trees with parts that are smaller than the tree. -/
class Branching (α : Type) [SizeOf α] where
  parts : α → List α
  sizeOf_lt : ∀ {a part : α}, part ∈ parts a → sizeOf part < sizeOf a

namespace Branching

variable {α : Type} [SizeOf α] [Branching α]

/-- A tree and all that stands in it, outer before inner. -/
def nodes (a : α) : List α := a :: (parts a).flatMap nodes
termination_by sizeOf a
decreasing_by exact sizeOf_lt ‹_›

theorem nodes_eq (a : α) : nodes a = a :: (parts a).flatMap nodes := by
  rw [nodes]

theorem mem_nodes_self (a : α) : a ∈ nodes a := by
  rw [nodes_eq]
  exact List.mem_cons_self

theorem mem_nodes {a node : α} : node ∈ nodes a ↔ node = a ∨ ∃ part ∈ parts a, node ∈ nodes part := by
  rw [nodes_eq, List.mem_cons, List.mem_flatMap]

/-- What holds of all nodes of a tree holds of the tree and of all nodes of its parts. -/
theorem forall_nodes {P : α → Prop} {a : α} :
    (∀ node ∈ nodes a, P node) ↔ P a ∧ ∀ part ∈ parts a, ∀ node ∈ nodes part, P node := by
  rw [nodes_eq, List.forall_mem_cons, List.forall_mem_flatMap]

theorem exists_nodes {P : α → Prop} {a : α} :
    (∃ node ∈ nodes a, P node) ↔ P a ∨ ∃ part ∈ parts a, ∃ node ∈ nodes part, P node := by
  constructor
  · intro h
    obtain ⟨node, hnode, hP⟩ := h
    cases mem_nodes.1 hnode with
    | inl heq => exact Or.inl (heq ▸ hP)
    | inr hinside =>
      obtain ⟨part, hpart, hnode⟩ := hinside
      exact Or.inr ⟨part, hpart, node, hnode, hP⟩
  · intro h
    cases h with
    | inl hP => exact ⟨a, mem_nodes_self a, hP⟩
    | inr hinside =>
      obtain ⟨part, hpart, node, hnode, hP⟩ := hinside
      exact ⟨node, mem_nodes.2 (Or.inr ⟨part, hpart, hnode⟩), hP⟩

/-- What holds of a tree if it holds of its parts holds of every tree. -/
theorem induction {P : α → Prop} (step : ∀ a, (∀ part ∈ parts a, P part) → P a) (a : α) : P a := by
  apply step
  intro part hpart
  exact induction step part
termination_by sizeOf a
decreasing_by exact sizeOf_lt hpart

/-- What a tree hands to its parts it hands to all its nodes. -/
theorem forall_nodes_of {P : α → Prop} (step : ∀ a, P a → ∀ part ∈ parts a, P part) {a : α} (h : P a) :
    ∀ node ∈ nodes a, P node := by
  induction a using induction with
  | step a ih =>
    exact forall_nodes.2 ⟨h, fun part hpart => ih part hpart (step a h part hpart)⟩

end Branching

open Branching (nodes parts)

theorem mem_getD_nil {α : Type} {found : Option (List α)} {a : α} : a ∈ found.getD [] ↔ ∃ as ∈ found, a ∈ as := by
  cases found <;> simp

/-! ## Sizes of what stands in a list -/

section
variable {α β : Type} [SizeOf α] [SizeOf β]

theorem sizeOf_lt_of_mem_toList {found : Option α} {a : α} (h : a ∈ found.toList) : sizeOf a < sizeOf found := by
  rw [Option.mem_toList.1 h]
  simp

theorem sizeOf_default_lt {p : Param α} {a : α} (h : p.default = some a) : sizeOf a < sizeOf p := by
  obtain ⟨name, kind, default, cast⟩ := p
  cases h
  simp
  omega

theorem sizeOf_fst_lt {pairs : List (α × β)} {pair : α × β} (h : pair ∈ pairs) : sizeOf pair.1 < sizeOf pairs := by
  have hpair := List.sizeOf_lt_of_mem h
  have hsize : sizeOf pair = 1 + sizeOf pair.1 + sizeOf pair.2 := rfl
  omega

theorem sizeOf_snd_lt {pairs : List (α × β)} {pair : α × β} (h : pair ∈ pairs) : sizeOf pair.2 < sizeOf pairs := by
  have hpair := List.sizeOf_lt_of_mem h
  have hsize : sizeOf pair = 1 + sizeOf pair.1 + sizeOf pair.2 := rfl
  omega

theorem sizeOf_lt_of_mem_defaults {params : List (Param α)} {a : α} (h : a ∈ params.filterMap Param.default) :
    sizeOf a < sizeOf params := by
  obtain ⟨p, hp, hdefault⟩ := List.mem_filterMap.1 h
  exact Nat.lt_trans (sizeOf_default_lt hdefault) (List.sizeOf_lt_of_mem hp)

theorem sizeOf_lt_of_mem_getD {found : Option (List α)} {a : α} (h : a ∈ found.getD []) : sizeOf a < sizeOf found := by
  cases found with
  | none => cases h
  | some as =>
    have ha : sizeOf a < sizeOf as := List.sizeOf_lt_of_mem h
    grind

theorem sizeOf_lt_of_mem_entries {entries : List (α × α)} {a : α}
    (h : a ∈ entries.flatMap fun entry => [entry.1, entry.2]) : sizeOf a < sizeOf entries := by
  obtain ⟨entry, hentry, ha⟩ := List.mem_flatMap.1 h
  have hkey := sizeOf_fst_lt hentry
  have hvalue := sizeOf_snd_lt hentry
  grind

theorem sizeOf_lt_of_mem_bodies {pairs : List (β × List α)} {a : α} (h : a ∈ pairs.flatMap Prod.snd) :
    sizeOf a < sizeOf pairs := by
  obtain ⟨pair, hpair, ha⟩ := List.mem_flatMap.1 h
  exact Nat.lt_trans (List.sizeOf_lt_of_mem ha) (sizeOf_snd_lt hpair)

theorem sizeOf_lt_of_mem_flatMap {owners : List β} {body : β → List α} (hbody : ∀ b, sizeOf (body b) < sizeOf b) {a : α}
    (h : a ∈ owners.flatMap body) : sizeOf a < sizeOf owners := by
  obtain ⟨b, hb, ha⟩ := List.mem_flatMap.1 h
  exact Nat.lt_trans (List.sizeOf_lt_of_mem ha) (Nat.lt_trans (hbody b) (List.sizeOf_lt_of_mem hb))

theorem sizeOf_lt_of_mem_flatMap_toList {owner : Option β} {body : β → List α} (hbody : ∀ b, sizeOf (body b) < sizeOf b)
    {a : α} (h : a ∈ owner.toList.flatMap body) : sizeOf a < sizeOf owner := by
  obtain ⟨b, hb, ha⟩ := List.mem_flatMap.1 h
  exact Nat.lt_trans (List.sizeOf_lt_of_mem ha) (Nat.lt_trans (hbody b) (sizeOf_lt_of_mem_toList hb))

end

/-! ## Expressions -/

namespace Expr

/-- The expressions that an expression is put together from, in the order of the source. -/
def parts : Expr → List Expr
  | .assign _ value => [value]
  | .binary _ left right | .logical _ left right => [left, right]
  | .ternary condition yes no => condition :: yes :: no.toList
  | .lambda params body _ => params.filterMap Param.default ++ [body]
  | .call callee arguments => callee :: arguments
  | .get object _ => [object]
  | .set object _ value => [object, value]
  | .grouping inner => [inner]
  | .literal _ | .variable _ => []
  | .array elements => elements
  | .dictionary entries => entries.flatMap fun entry => [entry.1, entry.2]
  | .subscript object start _ stop => object :: (start.toList ++ stop.toList)
  | .assignSubscript object start _ stop value => object :: (start.toList ++ stop.toList ++ [value])
  | .unary _ operand | .worded _ operand | .updateAfter _ operand | .updateBefore _ operand => [operand]

theorem sizeOf_lt_of_mem_parts {e part : Expr} (h : part ∈ e.parts) : sizeOf part < sizeOf e := by
  cases e <;> grind [parts, → List.sizeOf_lt_of_mem, → sizeOf_lt_of_mem_toList, → sizeOf_lt_of_mem_defaults,
    → sizeOf_lt_of_mem_entries]

instance : Branching Expr where
  parts := parts
  sizeOf_lt := sizeOf_lt_of_mem_parts

/-- A subscript has an end only if it is a slice. -/
def stopsSlice : Expr → Bool
  | .subscript _ _ colon stop | .assignSubscript _ _ colon stop _ => colon || stop.isNone
  | _ => true

end Expr

/-! ## Statements -/

namespace Stmt

/-- The statements that a statement is put together from, in the order of the source; the default of a switch comes
behind its cases. -/
def parts : Stmt → List Stmt
  | .function decl => decl.body
  | .classDecl _ _ methods => methods.flatMap Function.body
  | .block body | .whileLoop _ body | .doLoop body _ | .forLoop _ _ body => body
  | .tryBlock body handler otherwise finalizer =>
    body ++ handler.toList.flatMap Handler.body ++ otherwise.getD [] ++ finalizer.getD []
  | .branch _ body elifs otherwise => body ++ elifs.flatMap Prod.snd ++ otherwise.getD []
  | .switch _ cases default => cases.flatMap Prod.snd ++ default.getD []
  | .expression _ | .raw _ | .ret _ | .throw _ | .yield _ | .breakLoop | .continueLoop | .declare .. => []

/-- The expressions that stand in a statement, but not in a statement inside it. -/
def values : Stmt → List Expr
  | .expression value | .throw value => [value]
  | .function decl => decl.params.filterMap Param.default
  | .ret value | .yield value => value.toList
  | .classDecl _ superclass methods =>
    superclass.toList ++ methods.flatMap fun decl => decl.params.filterMap Param.default
  | .whileLoop condition _ | .doLoop _ condition => [condition]
  | .forLoop _ iterable _ => [iterable]
  | .branch condition _ elifs _ => condition :: elifs.map Prod.fst
  | .switch value cases _ => value :: cases.map Prod.fst
  | .declare _ _ init => init.toList
  | .raw _ | .block _ | .tryBlock .. | .breakLoop | .continueLoop => []

theorem sizeOf_body_lt (decl : Function Stmt) : sizeOf decl.body < sizeOf decl := by
  obtain ⟨name, params, body, isAsync, isGenerator⟩ := decl
  grind

theorem sizeOf_handler_lt (caught : Handler Stmt) : sizeOf caught.body < sizeOf caught := by
  obtain ⟨param, body⟩ := caught
  grind

theorem sizeOf_lt_of_mem_parts {s part : Stmt} (h : part ∈ s.parts) : sizeOf part < sizeOf s := by
  have hmethods := fun methods => @sizeOf_lt_of_mem_flatMap _ _ _ _ methods _ sizeOf_body_lt part
  have hhandler := fun handler => @sizeOf_lt_of_mem_flatMap_toList _ _ _ _ handler _ sizeOf_handler_lt part
  cases s <;> grind [parts, sizeOf_body_lt, → List.sizeOf_lt_of_mem, → sizeOf_lt_of_mem_bodies,
    → sizeOf_lt_of_mem_getD]

instance : Branching Stmt where
  parts := parts
  sizeOf_lt := sizeOf_lt_of_mem_parts

end Stmt

namespace Program

/-- All statements of a program, outer before inner. -/
def statements (body : List Stmt) : List Stmt := body.flatMap nodes

/-- All expressions of a program, outer before inner. -/
def expressions (body : List Stmt) : List Expr :=
  (statements body).flatMap fun s => s.values.flatMap nodes

theorem mem_expressions {body : List Stmt} {e : Expr} :
    e ∈ expressions body ↔ ∃ s ∈ body, ∃ node ∈ nodes s, ∃ value ∈ node.values, e ∈ nodes value := by
  simp only [expressions, statements, List.mem_flatMap]
  grind

theorem mem_statements {body : List Stmt} {s : Stmt} : s ∈ statements body ↔ ∃ outer ∈ body, s ∈ nodes outer :=
  List.mem_flatMap

theorem statements_cons (s : Stmt) (rest : List Stmt) :
    statements (s :: rest) = s :: (statements s.parts ++ statements rest) := by
  rw [statements, List.flatMap_cons, Branching.nodes_eq]
  rfl

/-- Induction over a body, which goes into the first statement and behind it. -/
theorem body_induction {P : List Stmt → Prop} (nil : P []) (cons : ∀ s rest, P s.parts → P rest → P (s :: rest))
    (body : List Stmt) : P body := by
  have hlist : ∀ body : List Stmt, (∀ s ∈ body, P s.parts) → P body := by
    intro body h
    induction body with
    | nil => exact nil
    | cons s rest ih => exact cons s rest (h s List.mem_cons_self) (ih fun t ht => h t (List.mem_cons_of_mem s ht))
  have hparts : ∀ s : Stmt, P s.parts := Branching.induction fun s ih => hlist s.parts ih
  exact hlist body fun s _ => hparts s

end Program

/-! ## Scripts -/

namespace Script

/-- The default value of a parameter. -/
def Param.default? {ε : Type} : Param ε → Option ε
  | .optional _ default => some default
  | .plain _ | .rest _ => none

theorem sizeOf_lt_of_mem_defaults {params : List (Param Expr)} {t : Expr} (h : t ∈ params.filterMap Param.default?) :
    sizeOf t < sizeOf params := by
  obtain ⟨p, hp, hdefault⟩ := List.mem_filterMap.1 h
  have hparam : sizeOf p < sizeOf params := List.sizeOf_lt_of_mem hp
  cases p with
  | optional name default =>
    cases hdefault
    grind
  | plain | rest => cases hdefault

namespace Expr

/-- The expressions that an expression is put together from, in the order of the text. -/
def parts : Expr → List Expr
  | .name _ | .literal _ => []
  | .paren inner => [inner]
  | .array elements => elements
  | .object entries => entries.flatMap fun entry => [entry.1, entry.2]
  | .member target _ => [target]
  | .index target position => [target, position]
  | .call callee arguments => callee :: arguments
  | .updateAfter _ operand | .updateBefore _ operand | .unary _ operand | .worded _ operand => [operand]
  | .binary _ left right => [left, right]
  | .conditional condition yes no => [condition, yes, no]
  | .assign target value => [target, value]
  | .function _ params prologue result => params.filterMap Param.default? ++ prologue.map Prod.snd ++ [result]

theorem sizeOf_lt_of_mem_assigned {prologue : List (String × Expr)} {t : Expr} (h : t ∈ prologue.map Prod.snd) :
    sizeOf t < sizeOf prologue := by
  obtain ⟨assignment, hassignment, rfl⟩ := List.mem_map.1 h
  exact sizeOf_snd_lt hassignment

theorem sizeOf_lt_of_mem_parts {t part : Expr} (h : part ∈ t.parts) : sizeOf part < sizeOf t := by
  cases t <;> grind [parts, → List.sizeOf_lt_of_mem, → sizeOf_lt_of_mem_entries, → sizeOf_lt_of_mem_defaults,
    → sizeOf_lt_of_mem_assigned]

instance : Branching Expr where
  parts := parts
  sizeOf_lt := sizeOf_lt_of_mem_parts

end Expr

namespace Stmt

/-- The statements that a statement is put together from, in the order of the text. -/
def parts : Stmt → List Stmt
  | .function decl => decl.body
  | .classDecl _ _ methods => methods.flatMap Function.body
  | .block body | .whileLoop _ body | .doLoop body _ | .forIndex _ _ _ body => body
  | .tryBlock body handler finalizer => body ++ handler.toList.flatMap Handler.body ++ finalizer.getD []
  | .branch _ body elifs otherwise => body ++ elifs.flatMap Prod.snd ++ otherwise.getD []
  | .switch _ cases default => cases.flatMap Prod.snd ++ default.getD []
  | .expression _ | .assign .. | .raw _ | .ret _ | .throw _ | .yield _ | .breakLoop | .continueLoop | .declare .. => []

/-- The expressions that stand in a statement, but not in a statement inside it. -/
def values : Stmt → List Expr
  | .expression value | .assign _ value | .throw value => [value]
  | .function decl => decl.params.filterMap Param.default?
  | .ret value | .yield value => value.toList
  | .classDecl _ superclass methods =>
    superclass.toList ++ methods.flatMap fun decl => decl.params.filterMap Param.default?
  | .whileLoop condition _ | .doLoop _ condition => [condition]
  | .forIndex _ _ source _ => [source]
  | .branch condition _ elifs _ => condition :: elifs.map Prod.fst
  | .switch value cases _ => value :: cases.map Prod.fst
  | .declare _ _ init => init.toList
  | .raw _ | .block _ | .tryBlock .. | .breakLoop | .continueLoop => []

theorem sizeOf_body_lt (decl : Function Stmt) : sizeOf decl.body < sizeOf decl := by
  obtain ⟨name, params, body, isAsync, isGenerator⟩ := decl
  grind

theorem sizeOf_handler_lt (caught : Handler Stmt) : sizeOf caught.body < sizeOf caught := by
  obtain ⟨param, body⟩ := caught
  grind

theorem sizeOf_lt_of_mem_parts {s part : Stmt} (h : part ∈ s.parts) : sizeOf part < sizeOf s := by
  have hmethods := fun methods => @sizeOf_lt_of_mem_flatMap _ _ _ _ methods _ sizeOf_body_lt part
  have hhandler := fun handler => @sizeOf_lt_of_mem_flatMap_toList _ _ _ _ handler _ sizeOf_handler_lt part
  cases s <;> grind [parts, sizeOf_body_lt, → List.sizeOf_lt_of_mem, → sizeOf_lt_of_mem_bodies,
    → sizeOf_lt_of_mem_getD]

instance : Branching Stmt where
  parts := parts
  sizeOf_lt := sizeOf_lt_of_mem_parts

end Stmt

/-- All statements of a script, outer before inner. -/
def statements (body : List Stmt) : List Stmt := body.flatMap nodes

/-- All expressions of a script, outer before inner. -/
def expressions (body : List Stmt) : List Expr :=
  (statements body).flatMap fun s => s.values.flatMap nodes

end Script

end Offside
