import Offside.Compile
import Offside.Proofs.Tree.Lowering

/-!
# Trees with other line numbers

A tree keeps the lines of its names and nothing else of the place where it was written.  `reline` gives these lines
other numbers.  The script of a program does not depend on them.
-/

namespace Offside

/-! ## Renumbering -/

def Ident.reline (g : Nat → Nat) (name : Ident) : Ident := ⟨name.text, g name.line⟩

mutual

/-- An expression whose names are on other lines. -/
def Expr.reline (g : Nat → Nat) : Expr → Expr
  | .assign name value => .assign (name.reline g) (value.reline g)
  | .binary op left right => .binary op (left.reline g) (right.reline g)
  | .ternary condition yes no => .ternary (condition.reline g) (yes.reline g) (relineOption g no)
  | .lambda params body isAsync => .lambda (relineParams g params) (body.reline g) isAsync
  | .call callee arguments => .call (callee.reline g) (relineList g arguments)
  | .get object name => .get (object.reline g) (name.reline g)
  | .set object name value => .set (object.reline g) (name.reline g) (value.reline g)
  | .grouping inner => .grouping (inner.reline g)
  | .literal value => .literal value
  | .array elements => .array (relineList g elements)
  | .dictionary entries => .dictionary (relineEntries g entries)
  | .subscript object start colon stop =>
    .subscript (object.reline g) (relineOption g start) colon (relineOption g stop)
  | .assignSubscript object start colon stop value =>
    .assignSubscript (object.reline g) (relineOption g start) colon (relineOption g stop) (value.reline g)
  | .logical op left right => .logical op (left.reline g) (right.reline g)
  | .unary op operand => .unary op (operand.reline g)
  | .updateAfter op target => .updateAfter op (target.reline g)
  | .updateBefore op target => .updateBefore op (target.reline g)
  | .variable name => .variable (name.reline g)
  | .worded op operand => .worded op (operand.reline g)

def relineList (g : Nat → Nat) : List Expr → List Expr
  | [] => []
  | e :: es => e.reline g :: relineList g es

def relineOption (g : Nat → Nat) : Option Expr → Option Expr
  | none => none
  | some e => some (e.reline g)

def relineEntry (g : Nat → Nat) : Expr × Expr → Expr × Expr
  | (key, value) => (key.reline g, value.reline g)

def relineEntries (g : Nat → Nat) : List (Expr × Expr) → List (Expr × Expr)
  | [] => []
  | e :: es => relineEntry g e :: relineEntries g es

def relineParam (g : Nat → Nat) : Param Expr → Param Expr
  | ⟨name, kind, default, cast⟩ => ⟨name.reline g, kind, relineOption g default, cast.map (Ident.reline g)⟩

def relineParams (g : Nat → Nat) : List (Param Expr) → List (Param Expr)
  | [] => []
  | p :: ps => relineParam g p :: relineParams g ps

end

mutual

/-- A statement whose names are on other lines. -/
def Stmt.reline (g : Nat → Nat) : Stmt → Stmt
  | .expression value => .expression (value.reline g)
  | .raw code => .raw code
  | .function decl => .function (relineFunction g decl)
  | .ret value => .ret (relineOption g value)
  | .throw value => .throw (value.reline g)
  | .yield value => .yield (relineOption g value)
  | .classDecl name superclass methods =>
    .classDecl (name.reline g) (relineOption g superclass) (relineMethods g methods)
  | .block body => .block (relineBlock g body)
  | .whileLoop condition body => .whileLoop (condition.reline g) (relineBlock g body)
  | .doLoop body condition => .doLoop (relineBlock g body) (condition.reline g)
  | .forLoop name iterable body => .forLoop (name.reline g) (iterable.reline g) (relineBlock g body)
  | .tryBlock body handler otherwise finalizer =>
    .tryBlock (relineBlock g body) (relineHandler g handler) (relineBody g otherwise) (relineBody g finalizer)
  | .branch condition body elifs otherwise =>
    .branch (condition.reline g) (relineBlock g body) (relineCases g elifs) (relineBody g otherwise)
  | .switch value cases default => .switch (value.reline g) (relineCases g cases) (relineBody g default)
  | .breakLoop => .breakLoop
  | .continueLoop => .continueLoop
  | .declare binding name init => .declare binding (name.reline g) (relineOption g init)

def relineBlock (g : Nat → Nat) : List Stmt → List Stmt
  | [] => []
  | s :: ss => s.reline g :: relineBlock g ss

def relineFunction (g : Nat → Nat) : Function Stmt → Function Stmt
  | ⟨name, params, body, isAsync, isGenerator⟩ =>
    ⟨name.reline g, relineParams g params, relineBlock g body, isAsync, isGenerator⟩

def relineMethods (g : Nat → Nat) : List (Function Stmt) → List (Function Stmt)
  | [] => []
  | m :: ms => relineFunction g m :: relineMethods g ms

def relineHandler (g : Nat → Nat) : Option (Handler Stmt) → Option (Handler Stmt)
  | none => none
  | some ⟨param, body⟩ => some ⟨param.map (Ident.reline g), relineBlock g body⟩

def relineBody (g : Nat → Nat) : Option (List Stmt) → Option (List Stmt)
  | none => none
  | some body => some (relineBlock g body)

def relineCase (g : Nat → Nat) : Expr × List Stmt → Expr × List Stmt
  | (test, body) => (test.reline g, relineBlock g body)

def relineCases (g : Nat → Nat) : List (Expr × List Stmt) → List (Expr × List Stmt)
  | [] => []
  | c :: cs => relineCase g c :: relineCases g cs

end

theorem Ident.reline_id (name : Ident) : name.reline id = name := rfl

mutual

theorem Expr.reline_id (e : Expr) : e.reline id = e := by
  cases e <;> simp only [Expr.reline, Ident.reline_id, Expr.reline_id, relineOption_id, relineList_id,
    relineEntries_id, relineParams_id]

theorem relineList_id (es : List Expr) : relineList id es = es := by
  cases es <;> simp only [relineList, Expr.reline_id, relineList_id]

theorem relineOption_id (found : Option Expr) : relineOption id found = found := by
  cases found <;> simp only [relineOption, Expr.reline_id]

theorem relineEntries_id (entries : List (Expr × Expr)) : relineEntries id entries = entries := by
  rcases entries with _ | ⟨⟨key, value⟩, entries⟩ <;>
    simp only [relineEntries, relineEntry, Expr.reline_id, relineEntries_id]

theorem relineParams_id (params : List (Param Expr)) : relineParams id params = params := by
  rcases params with _ | ⟨⟨name, kind, default, cast⟩, params⟩
  · rw [relineParams]
  · rw [relineParams, relineParam, Ident.reline_id, relineOption_id default, relineParams_id params]
    cases cast <;> rfl

end

mutual

theorem Stmt.reline_id (s : Stmt) : s.reline id = s := by
  cases s <;> simp only [Stmt.reline, Ident.reline_id, Expr.reline_id, relineOption_id, relineBlock_id,
    relineFunction_id, relineMethods_id, relineHandler_id, relineBody_id, relineCases_id]

theorem relineBlock_id (body : List Stmt) : relineBlock id body = body := by
  cases body <;> simp only [relineBlock, Stmt.reline_id, relineBlock_id]

theorem relineFunction_id (decl : Function Stmt) : relineFunction id decl = decl := by
  cases decl with
  | mk name params body isAsync isGenerator =>
    rw [relineFunction, Ident.reline_id, relineParams_id, relineBlock_id body]

theorem relineMethods_id (methods : List (Function Stmt)) : relineMethods id methods = methods := by
  cases methods <;> simp only [relineMethods, relineFunction_id, relineMethods_id]

theorem relineHandler_id (handler : Option (Handler Stmt)) : relineHandler id handler = handler := by
  rcases handler with _ | ⟨param, body⟩
  · rw [relineHandler]
  · rw [relineHandler, relineBlock_id body]
    cases param <;> rfl

theorem relineBody_id (content : Option (List Stmt)) : relineBody id content = content := by
  cases content <;> simp only [relineBody, relineBlock_id]

theorem relineCases_id (clauses : List (Expr × List Stmt)) : relineCases id clauses = clauses := by
  rcases clauses with _ | ⟨⟨test, body⟩, clauses⟩ <;>
    simp only [relineCases, relineCase, Expr.reline_id, relineBlock_id, relineCases_id]

end

/-! ## Values of parsers -/

/-- Values that may hold lines of the source. -/
class Lined (α : Type) where
  reline : (Nat → Nat) → α → α
  reline_id : ∀ a, reline id a = a

export Lined (reline)

section
variable {α β : Type} [Lined α] [Lined β]

instance : Lined Unit := ⟨fun _ => id, fun _ => rfl⟩

instance : Lined Bool := ⟨fun _ => id, fun _ => rfl⟩

instance : Lined Ident := ⟨Ident.reline, Ident.reline_id⟩

instance : Lined Expr := ⟨Expr.reline, Expr.reline_id⟩

instance : Lined Stmt := ⟨Stmt.reline, Stmt.reline_id⟩

instance : Lined (Option α) where
  reline g := Option.map (reline g)
  reline_id found := by cases found <;> simp [Lined.reline_id]

instance : Lined (List α) where
  reline g := List.map (reline g)
  reline_id found := List.map_id'' Lined.reline_id found

instance : Lined (α × β) where
  reline g pair := (reline g pair.1, reline g pair.2)
  reline_id _ := Prod.ext (Lined.reline_id _) (Lined.reline_id _)

instance : Lined (α ⊕ β) where
  reline g := Sum.map (reline g) (reline g)
  reline_id found := by cases found <;> simp [Lined.reline_id]

instance : Lined (Param α) where
  reline g p := ⟨reline g p.name, p.kind, reline g p.default, reline g p.cast⟩
  reline_id p := by simp [Lined.reline_id]

instance : Lined (Function α) where
  reline g decl := ⟨reline g decl.name, reline g decl.params, reline g decl.body, decl.isAsync, decl.isGenerator⟩
  reline_id decl := by simp [Lined.reline_id]

instance : Lined (Handler α) where
  reline g caught := ⟨reline g caught.param, reline g caught.body⟩
  reline_id caught := by simp [Lined.reline_id]

end

/-! Lists and options of trees are renumbered item by item. -/

section
variable {α β : Type} [Lined α] [Lined β] (g : Nat → Nat)

@[simp] theorem reline_bool (a : Bool) : reline g a = a := rfl

@[simp] theorem reline_ident (name : Ident) : reline g name = name.reline g := rfl

@[simp] theorem reline_expr (e : Expr) : reline g e = e.reline g := rfl

@[simp] theorem reline_stmt (s : Stmt) : reline g s = s.reline g := rfl

@[simp] theorem reline_none : reline g (none : Option α) = none := rfl

@[simp] theorem reline_some (a : α) : reline g (some a) = some (reline g a) := rfl

@[simp] theorem reline_nil : reline g ([] : List α) = [] := rfl

@[simp] theorem reline_cons (a : α) (as : List α) : reline g (a :: as) = reline g a :: reline g as := rfl

@[simp] theorem reline_pair (pair : α × β) : reline g pair = (reline g pair.1, reline g pair.2) := rfl

@[simp] theorem reline_param (p : Param α) :
    reline g p = ⟨reline g p.name, p.kind, reline g p.default, reline g p.cast⟩ := rfl

@[simp] theorem reline_function (decl : Function α) : reline g decl =
      ⟨reline g decl.name, reline g decl.params, reline g decl.body, decl.isAsync, decl.isGenerator⟩ := rfl

theorem reline_getD (found : Option α) (a : α) : reline g (found.getD a) = (reline g found).getD (reline g a) := by
  cases found <;> rfl

@[simp] theorem relineList_eq (es : List Expr) : relineList g es = reline g es := by
  induction es with
  | nil => rw [relineList, reline_nil]
  | cons e es ih => rw [relineList, ih, reline_cons, reline_expr]

@[simp] theorem relineOption_eq (found : Option Expr) : relineOption g found = reline g found := by
  cases found <;> rw [relineOption] <;> rfl

@[simp] theorem relineEntries_eq (entries : List (Expr × Expr)) : relineEntries g entries = reline g entries := by
  induction entries with
  | nil => rw [relineEntries, reline_nil]
  | cons entry entries ih => rw [relineEntries, ih, reline_cons, relineEntry, reline_pair, reline_expr, reline_expr]

@[simp] theorem relineParams_eq (params : List (Param Expr)) : relineParams g params = reline g params := by
  induction params with
  | nil => rw [relineParams, reline_nil]
  | cons p params ih =>
    rw [relineParams, ih, reline_cons, relineParam, relineOption_eq]
    rfl

@[simp] theorem relineBlock_eq (body : List Stmt) : relineBlock g body = reline g body := by
  induction body with
  | nil => rw [relineBlock, reline_nil]
  | cons s body ih => rw [relineBlock, ih, reline_cons, reline_stmt]

@[simp] theorem relineFunction_eq (decl : Function Stmt) : relineFunction g decl = reline g decl := by
  rw [relineFunction, relineParams_eq, relineBlock_eq, reline_function, reline_ident]

@[simp] theorem relineMethods_eq (methods : List (Function Stmt)) : relineMethods g methods = reline g methods := by
  induction methods with
  | nil => rw [relineMethods, reline_nil]
  | cons decl methods ih => rw [relineMethods, ih, reline_cons, relineFunction_eq]

@[simp] theorem relineHandler_eq (handler : Option (Handler Stmt)) : relineHandler g handler = reline g handler := by
  cases handler with
  | none => rw [relineHandler, reline_none]
  | some caught =>
    rw [relineHandler, relineBlock_eq]
    rfl

@[simp] theorem relineBody_eq (content : Option (List Stmt)) : relineBody g content = reline g content := by
  cases content with
  | none => rw [relineBody, reline_none]
  | some body => rw [relineBody, relineBlock_eq, reline_some]

@[simp] theorem relineCases_eq (clauses : List (Expr × List Stmt)) : relineCases g clauses = reline g clauses := by
  induction clauses with
  | nil => rw [relineCases, reline_nil]
  | cons clause clauses ih =>
    rw [relineCases, ih, reline_cons, relineCase, relineBlock_eq, reline_pair, reline_expr]

end

/-! ## The script -/

section
variable (g : Nat → Nat)

theorem Expr.isLiteral_reline (e : Expr) : (e.reline g).isLiteral = e.isLiteral := by
  cases e <;> simp [Expr.reline, Expr.isLiteral]

theorem Expr.isUpdatable_reline (e : Expr) : (e.reline g).isUpdatable = e.isUpdatable := by
  cases e <;> simp [Expr.reline, Expr.isUpdatable]

theorem Expr.isDeep_reline (left right : Expr) : isDeep (left.reline g) (right.reline g) = isDeep left right := by
  simp only [isDeep, isLiteral_reline]

theorem Expr.isCompound_reline (e : Expr) : (e.reline g).isCompound = e.isCompound := by
  cases e <;> simp [Expr.reline, Expr.isCompound, isDeep_reline]

theorem Expr.isLooseObject_reline (e : Expr) : (e.reline g).isLooseObject = e.isLooseObject := by
  cases e with
  | literal value => rw [Expr.reline]
  | _ => rw [isLooseObject, isLooseObject, isCompound_reline] <;> simp [Expr.reline]

theorem Expr.isRange_reline (e : Expr) : (e.reline g).isRange = e.isRange := by
  cases e <;> simp [Expr.reline, Expr.isRange, Ident.reline]

end

/-! A tree is lowered alike with other line numbers, and it asks for the same helpers. -/

mutual

theorem Expr.lower_reline (g : Nat → Nat) (e : Expr) : (e.reline g).lower = e.lower ∧ (e.reline g).needs = e.needs := by
  cases e with
  | assignSubscript object start colon stop value =>
    obtain ⟨hobject, hobject'⟩ := Expr.lower_reline g object
    obtain ⟨hvalue, hvalue'⟩ := Expr.lower_reline g value
    obtain ⟨hstart, -, hstart'⟩ := lower?_reline g start
    obtain ⟨hstop, -, hstop'⟩ := lower?_reline g stop
    refine ⟨?_, by simp only [Expr.reline, Expr.needs, hobject', hstart', hstop', hvalue']⟩
    cases colon with
    | false => simp only [Expr.reline, Expr.lower, hobject, Expr.isLooseObject_reline, hstart, hvalue]
    | true =>
      cases start <;> cases stop <;>
        simp_all [Expr.reline, relineOption, Expr.lower, lower?, Expr.isLooseObject_reline, Expr.isCompound_reline]
  | worded op operand =>
    have hoperand := Expr.lower_reline g operand
    cases op <;> simp only [Expr.reline, Expr.lower, Expr.needs, hoperand, Expr.isCompound_reline,
      Expr.isLooseObject_reline, and_self]
  | _ =>
    simp only [Expr.reline, Expr.lower, Expr.needs, Expr.lower_reline, Ident.reline, Expr.isCompound_reline,
      Expr.isDeep_reline, Expr.isLooseObject_reline, Expr.isRange_reline, lower?_reline, lowerList_reline,
      lowerEntries_reline, lowerParams_reline, and_self]

theorem lowerList_reline (g : Nat → Nat) (es : List Expr) :
    lowerList (relineList g es) = lowerList es ∧ listNeeds (relineList g es) = listNeeds es := by
  cases es <;> simp only [relineList, lowerList, listNeeds, Expr.lower_reline, lowerList_reline, and_self]

theorem lower?_reline (g : Nat → Nat) (found : Option Expr) : lower? (relineOption g found) = lower? found ∧
    lowerOperand? (relineOption g found) = lowerOperand? found ∧ optionNeeds (relineOption g found) = optionNeeds found := by
  cases found <;> simp only [relineOption, lower?, lowerOperand?, optionNeeds, Expr.lower_reline, Expr.isCompound_reline,
    and_self]

theorem lowerEntries_reline (g : Nat → Nat) (entries : List (Expr × Expr)) :
    lowerEntries (relineEntries g entries) = lowerEntries entries ∧
      entriesNeeds (relineEntries g entries) = entriesNeeds entries := by
  rcases entries with _ | ⟨⟨key, value⟩, entries⟩ <;> simp only [relineEntries, relineEntry, lowerEntries, lowerEntry,
    entriesNeeds, entryNeeds, Expr.lower_reline, lowerEntries_reline, and_self]

theorem lowerParams_reline (g : Nat → Nat) (params : List (Param Expr)) :
    lowerParams (relineParams g params) = lowerParams params ∧
      lowerDefaults (relineParams g params) = lowerDefaults params ∧
        lowerCasts (relineParams g params) = lowerCasts params ∧ paramsNeeds (relineParams g params) = paramsNeeds params := by
  rcases params with _ | ⟨⟨name, kind, default, cast⟩, params⟩
  · simp only [relineParams, and_self]
  · cases kind <;> cases cast <;> simp only [relineParams, relineParam, lowerParams, lowerParam, lowerDefaults, lowerDefault,
      lowerCasts, paramsNeeds, paramNeeds, Ident.reline, lower?_reline, lowerParams_reline, Option.map, and_self]

end

theorem isSome_relineBody (g : Nat → Nat) (content : Option (List Stmt)) :
    (relineBody g content).isSome = content.isSome := by
  cases content <;> rw [relineBody] <;> rfl

mutual

theorem Stmt.lower_reline (g : Nat → Nat) (s : Stmt) : (s.reline g).labels = s.labels ∧
    (∀ label, (s.reline g).lower label = s.lower label) ∧ (s.reline g).needs = s.needs := by
  cases s with
  | classDecl name superclass methods =>
    cases superclass <;> simp only [Stmt.reline, Stmt.labels, Stmt.lower, Stmt.needs, Ident.reline, relineOption,
      optionNeeds, Option.map, Expr.lower_reline, Expr.isLooseObject_reline, lowerMethods_reline, implies_true, and_self]
  | _ =>
    simp only [Stmt.reline, Stmt.labels, Stmt.lower, Stmt.needs, Ident.reline, Expr.lower_reline, lower?_reline,
      isSome_relineBody, lowerBlock_reline, lowerFunction_reline, lowerHandler_reline, lowerOption_reline,
      lowerCases_reline, implies_true, and_self]

theorem lowerBlock_reline (g : Nat → Nat) (body : List Stmt) : blockLabels (relineBlock g body) = blockLabels body ∧
    (∀ label, lowerBlock label (relineBlock g body) = lowerBlock label body) ∧
      blockNeeds (relineBlock g body) = blockNeeds body := by
  cases body <;> simp only [relineBlock, blockLabels, lowerBlock, blockNeeds, Stmt.lower_reline, lowerBlock_reline,
    implies_true, and_self]

theorem lowerFunction_reline (g : Nat → Nat) (decl : Function Stmt) :
    functionLabels (relineFunction g decl) = functionLabels decl ∧
      (∀ label, lowerFunction label (relineFunction g decl) = lowerFunction label decl) ∧
        functionNeeds (relineFunction g decl) = functionNeeds decl := by
  cases decl
  simp only [relineFunction, functionLabels, lowerFunction, functionNeeds, Ident.reline, prologueStatements, prologue,
    lowerParams_reline, lowerBlock_reline, implies_true, and_self]

theorem lowerMethods_reline (g : Nat → Nat) (methods : List (Function Stmt)) :
    methodsLabels (relineMethods g methods) = methodsLabels methods ∧
      (∀ label, lowerMethods label (relineMethods g methods) = lowerMethods label methods) ∧
        methodsNeeds (relineMethods g methods) = methodsNeeds methods := by
  cases methods <;> simp only [relineMethods, methodsLabels, lowerMethods, methodsNeeds, lowerFunction_reline,
    lowerMethods_reline, implies_true, and_self]

theorem lowerHandler_reline (g : Nat → Nat) (handler : Option (Handler Stmt)) :
    handlerLabels (relineHandler g handler) = handlerLabels handler ∧
      (∀ label, lowerHandler label (relineHandler g handler) = lowerHandler label handler) ∧
        handlerNeeds (relineHandler g handler) = handlerNeeds handler := by
  rcases handler with _ | ⟨_ | param, body⟩ <;> simp only [relineHandler, handlerLabels, lowerHandler, handlerNeeds,
    Ident.reline, Option.map, lowerBlock_reline, implies_true, and_self]

theorem lowerOption_reline (g : Nat → Nat) (content : Option (List Stmt)) :
    optionLabels (relineBody g content) = optionLabels content ∧
      (∀ label, lowerOption label (relineBody g content) = lowerOption label content) ∧
        bodyNeeds (relineBody g content) = bodyNeeds content := by
  cases content <;> simp only [relineBody, optionLabels, lowerOption, bodyNeeds, lowerBlock_reline, implies_true, and_self]

theorem lowerCases_reline (g : Nat → Nat) (clauses : List (Expr × List Stmt)) :
    casesLabels (relineCases g clauses) = casesLabels clauses ∧
      (∀ label, lowerCases label (relineCases g clauses) = lowerCases label clauses) ∧
        casesNeeds (relineCases g clauses) = casesNeeds clauses := by
  rcases clauses with _ | ⟨⟨test, body⟩, clauses⟩ <;> simp only [relineCases, relineCase, casesLabels, caseLabels,
    lowerCases, lowerCase, casesNeeds, caseNeeds, Expr.lower_reline, lowerBlock_reline, lowerCases_reline, implies_true,
    and_self]

end

theorem Program.directive?_reline (g : Nat → Nat) (s : Stmt) : directive? (s.reline g) = directive? s := by
  cases s with
  | expression value => cases value <;> rw [Stmt.reline, Expr.reline] <;> rfl
  | raw | breakLoop | continueLoop => rw [Stmt.reline]
  | _ => rw [Stmt.reline]; rfl

theorem Program.splitDirective_reline (g : Nat → Nat) (program : Program) : splitDirective (relineBlock g program) =
      ((splitDirective program).1, relineBlock g (splitDirective program).2) := by
  cases program with
  | nil => rfl
  | cons first rest =>
    simp only [relineBlock, splitDirective, directive?_reline]
    cases directive? first <;> simp only [relineBlock]

/-- The script of a program does not tell on which lines its names were. -/
theorem Program.script_reline (g : Nat → Nat) (program : Program) :
    Program.script (relineBlock g program) = Program.script program := by
  simp only [script, splitDirective_reline, lowerBlock_reline]

end Offside
