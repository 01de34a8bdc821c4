import Offside.Proofs.JavaScript.Reading
import Offside.Script.Lowering

/-!
# Operator structure

The text of a lowered expression is read by JavaScript with the operator structure of the expression, although the
two languages order their operators differently.  `Expr.shape` says without a parenthesis what an expression
stands for in JavaScript, and `Expr.Written` which expressions have a text there.
-/

namespace Offside

open JavaScript (Letters Tree)

/-! ## What an expression stands for -/

mutual

/-- The tree that an expression stands for. -/
def Expr.shape : Expr → Tree
  | .assign name value => .assign (.name name.text) value.shape
  | .binary op left right =>
    let l := left.shape
    let r := right.shape
    let deepEquals : Tree := .call (.name "$_deepEquals") [l, r]
    match op with
    | .floorDiv => .call (.member (.name "Math") "floor") [.binary .div l r]
    | .member => .call (.name "$_in") [l, r]
    | .equal => if left.isLiteral || right.isLiteral then .binary .equal l r else deepEquals
    | .notEqual =>
      if left.isLiteral || right.isLiteral then .binary .notEqual l r else .unary .not deepEquals
    | .add => .binary .add l r
    | .sub => .binary .sub l r
    | .mul => .binary .mul l r
    | .div => .binary .div l r
    | .mod => .binary .mod l r
    | .exp => .binary .exp l r
    | .less => .binary .less l r
    | .lessEqual => .binary .lessEqual l r
    | .greater => .binary .greater l r
    | .greaterEqual => .binary .greaterEqual l r
    | .shiftLeft => .binary .shiftLeft l r
    | .shiftRight => .binary .shiftRight l r
    | .bitAnd => .binary .bitAnd l r
    | .bitOr => .binary .bitOr l r
    | .bitXor => .binary .bitXor l r
  | .ternary condition yes no =>
    .conditional condition.shape yes.shape ((shape? no).getD (.name "undefined"))
  | .lambda params body isAsync =>
    .function isAsync (shapeParams params) (shapeDefaults params ++ shapeCasts params) body.shape
  | .call callee arguments => .call callee.shape (shapeList arguments)
  | .get object name => .member object.shape name.text
  | .set object name value => .assign (.member object.shape name.text) value.shape
  | .grouping inner => inner.shape
  | .literal .undefined => .name "undefined"
  | .literal value => .literal value
  | .array elements => .array (shapeList elements)
  | .dictionary entries => .object (shapeEntries entries)
  | .subscript object start _ _ =>
    .index object.shape ((shape? start).getD (.literal (.number 0)))
  | .assignSubscript object start _ _ value =>
    .assign (.index object.shape ((shape? start).getD (.literal (.number 0)))) value.shape
  | .logical .and left right => .binary .and left.shape right.shape
  | .logical .or left right => .binary .or left.shape right.shape
  | .unary op operand => .unary op operand.shape
  | .updateAfter op target => .updateAfter op target.shape
  | .updateBefore op target => .updateBefore op target.shape
  | .variable name => .name name.text
  | .worded op operand => .worded op operand.shape

def shapeList : List Expr → List Tree
  | [] => []
  | e :: es => e.shape :: shapeList es

def shape? : Option Expr → Option Tree
  | none => none
  | some e => some e.shape

def shapeEntry : Expr × Expr → Tree × Tree
  | (key, value) => (key.shape, value.shape)

def shapeEntries : List (Expr × Expr) → List (Tree × Tree)
  | [] => []
  | e :: es => shapeEntry e :: shapeEntries es

def shapeParam : Param Expr → Script.Param Tree
  | ⟨name, .standard, default, _⟩ =>
    match shape? default with
    | some value => .optional name.text value
    | none => .plain name.text
  | ⟨name, .wildcard, _, _⟩ => .rest name.text

def shapeParams : List (Param Expr) → List (Script.Param Tree)
  | [] => []
  | p :: ps => shapeParam p :: shapeParams ps

/-- A wildcard without arguments is given its default. -/
def shapeDefault : Param Expr → Option (String × Tree)
  | ⟨name, .wildcard, default, _⟩ =>
    let argument : Tree := .name name.text
    (shape? default).map fun value =>
      (name.text, .conditional (.binary .greater (.member argument "length") (.literal (.number 0)))
        argument value)
  | ⟨_, .standard, _, _⟩ => none

def shapeDefaults : List (Param Expr) → List (String × Tree)
  | [] => []
  | p :: ps => (shapeDefault p).toList ++ shapeDefaults ps

/-- Arguments are passed through the functions named with them. -/
def shapeCasts : List (Param Expr) → List (String × Tree)
  | [] => []
  | ⟨name, _, _, cast⟩ :: ps =>
    let own : Option (String × Tree) :=
      cast.map fun cast => (name.text, .call (.name cast.text) [.name name.text])
    own.toList ++ shapeCasts ps

end

/-! ## Expressions with a text -/

namespace Expr

/-- Whether a member access, a subscript or a call can stand behind an expression. -/
def isAccessed : Expr → Bool
  | .updateAfter .. => false
  | _ => true

/-- Whether an expression can be the key of a dictionary. -/
def isKey (letters : Letters) : Expr → Bool
  | .variable name => JavaScript.isWord letters name.text
  | .literal (.string _) => true
  | .literal (.number value) => JavaScript.isPlain value
  | _ => false

/-- The expressions that JavaScript has a text for: names are identifiers, numbers are finite and not negative,
there is no slice, no regular expression and no `new`, what is incremented can be, and no increment behind its
target is accessed itself. -/
inductive Written (letters : Letters) : Expr → Prop
  | variable {name : Ident} : JavaScript.isIdentifier letters name.text = true → Written letters (.variable name)
  | number {value : Binary64} : JavaScript.isPlain value = true → Written letters (.literal (.number value))
  | string (value : String) : Written letters (.literal (.string value))
  | boolean (value : Bool) : Written letters (.literal (.boolean value))
  | null : Written letters (.literal .null)
  | undefined : Written letters (.literal .undefined)
  | grouping {inner : Expr} : Written letters inner → Written letters (.grouping inner)
  | array {elements : List Expr} : (∀ e ∈ elements, Written letters e) → Written letters (.array elements)
  | dictionary {entries : List (Expr × Expr)} : (∀ entry ∈ entries, isKey letters entry.1 = true) →
      (∀ entry ∈ entries, Written letters entry.2) → Written letters (.dictionary entries)
  | assign {name : Ident} {value : Expr} : JavaScript.isIdentifier letters name.text = true →
      Written letters value → Written letters (.assign name value)
  | set {object value : Expr} {name : Ident} : Written letters object → isAccessed object = true →
      JavaScript.isWord letters name.text = true → Written letters value →
      Written letters (.set object name value)
  | get {object : Expr} {name : Ident} : Written letters object → isAccessed object = true →
      JavaScript.isWord letters name.text = true → Written letters (.get object name)
  | subscript {object : Expr} {start : Option Expr} (stop : Option Expr) : Written letters object →
      isAccessed object = true → (∀ e ∈ start, Written letters e) →
      Written letters (.subscript object start false stop)
  | assignSubscript {object value : Expr} {start : Option Expr} (stop : Option Expr) :
      Written letters object → isAccessed object = true → (∀ e ∈ start, Written letters e) →
      Written letters value → Written letters (.assignSubscript object start false stop value)
  | call {callee : Expr} {arguments : List Expr} : Written letters callee → isAccessed callee = true →
      (∀ e ∈ arguments, Written letters e) → Written letters (.call callee arguments)
  | binary (op : BinaryOp) {left right : Expr} : Written letters left → Written letters right →
      Written letters (.binary op left right)
  | logical (op : LogicalOp) {left right : Expr} : Written letters left → Written letters right →
      Written letters (.logical op left right)
  | unary (op : UnaryOp) {operand : Expr} : Written letters operand → Written letters (.unary op operand)
  | ternary {condition yes : Expr} {no : Option Expr} : Written letters condition → Written letters yes →
      (∀ e ∈ no, Written letters e) → Written letters (.ternary condition yes no)
  | updateBefore (op : UpdateOp) {target : Expr} : Written letters target → isUpdatable target = true →
      Written letters (.updateBefore op target)
  | updateAfter (op : UpdateOp) {target : Expr} : Written letters target → isUpdatable target = true →
      Written letters (.updateAfter op target)
  | worded {op : WordOp} {operand : Expr} : op ≠ .new → Written letters operand →
      Written letters (.worded op operand)
  | lambda (isAsync : Bool) {params : List (Param Expr)} {body : Expr} :
      (∀ p ∈ params, JavaScript.isIdentifier letters p.name.text = true) →
      (∀ p ∈ params, ∀ cast ∈ p.cast, JavaScript.isIdentifier letters cast.text = true) →
      (∀ p ∈ params, ∀ e ∈ p.default, Written letters e) → Written letters body →
      Written letters (.lambda params body isAsync)

end Expr

/-! ## Lists -/

theorem lowerList_eq_map (es : List Expr) : lowerList es = es.map Expr.lower :=
  eq_map_of_cons rfl (fun _ _ => rfl) es

theorem lowerEntries_eq_map (entries : List (Expr × Expr)) :
    lowerEntries entries = entries.map fun entry => (entry.1.lower, entry.2.lower) := by
  induction entries with
  | nil => rfl
  | cons e es ih => rw [lowerEntries, ih, List.map_cons, lowerEntry]

theorem lowerParams_eq_map (params : List (Param Expr)) : lowerParams params = params.map lowerParam :=
  eq_map_of_cons rfl (fun _ _ => rfl) params

theorem lowerDefaults_eq_filterMap (params : List (Param Expr)) :
    lowerDefaults params = params.filterMap lowerDefault := by
  induction params with
  | nil => rfl
  | cons p ps ih => rw [lowerDefaults, ih, List.filterMap_cons]; cases lowerDefault p <;> rfl

/-- The assignment that passes one argument through the function named with it. -/
def castOf (p : Param Expr) : Option (String × Script.Expr) :=
  p.cast.map fun cast => (p.name.text, .call (.name cast.text) [.name p.name.text])

theorem lowerCasts_eq_filterMap (params : List (Param Expr)) : lowerCasts params = params.filterMap castOf := by
  induction params with
  | nil => rfl
  | cons p ps ih =>
    obtain ⟨name, kind, default, cast⟩ := p
    rw [lowerCasts, ih, List.filterMap_cons]
    cases cast <;> rfl

theorem shapeList_eq_map (es : List Expr) : shapeList es = es.map Expr.shape :=
  eq_map_of_cons rfl (fun _ _ => rfl) es

theorem shapeEntries_eq_map (entries : List (Expr × Expr)) :
    shapeEntries entries = entries.map fun entry => (entry.1.shape, entry.2.shape) := by
  induction entries with
  | nil => rfl
  | cons e es ih => rw [shapeEntries, ih, List.map_cons, shapeEntry]

theorem shapeParams_eq_map (params : List (Param Expr)) : shapeParams params = params.map shapeParam :=
  eq_map_of_cons rfl (fun _ _ => rfl) params

/-! ## Lowered expressions are formed -/

namespace JavaScript

section
variable {letters : Letters}

theorem bare_parenIf (needed : Bool) (t : Tree) : bare (Script.parenIf needed t) = bare t := by
  cases needed <;> rfl

theorem Formed.parenIf {t : Tree} (h : Formed letters t) (needed : Bool) :
    Formed letters (Script.parenIf needed t) := by
  cases needed with
  | false => exact h
  | true => exact .paren h

theorem isIdentifier_of_ascii {text : String} (hne : text.toList ≠ [])
    (h : text.toList.all (fun c => c.isAlpha || c = '$' || c = '_') = true) (hreserved : text ∉ reserved) :
    isIdentifier letters text = true := by
  simp [isIdentifier, isWord_of_ascii hne h, hreserved]

end

end JavaScript

namespace Expr

open JavaScript (Formed rank isObject)

variable {letters : Letters} {e left right : Expr} {params : List (Param Expr)}

/-- An expression that is not compound is at least as tight as an increment behind its target. -/
theorem two_le_rank_lower (h : e.isCompound = false) : 2 ≤ rank e.lower := by
  cases e with
  | binary op left right =>
    cases op <;> simp_all [isCompound, lower, Script.callHelper, rank]
  | subscript object start colon stop => cases colon <;> simp [lower, rank]
  | call | get | grouping | literal | array | dictionary | updateAfter | «variable» => simp [lower, rank]
  | _ => simp [isCompound] at h

theorem two_le_rank_operand (e : Expr) : 2 ≤ rank (Script.parenIf e.isCompound e.lower) := by
  cases h : e.isCompound with
  | false => exact two_le_rank_lower h
  | true => simp [Script.parenIf, rank]

theorem isObject_lower (hloose : e.isLooseObject = false) (haccessed : e.isAccessed = true) :
    isObject e.lower = true := by
  cases e with
  | binary op left right =>
    cases op <;> simp_all [isLooseObject, isCompound, lower, Script.callHelper, isObject, rank]
  | literal value => cases value <;> simp_all [isLooseObject, lower, isObject, rank]
  | subscript object start colon stop => cases colon <;> simp [lower, isObject, rank]
  | call | get | grouping | array | dictionary | «variable» => simp [lower, isObject, rank]
  | updateAfter => simp [isAccessed] at haccessed
  | _ => simp [isLooseObject, isCompound] at hloose

theorem isObject_object (haccessed : e.isAccessed = true) :
    isObject (Script.parenIf e.isLooseObject e.lower) = true := by
  cases h : e.isLooseObject with
  | false => exact isObject_lower h haccessed
  | true => simp [Script.parenIf, isObject, rank]

theorem isKey_lower (h : isKey letters e = true) : JavaScript.isKey letters e.lower = true := by
  unfold isKey at h
  split at h
  case h_4 => cases h
  all_goals exact h

theorem formed_zero : Formed letters Script.zero :=
  .number (by decide +kernel)

/-- The index of a subscript, which is zero if it is left out. -/
theorem formed_start {start : Option Expr} (h : ∀ e ∈ start, Formed letters e.lower) :
    Formed letters ((lower? start).getD Script.zero) := by
  cases start with
  | none => exact formed_zero
  | some e => exact h e rfl

theorem formed_infixed (op : Script.Operator) (hleft : Formed letters left.lower)
    (hright : Formed letters right.lower) : Formed letters (.binary op (Script.parenIf left.isCompound left.lower)
      (Script.parenIf right.isCompound right.lower)) :=
  .binary op (hleft.parenIf _) (two_le_rank_operand left) (hright.parenIf _) (two_le_rank_operand right)

theorem formed_callHelper (helper : Script.Helper) {arguments : List Tree}
    (h : ∀ t ∈ arguments, Formed letters t) : Formed letters (Script.callHelper helper arguments) := by
  have hname : JavaScript.isIdentifier letters helper.name = true := by
    cases helper <;> exact JavaScript.isIdentifier_of_ascii (by decide) (by decide) (by decide)
  exact .call (.name hname) rfl h

theorem formed_binary (op : BinaryOp) (hleft : Formed letters left.lower)
    (hright : Formed letters right.lower) : Formed letters (Expr.binary op left right).lower := by
  have hboth : ∀ t ∈ [left.lower, right.lower], Formed letters t := by simp [hleft, hright]
  have hmath : JavaScript.isIdentifier letters "Math" = true :=
    JavaScript.isIdentifier_of_ascii (by decide) (by decide) (by decide)
  have hfloor : JavaScript.isWord letters "floor" = true :=
    JavaScript.isWord_of_ascii (by decide) (by decide)
  cases op with
  | floorDiv =>
    refine .call (.member (.name hmath) rfl hfloor) rfl fun t ht => ?_
    rw [List.mem_singleton.1 ht]
    exact formed_infixed .div hleft hright
  | member => exact formed_callHelper .membership hboth
  | equal =>
    rw [lower]
    dsimp only
    split
    · exact formed_callHelper .deepEquals hboth
    · exact formed_infixed .equal hleft hright
  | notEqual =>
    rw [lower]
    dsimp only
    split
    · exact .unary .not (formed_callHelper .deepEquals hboth) (by simp [Script.callHelper, rank])
    · exact formed_infixed .notEqual hleft hright
  | _ => exact formed_infixed _ hleft hright

theorem isTarget_lower (h : e.isUpdatable = true) (hwritten : Written letters e) :
    JavaScript.isTarget e.lower = true := by
  cases hwritten <;> first | rfl | simp [isUpdatable] at h

theorem paramName_lowerParam (p : Param Expr) : JavaScript.paramName (lowerParam p) = p.name.text := by
  obtain ⟨name, kind, default, cast⟩ := p
  cases kind <;> cases default <;> rfl

theorem formed_default {p : Param Expr} (h : ∀ e ∈ p.default, Formed letters e.lower) :
    ∀ t ∈ JavaScript.paramDefault? (lowerParam p), Formed letters t := by
  obtain ⟨name, kind, default, cast⟩ := p
  cases kind <;> cases default <;> rintro t ⟨⟩
  exact h _ rfl

/-- What a function first does with its arguments assigns formed trees to its parameters. -/
theorem formed_prologue (hnames : ∀ p ∈ params, JavaScript.isIdentifier letters p.name.text = true)
    (hcasts : ∀ p ∈ params, ∀ cast ∈ p.cast, JavaScript.isIdentifier letters cast.text = true)
    (hdefaults : ∀ p ∈ params, ∀ e ∈ p.default, Formed letters e.lower) :
    ∀ a ∈ lowerDefaults params ++ lowerCasts params,
      JavaScript.isIdentifier letters a.1 = true ∧ Formed letters a.2 := by
  rw [lowerDefaults_eq_filterMap, lowerCasts_eq_filterMap]
  intro a ha
  rcases List.mem_append.1 ha with ha | ha
  · obtain ⟨p, hp, heq⟩ := List.mem_filterMap.1 ha
    have hname := hnames p hp
    have hdefault := hdefaults p hp
    obtain ⟨name, kind, default, cast⟩ := p
    cases kind with
    | standard => cases heq
    | wildcard =>
      cases default with
      | none => cases heq
      | some e =>
        cases heq
        have hlength : JavaScript.isWord letters "length" = true :=
          JavaScript.isWord_of_ascii (by decide) (by decide)
        have htest : Formed letters (.binary .greater (Script.lengthOf (.name name.text)) Script.zero) :=
          .binary .greater (.member (.name hname) rfl hlength) (by simp [Script.lengthOf, rank])
            formed_zero (by decide)
        exact ⟨hname, .conditional htest (by simp [rank]) (.name hname) ((hdefault e rfl).parenIf _)⟩
  · obtain ⟨p, hp, heq⟩ := List.mem_filterMap.1 ha
    obtain ⟨cast, hcast, rfl⟩ := Option.map_eq_some_iff.1 heq
    have hname := hnames p hp
    refine ⟨hname, .call (.name (hcasts p hp cast hcast)) rfl fun t ht => ?_⟩
    rw [List.mem_singleton.1 ht]
    exact .name hname

theorem Written.formed_lower (h : Written letters e) : Formed letters e.lower := by
  induction h with
  | «variable» hname => exact .name hname
  | number hvalue => exact .number hvalue
  | string value => exact .string value
  | boolean value => exact .boolean value
  | null => exact .null
  | undefined => exact .undefined
  | grouping _ ih => exact .paren ih
  | array _ ih =>
    rw [lower, lowerList_eq_map]
    exact .array (List.forall_mem_map.2 ih)
  | dictionary hkeys _ ih =>
    rw [lower, lowerEntries_eq_map]
    exact .object (List.forall_mem_map.2 fun entry hentry => isKey_lower (hkeys entry hentry))
      (List.forall_mem_map.2 ih)
  | assign hname _ ih => exact .assign (.name hname) rfl ih
  | @set object value name _ haccessed hname _ ihObject ihValue =>
    exact .assign (.member (ihObject.parenIf _) (isObject_object haccessed) hname) rfl ihValue
  | @get object name _ haccessed hname ih =>
    exact .member (ih.parenIf _) (isObject_object haccessed) hname
  | @subscript object start stop _ haccessed _ ihObject ihStart =>
    exact .index (ihObject.parenIf _) (isObject_object haccessed) (formed_start ihStart)
  | @assignSubscript object value start stop _ haccessed _ _ ihObject ihStart ihValue =>
    exact .assign (.index (ihObject.parenIf _) (isObject_object haccessed) (formed_start ihStart)) rfl
      ihValue
  | @call callee arguments _ haccessed _ ihCallee ihArguments =>
    rw [lower, lowerList_eq_map]
    exact .call (ihCallee.parenIf _) (isObject_object haccessed) (List.forall_mem_map.2 ihArguments)
  | @binary op left right _ _ ihLeft ihRight => exact formed_binary op ihLeft ihRight
  | @logical op left right _ _ ihLeft ihRight => exact formed_infixed _ ihLeft ihRight
  | @unary op operand _ ih => exact .unary op (ih.parenIf _) (two_le_rank_operand operand)
  | @ternary condition yes no _ _ _ ihCondition ihYes ihNo =>
    refine .conditional (ihCondition.parenIf _) ?_ (ihYes.parenIf _) ?_
    · exact Nat.le_trans (by decide) (two_le_rank_operand condition)
    · cases no with
      | none => exact .undefined
      | some e => exact (ihNo e rfl).parenIf _
  | updateBefore op _ htarget ih => exact .updateBefore op ih (isTarget_lower htarget ‹_›)
  | updateAfter op _ htarget ih => exact .updateAfter op ih (isTarget_lower htarget ‹_›)
  | @worded op operand hop _ ih =>
    cases op with
    | new => exact absurd rfl hop
    | _ => exact .worded hop (ih.parenIf _) (two_le_rank_operand operand)
  | lambda isAsync hnames hcasts _ _ ihDefaults ihBody =>
    refine .function isAsync ?_ ?_ ?_ ?_ ihBody
    · rw [lowerParams_eq_map, List.forall_mem_map]
      intro p hp
      rw [paramName_lowerParam]
      exact hnames p hp
    · rw [lowerParams_eq_map, List.forall_mem_map]
      intro p hp
      exact formed_default (ihDefaults p hp)
    · exact fun a ha => (formed_prologue hnames hcasts ihDefaults a ha).1
    · exact fun a ha => (formed_prologue hnames hcasts ihDefaults a ha).2

/-! ## Lowered expressions have the shape of the expression -/

theorem bare_lower_key (h : isKey letters e = true) : JavaScript.bare e.lower = e.shape := by
  unfold isKey at h
  split at h
  case h_4 => cases h
  all_goals rfl

theorem bare_start {start : Option Expr} (h : ∀ e ∈ start, JavaScript.bare e.lower = e.shape) :
    JavaScript.bare ((lower? start).getD Script.zero) = (shape? start).getD (.literal (.number 0)) := by
  cases start with
  | none => rfl
  | some e => exact h e rfl

theorem bare_binary (op : BinaryOp) (hleft : JavaScript.bare left.lower = left.shape)
    (hright : JavaScript.bare right.lower = right.shape) :
    JavaScript.bare (Expr.binary op left right).lower = (Expr.binary op left right).shape := by
  have hdeep : isDeep left right = !(left.isLiteral || right.isLiteral) := by simp [isDeep]
  cases op with
  | equal | notEqual =>
    rw [lower, shape]
    dsimp only
    rw [hdeep]
    cases left.isLiteral || right.isLiteral <;>
      simp [Script.callHelper, Script.Helper.name, JavaScript.bare, JavaScript.bareList,
        JavaScript.bare_parenIf, hleft, hright]
  | _ =>
    simp [lower, shape, Script.callHelper, Script.Helper.name, JavaScript.bare, JavaScript.bareList,
      JavaScript.bare_parenIf, hleft, hright]

theorem bare_lowerParams (h : ∀ p ∈ params, ∀ e ∈ p.default, JavaScript.bare e.lower = e.shape) :
    JavaScript.bareParams (lowerParams params) = shapeParams params := by
  rw [lowerParams_eq_map, JavaScript.bareParams_eq_map, shapeParams_eq_map, List.map_map]
  refine List.map_congr_left fun p hp => ?_
  have hdefault := h p hp
  obtain ⟨name, kind, default, cast⟩ := p
  cases kind with
  | wildcard => rfl
  | standard =>
    cases default with
    | none => rfl
    | some e => simp [lowerParam, shapeParam, lower?, shape?, JavaScript.bareParam, hdefault e rfl]

theorem bare_lowerDefault {p : Param Expr} (h : ∀ e ∈ p.default, JavaScript.bare e.lower = e.shape) :
    (lowerDefault p).map JavaScript.bareAssignment = shapeDefault p := by
  obtain ⟨name, kind, default, cast⟩ := p
  cases kind with
  | standard => rfl
  | wildcard =>
    cases default with
    | none => rfl
    | some e =>
      simp [lowerDefault, shapeDefault, lowerOperand?, shape?, JavaScript.bareAssignment, JavaScript.bare,
        JavaScript.bare_parenIf, Script.lengthOf, Script.zero, h e rfl]

theorem bare_lowerDefaults (h : ∀ p ∈ params, ∀ e ∈ p.default, JavaScript.bare e.lower = e.shape) :
    (lowerDefaults params).map JavaScript.bareAssignment = shapeDefaults params := by
  induction params with
  | nil => rfl
  | cons p ps ih =>
    rw [lowerDefaults, shapeDefaults, List.map_append, ih fun q hq => h q (List.mem_cons_of_mem p hq),
      ← bare_lowerDefault (h p List.mem_cons_self), Option.toList_map]

theorem bare_lowerCasts (params : List (Param Expr)) :
    (lowerCasts params).map JavaScript.bareAssignment = shapeCasts params := by
  induction params with
  | nil => rfl
  | cons p ps ih =>
    obtain ⟨name, kind, default, cast⟩ := p
    rw [lowerCasts, shapeCasts, List.map_append, ih]
    cases cast <;> rfl

theorem Written.bare_lower (h : Written letters e) : JavaScript.bare e.lower = e.shape := by
  induction h with
  | «variable» | number | string | boolean | null | undefined => rfl
  | grouping _ ih => exact ih
  | array _ ih =>
    simp only [lower, shape, JavaScript.bare, lowerList_eq_map, shapeList_eq_map,
      JavaScript.bareList_eq_map, List.map_map]
    congr 1
    exact List.map_congr_left ih
  | dictionary hkeys _ ih =>
    simp only [lower, shape, JavaScript.bare, lowerEntries_eq_map, shapeEntries_eq_map,
      JavaScript.bareEntries_eq_map, List.map_map]
    congr 1
    refine List.map_congr_left fun entry hentry => ?_
    simp [JavaScript.bareEntry, bare_lower_key (hkeys entry hentry), ih entry hentry]
  | assign _ _ ih => simp [lower, shape, JavaScript.bare, ih]
  | set _ _ _ _ ihObject ihValue =>
    simp [lower, shape, JavaScript.bare, JavaScript.bare_parenIf, ihObject, ihValue]
  | get _ _ _ ih => simp [lower, shape, JavaScript.bare, JavaScript.bare_parenIf, ih]
  | subscript _ _ _ _ ihObject ihStart =>
    simp [lower, shape, JavaScript.bare, JavaScript.bare_parenIf, ihObject, bare_start ihStart]
  | assignSubscript _ _ _ _ _ ihObject ihStart ihValue =>
    simp [lower, shape, JavaScript.bare, JavaScript.bare_parenIf, ihObject, bare_start ihStart, ihValue]
  | call _ _ _ ihCallee ihArguments =>
    simp only [lower, shape, JavaScript.bare, JavaScript.bare_parenIf, ihCallee, lowerList_eq_map,
      shapeList_eq_map, JavaScript.bareList_eq_map, List.map_map]
    congr 1
    exact List.map_congr_left ihArguments
  | binary op _ _ ihLeft ihRight => exact bare_binary op ihLeft ihRight
  | logical op _ _ ihLeft ihRight =>
    cases op <;>
      simp [lower, shape, Script.logicalOperator, JavaScript.bare, JavaScript.bare_parenIf, ihLeft, ihRight]
  | unary _ _ ih => simp [lower, shape, JavaScript.bare, JavaScript.bare_parenIf, ih]
  | @ternary condition yes no _ _ _ ihCondition ihYes ihNo =>
    cases no with
    | none =>
      simp [lower, shape, lowerOperand?, shape?, JavaScript.bare, JavaScript.bare_parenIf, ihCondition, ihYes]
    | some e =>
      simp [lower, shape, lowerOperand?, shape?, JavaScript.bare, JavaScript.bare_parenIf, ihCondition, ihYes,
        ihNo e rfl]
  | updateBefore _ _ _ ih | updateAfter _ _ _ ih => simp [lower, shape, JavaScript.bare, ih]
  | @worded op operand hop _ ih =>
    cases op with
    | new => exact absurd rfl hop
    | _ => simp [lower, shape, JavaScript.bare, JavaScript.bare_parenIf, ih]
  | lambda isAsync _ _ _ _ ihDefaults ihBody =>
    simp only [lower, shape, JavaScript.bare, ihBody]
    rw [bare_lowerParams ihDefaults, JavaScript.bareAssignments_eq_map, List.map_append,
      bare_lowerDefaults ihDefaults, bare_lowerCasts]

/-- The text of an expression is read by JavaScript's grammar of operators, and gives the tree that the expression
stands for. -/
theorem read?_text_lower {e : Expr} (h : Written letters e) :
    JavaScript.read? letters e.lower.text = some e.shape := by
  rw [h.formed_lower.read?_text, h.bare_lower]

/-- A negative base, an equality below a bitwise operator and a conditional without `else` below a power. -/
theorem read?_text_lower_power :
    let a : Expr := .variable ⟨"a", 1⟩
    let b : Expr := .variable ⟨"b", 1⟩
    let e : Expr := .binary .exp (.unary .minus a)
      (.binary .bitAnd (.binary .notEqual a b) (.ternary (.updateAfter .increment a) b none))
    let letters : Letters := ⟨fun _ => false, fun _ => false⟩
    Written letters e ∧ e.lower.text = "(-a) ** ((!$_deepEquals(a, b)) & (a++ ? b : undefined))" ∧
      JavaScript.read? letters e.lower.text = some e.shape := by
  intro a b e letters
  have ha : Written letters a := .variable (by decide +kernel)
  have hb : Written letters b := .variable (by decide +kernel)
  have he : Written letters e :=
    .binary .exp (.unary .minus ha)
      (.binary .bitAnd (.binary .notEqual ha hb) (.ternary (.updateAfter .increment ha rfl) hb (by simp)))
  exact ⟨he, by decide +kernel, read?_text_lower he⟩

end Expr

end Offside
