import Offside.Proofs.Grammar.StatementConduct
import Offside.Proofs.Token.Lines

/-!
# Where blocks end

Layout between brackets is skipped, so a block ends at the `dedent` that matches its `indent` when the layout tokens
between brackets are not counted.  This is the `dedent` that matches in the scanner's tokens if the layout tokens
between brackets match each other.  The main result says so of every block in the tokens of a source.
-/

namespace Offside.Grammar

open Offside.Grammar.Parser

variable {tokens rest : List Token} {kind : Token.Kind} {parts : List (Language Token)} {b d : Nat}

/-! ## Matching layout outside of brackets -/

def isClosing : Token.Kind → Bool
  | .symbol .rightParen | .symbol .rightBracket | .symbol .rightBrace => true
  | _ => false

/-- What stands behind the `dedent` that closes the block at hand, told the number of brackets and of blocks opened in
it.  Layout tokens between brackets do not count. -/
def behindBlock (brackets depth : Nat) : List Token → Option (List Token)
  | [] => none
  | token :: rest =>
    if isOpening token.kind then behindBlock (brackets + 1) depth rest
    else if isClosing token.kind then behindBlock (brackets - 1) depth rest
    else if brackets ≠ 0 then behindBlock brackets depth rest
    else if token.kind = .indent then behindBlock brackets (depth + 1) rest
    else if token.kind ≠ .dedent then behindBlock brackets depth rest
    else if depth = 0 then some rest
    else behindBlock brackets (depth - 1) rest

/-- Every word leads from one number of open brackets and of open blocks to another, and no token of it ends a source. -/
def Moves (brackets depth brackets' depth' : Nat) (words : Language Token) : Prop :=
  ∀ word ∈ words, (∀ token ∈ word, token.kind ≠ .eof) ∧
    ∀ rest, behindBlock brackets depth (word ++ rest) = behindBlock brackets' depth' rest

section
variable {b d b' d' b'' d'' : Nat} {words more : Language Token}

theorem Moves.mul (h : Moves b d b' d' words) (hmore : Moves b' d' b'' d'' more) :
    Moves b d b'' d'' (words * more) := by
  intro word hword
  obtain ⟨front, hfront, back, hback, rfl⟩ := Language.mem_mul.1 hword
  obtain ⟨hplain, hmoves⟩ := h front hfront
  obtain ⟨hplain', hmoves'⟩ := hmore back hback
  exact ⟨List.forall_mem_append.2 ⟨hplain, hplain'⟩, fun rest => by rw [List.append_assoc, hmoves, hmoves']⟩

theorem Moves.add (h : Moves b d b' d' words) (hmore : Moves b d b' d' more) : Moves b d b' d' (words + more) := by
  intro word hword
  rcases (Language.mem_add _ _ _).1 hword with hword | hword
  · exact h word hword
  · exact hmore word hword

theorem moves_one : Moves b d b d 1 := by
  intro word hword
  rw [(Language.mem_one word).1 hword]
  exact ⟨by simp, fun _ => rfl⟩

theorem moves_zero : Moves b d b' d' 0 := fun word hword => absurd hword (Language.notMem_zero word)

/-- The tokens that are neither brackets nor layout nor the end of a source. -/
def isInert (kind : Token.Kind) : Bool := !isOpening kind && !isClosing kind && !kind.isLayout && kind != .eof

theorem behindBlock_cons_of_isInert {token : Token} (h : isInert token.kind = true) :
    behindBlock b d (token :: rest) = behindBlock b d rest := by
  simp only [isInert, Bool.and_eq_true, Bool.not_eq_true'] at h
  obtain ⟨⟨⟨hopening, hclosing⟩, hlayout⟩, -⟩ := h
  have hkind : token.kind ≠ .indent ∧ token.kind ≠ .dedent := by
    constructor <;> (intro hkind; simp [hkind, Token.Kind.isLayout] at hlayout)
  simp [behindBlock, hopening, hclosing, hkind]

theorem ne_eof_of_isInert (h : isInert kind = true) : kind ≠ .eof := by
  rintro rfl
  cases h

theorem moves_single {p : Token → Prop} (h : ∀ token, p token → isInert token.kind = true) :
    Moves b d b d (single p) := by
  rintro _ ⟨token, rfl, htoken⟩
  exact ⟨by simpa using ne_eof_of_isInert (h token htoken), fun _ => behindBlock_cons_of_isInert (h token htoken)⟩

theorem moves_tokenOf (h : isInert kind = true) : Moves b d b d (tokenOf kind) := by
  refine moves_single ?_
  rintro token rfl
  exact h

theorem moves_opening (h : isOpening kind = true) : Moves b d (b + 1) d (tokenOf kind) := by
  rintro _ ⟨token, rfl, rfl⟩
  refine ⟨?_, fun rest => by rw [List.singleton_append, behindBlock, if_pos h]⟩
  rw [List.forall_mem_singleton]
  intro hkind
  simp [hkind, isOpening] at h

theorem moves_closing (h : isClosing kind = true) (hopening : isOpening kind = false) :
    Moves (b + 1) d b d (tokenOf kind) := by
  rintro _ ⟨token, rfl, rfl⟩
  refine ⟨?_, fun rest => ?_⟩
  · rw [List.forall_mem_singleton]
    intro hkind
    simp [hkind, isClosing] at h
  · rw [List.singleton_append, behindBlock, if_neg (by simp [hopening]), if_pos h]
    rfl

theorem moves_indent : Moves 0 d 0 (d + 1) (tokenOf .indent) := by
  rintro _ ⟨token, rfl, htoken⟩
  exact ⟨by simp [htoken], fun rest => by simp [behindBlock, htoken, isOpening, isClosing]⟩

theorem moves_dedent : Moves 0 (d + 1) 0 d (tokenOf .dedent) := by
  rintro _ ⟨token, rfl, htoken⟩
  exact ⟨by simp [htoken], fun rest => by simp [behindBlock, htoken, isOpening, isClosing]⟩

/-- Layout between brackets is not counted. -/
theorem moves_layout : Moves (b + 1) d (b + 1) d layout := by
  intro word hword
  refine ⟨fun token hmem hkind => ?_, fun rest => ?_⟩
  · have htoken := hword token hmem
    rw [hkind] at htoken
    cases htoken
  induction word with
  | nil => rfl
  | cons token word ih =>
    obtain ⟨htoken, hword⟩ := List.forall_mem_cons.1 hword
    have hopening : isOpening token.kind = false := by
      cases hkind : token.kind <;> simp_all [isOpening, Token.Kind.isLayout]
    have hclosing : isClosing token.kind = false := by
      cases hkind : token.kind <;> simp_all [isClosing, Token.Kind.isLayout]
    rw [List.cons_append, behindBlock, if_neg (by simp [hopening]), if_neg (by simp [hclosing]), if_pos (by simp)]
    exact ih hword

theorem Moves.optional (present : Bool) (h : Moves b d b d words) : Moves b d b d (optional present words) := by
  cases present with
  | true => exact h
  | false => exact moves_one

theorem moves_prod (h : ∀ part ∈ parts, Moves b d b d part) : Moves b d b d parts.prod := by
  induction parts with
  | nil => exact moves_one
  | cons part parts ih =>
    obtain ⟨hpart, hparts⟩ := List.forall_mem_cons.1 h
    rw [List.prod_cons]
    exact hpart.mul (ih hparts)

theorem moves_sepBy {separator : Language Token}
    (hseparator : Moves b d b d separator) (h : ∀ part ∈ parts, Moves b d b d part) :
    Moves b d b d (sepBy separator parts) := by
  fun_induction sepBy separator parts with
  | case1 => exact moves_one
  | case2 part => exact h part (by simp)
  | case3 part next parts ih =>
    obtain ⟨hpart, hparts⟩ := List.forall_mem_cons.1 h
    exact (hpart.mul hseparator).mul (ih hparts)

theorem moves_ident (name : Ident) : Moves b d b d name.spelling := by
  refine moves_single fun token hname => ?_
  rw [hname.1]
  rfl

theorem moves_member (name : Ident) : Moves b d b d name.memberSpelling := by
  refine moves_single fun token hname => ?_
  rcases hname.1 with hkind | ⟨hkind, -⟩
  · rw [hkind]
    rfl
  · generalize token.kind = kind at hkind ⊢
    cases kind with
    | keyword => rfl
    | _ => cases hkind

theorem moves_cast (cast : Option Ident) : Moves b d b d (Ident.castSpelling cast) := by
  cases cast with
  | none => exact moves_one
  | some name => exact (moves_ident name).mul (moves_tokenOf rfl)

theorem isInert_of_isString (h : kind.isString = true) : isInert kind = true := by
  cases kind with
  | string value => rfl
  | _ => cases h

theorem moves_literal (value : Literal) : Moves b d b d value.spelling := by
  cases value with
  | boolean value => cases value <;> exact moves_tokenOf rfl
  | number | string | null | undefined => exact moves_tokenOf rfl
  | regex pattern flags =>
    rintro _ ⟨token, next, rfl, hkind, ⟨-, hstring, -⟩, -⟩
    have hinert := isInert_of_isString hstring
    refine ⟨by simp [hkind, ne_eof_of_isInert hinert], fun rest => ?_⟩
    rw [List.cons_append, List.singleton_append, behindBlock_cons_of_isInert (by rw [hkind]; rfl),
      behindBlock_cons_of_isInert hinert]

theorem moves_unaryOp (op : UnaryOp) : Moves b d b d op.spelling := by
  cases op with
  | not => exact (moves_tokenOf rfl).add (moves_tokenOf rfl)
  | minus | bitNot => exact moves_tokenOf rfl

theorem moves_looseComma : Moves (b + 1) d (b + 1) d looseComma :=
  (moves_layout.mul (moves_tokenOf rfl)).mul moves_layout

theorem moves_argumentWords (h : ∀ part ∈ parts, Moves (b + 1) d (b + 1) d part) :
    Moves b d b d (argumentWords parts) :=
  ((((moves_opening rfl).mul moves_layout).mul (moves_sepBy moves_looseComma h)).mul moves_layout).mul
    (moves_closing rfl rfl)

theorem moves_elementWords (h : ∀ part ∈ parts, Moves (b + 1) d (b + 1) d part) :
    Moves (b + 1) d (b + 1) d (elementWords parts) := by
  cases parts with
  | nil => exact moves_one
  | cons part parts => exact (moves_sepBy moves_looseComma h).mul (moves_layout.add moves_looseComma)

theorem moves_shorthand (key value : Expr) : Moves b d b d (Expr.shorthand key value) := by
  fun_cases Expr.shorthand key value with
  | case1 name other => exact fun word hword => moves_ident name word hword.2
  | case2 => exact moves_zero

mutual

/-- An expression closes the brackets that it opens, and no layout in it counts. -/
theorem moves_expr (b d : Nat) : ∀ e : Expr, Moves b d b d e.spelling
  | .assign name value => by
    rw [Expr.spelling]
    exact ((moves_ident name).mul (moves_tokenOf rfl)).mul (moves_expr b d value)
  | .binary op left right | .logical op left right => by
    rw [Expr.spelling]
    exact ((moves_expr b d left).mul (moves_tokenOf (by cases op <;> rfl))).mul (moves_expr b d right)
  | .ternary condition yes no => by
    rw [Expr.spelling]
    exact (((moves_expr b d condition).mul (moves_tokenOf rfl)).mul (moves_expr b d yes)).mul
      (moves_spelling? b d (moves_tokenOf rfl) no)
  | .lambda params body isAsync => by
    rw [Expr.spelling]
    exact (((((moves_tokenOf rfl).optional isAsync).mul (moves_tokenOf rfl)).mul
      (moves_sepBy (moves_tokenOf rfl) (moves_paramSpellings b d params))).mul (moves_tokenOf rfl)).mul
        (moves_expr b d body)
  | .call callee arguments => by
    rw [Expr.spelling]
    exact (moves_expr b d callee).mul (moves_argumentWords (moves_spellings (b + 1) d arguments))
  | .get object name => by
    rw [Expr.spelling]
    exact ((moves_expr b d object).mul (moves_tokenOf rfl)).mul (moves_member name)
  | .set object name value => by
    rw [Expr.spelling]
    exact ((((moves_expr b d object).mul (moves_tokenOf rfl)).mul (moves_member name)).mul (moves_tokenOf rfl)).mul
      (moves_expr b d value)
  | .grouping content => by
    rw [Expr.spelling]
    exact ((moves_opening rfl).mul (moves_expr (b + 1) d content)).mul (moves_closing rfl rfl)
  | .literal value => by
    rw [Expr.spelling]
    exact moves_literal value
  | .array elements => by
    rw [Expr.spelling]
    exact (((moves_opening rfl).mul moves_layout).mul (moves_elementWords (moves_spellings (b + 1) d elements))).mul
      (moves_closing rfl rfl)
  | .dictionary entries => by
    rw [Expr.spelling]
    exact (((moves_opening rfl).mul moves_layout).mul (moves_elementWords (moves_entrySpellings b d entries))).mul
      (moves_closing rfl rfl)
  | .subscript object start colon stop => by
    rw [Expr.spelling]
    exact (((((moves_expr b d object).mul (moves_opening rfl)).mul (moves_spelling? (b + 1) d moves_one start)).mul
      ((moves_tokenOf rfl).optional colon)).mul (moves_spelling? (b + 1) d moves_one stop)).mul (moves_closing rfl rfl)
  | .assignSubscript object start colon stop value => by
    rw [Expr.spelling]
    exact (((((((moves_expr b d object).mul (moves_opening rfl)).mul (moves_spelling? (b + 1) d moves_one start)).mul
      ((moves_tokenOf rfl).optional colon)).mul (moves_spelling? (b + 1) d moves_one stop)).mul
        (moves_closing rfl rfl)).mul (moves_tokenOf rfl)).mul (moves_expr b d value)
  | .unary op operand => by
    rw [Expr.spelling]
    exact (moves_unaryOp op).mul (moves_expr b d operand)
  | .updateAfter op target => by
    rw [Expr.spelling]
    exact (moves_expr b d target).mul (moves_tokenOf (by cases op <;> rfl))
  | .updateBefore op operand | .worded op operand => by
    rw [Expr.spelling]
    exact (moves_tokenOf (by cases op <;> rfl)).mul (moves_expr b d operand)
  | .variable name => by
    rw [Expr.spelling]
    exact moves_ident name

theorem moves_spelling? (b d : Nat) {lead : Language Token} (hlead : Moves b d b d lead) :
    ∀ value : Option Expr, Moves b d b d (Expr.spelling? lead value)
  | none => by
    rw [Expr.spelling?]
    exact moves_one
  | some e => by
    rw [Expr.spelling?]
    exact hlead.mul (moves_expr b d e)

theorem moves_spellings (b d : Nat) : ∀ es : List Expr, ∀ part ∈ Expr.spellings es, Moves b d b d part
  | [] => by simp [Expr.spellings]
  | e :: es => by
    rw [Expr.spellings]
    exact List.forall_mem_cons.2 ⟨moves_expr b d e, moves_spellings b d es⟩

theorem moves_entrySpelling (b d : Nat) : ∀ entry : Expr × Expr, Moves (b + 1) d (b + 1) d (Expr.entrySpelling entry)
  | (key, value) => by
    rw [Expr.entrySpelling]
    exact ((((moves_expr (b + 1) d key).mul (moves_tokenOf rfl)).mul moves_layout).mul (moves_expr (b + 1) d value)).add
      (moves_shorthand key value)

theorem moves_entrySpellings (b d : Nat) : ∀ entries : List (Expr × Expr),
    ∀ part ∈ Expr.entrySpellings entries, Moves (b + 1) d (b + 1) d part
  | [] => by simp [Expr.entrySpellings]
  | entry :: entries => by
    rw [Expr.entrySpellings]
    exact List.forall_mem_cons.2 ⟨moves_entrySpelling b d entry, moves_entrySpellings b d entries⟩

theorem moves_paramSpelling (b d : Nat) : ∀ param : Param Expr, Moves b d b d (Expr.paramSpelling param)
  | ⟨name, kind, default, cast⟩ => by
    rw [Expr.paramSpelling]
    exact (((moves_cast cast).mul ((moves_tokenOf rfl).optional _)).mul (moves_ident name)).mul
      (moves_spelling? b d (moves_tokenOf rfl) default)

theorem moves_paramSpellings (b d : Nat) : ∀ params : List (Param Expr),
    ∀ part ∈ Expr.paramSpellings params, Moves b d b d part
  | [] => by simp [Expr.paramSpellings]
  | param :: params => by
    rw [Expr.paramSpellings]
    exact List.forall_mem_cons.2 ⟨moves_paramSpelling b d param, moves_paramSpellings b d params⟩

end

theorem moves_omitted (parts : List (Language Token)) : Moves b d b d (omitted parts) := by
  cases parts with
  | nil => exact moves_one
  | cons part parts => exact moves_zero

theorem moves_parameterWords (params : List (Param Expr)) :
    Moves b d b d (parameterWords (Expr.paramSpellings params)) :=
  (((moves_opening rfl).mul (moves_sepBy (moves_tokenOf rfl) (moves_paramSpellings (b + 1) d params))).mul
    (moves_closing rfl rfl)).add (moves_omitted _)

theorem moves_superclass (parent : Option Expr) : Moves b d b d (Expr.superclassSpelling parent) := by
  cases parent with
  | none => exact moves_one
  | some e =>
    exact (((moves_opening rfl).mul (moves_expr (b + 1) d e)).mul (moves_closing rfl rfl)).add
      ((moves_tokenOf rfl).mul (moves_expr b d e))

theorem moves_blockWords (h : ∀ part ∈ parts, ∀ d, Moves 0 d 0 d part) : Moves 0 d 0 d (blockWords parts) :=
  (moves_indent.mul (moves_prod fun part hmem => h part hmem (d + 1))).mul moves_dedent

theorem moves_bodyWords (h : ∀ part ∈ parts, ∀ d, Moves 0 d 0 d part) : Moves 0 d 0 d (bodyWords parts) := by
  refine (moves_tokenOf rfl).mul ((moves_blockWords h).add ?_)
  cases parts with
  | nil => exact moves_zero
  | cons part parts =>
    obtain ⟨hpart, hparts⟩ := List.forall_mem_cons.1 h
    exact (hpart d).mul ((moves_blockWords hparts).add (moves_omitted _))

theorem moves_caseWords {default : Option (Language Token)}
    (h : ∀ part ∈ parts, Moves b d b d part) (hdefault : ∀ part, default = some part → Moves b d b d part) :
    Moves b d b d (caseWords parts default) := by
  cases default with
  | none => exact moves_prod h
  | some default =>
    rintro word ⟨front, back, rfl, hword⟩
    have hfront := moves_prod fun part hmem => h part (List.mem_append_left back hmem)
    have hback := moves_prod fun part hmem => h part (List.mem_append_right front hmem)
    exact ((hfront.mul (hdefault default rfl)).mul hback) word hword

mutual

/-- A statement closes the brackets and the blocks that it opens. -/
theorem moves_stmt : ∀ (s : Stmt) (d : Nat), Moves 0 d 0 d s.spelling
  | .expression value, d => by
    rw [Stmt.spelling]
    exact (moves_expr 0 d value).mul (moves_tokenOf rfl)
  | .raw code, d => by
    rw [Stmt.spelling]
    exact ((moves_tokenOf rfl).mul (moves_single fun token htoken => isInert_of_isString htoken.1)).mul
      (moves_tokenOf rfl)
  | .function decl, d => by
    rw [Stmt.spelling]
    exact moves_functionSpelling decl d
  | .ret value, d | .yield value, d => by
    rw [Stmt.spelling]
    exact ((moves_tokenOf rfl).mul (moves_spelling? 0 d moves_one value)).mul (moves_tokenOf rfl)
  | .throw value, d => by
    rw [Stmt.spelling]
    exact ((moves_tokenOf rfl).mul (moves_expr 0 d value)).mul (moves_tokenOf rfl)
  | .classDecl name superclass methods, d => by
    rw [Stmt.spelling]
    exact ((((moves_tokenOf rfl).mul (moves_ident name)).mul (moves_superclass superclass)).mul (moves_tokenOf rfl)).mul
      ((moves_blockWords (moves_functionSpellings methods)).add (moves_omitted _))
  | .block body, d => by
    rw [Stmt.spelling]
    exact moves_blockWords (moves_stmts body)
  | .whileLoop condition body, d => by
    rw [Stmt.spelling]
    exact ((moves_tokenOf rfl).mul (moves_expr 0 d condition)).mul (moves_bodyWords (moves_stmts body))
  | .doLoop body condition, d => by
    rw [Stmt.spelling]
    exact ((((moves_tokenOf rfl).mul (moves_bodyWords (moves_stmts body))).mul (moves_tokenOf rfl)).mul
      (moves_expr 0 d condition)).mul (moves_tokenOf rfl)
  | .forLoop name iterable body, d => by
    rw [Stmt.spelling]
    exact ((((moves_tokenOf rfl).mul (moves_ident name)).mul (moves_tokenOf rfl)).mul (moves_expr 0 d iterable)).mul
      (moves_bodyWords (moves_stmts body))
  | .tryBlock body handler otherwise finalizer, d => by
    rw [Stmt.spelling]
    exact ((((moves_tokenOf rfl).mul (moves_bodyWords (moves_stmts body))).mul (moves_handlerSpelling handler d)).mul
      (moves_bodySpelling? otherwise .kwElse d)).mul (moves_bodySpelling? finalizer .kwFinally d)
  | .branch condition body elifs otherwise, d => by
    rw [Stmt.spelling]
    exact ((((moves_tokenOf rfl).mul (moves_expr 0 d condition)).mul (moves_bodyWords (moves_stmts body))).mul
      (moves_prod (moves_clauseSpellings elifs .kwElif d))).mul (moves_bodySpelling? otherwise .kwElse d)
  | .switch value cases default, d => by
    rw [Stmt.spelling]
    exact (((((moves_tokenOf rfl).mul (moves_expr 0 d value)).mul (moves_tokenOf rfl)).mul moves_indent).mul
      (moves_caseWords (moves_clauseSpellings cases .kwCase (d + 1)) (moves_defaultSpelling default (d + 1)))).mul
        moves_dedent
  | .breakLoop, d | .continueLoop, d => by
    rw [Stmt.spelling]
    exact (moves_tokenOf rfl).mul (moves_tokenOf rfl)
  | .declare binding name init, d => by
    rw [Stmt.spelling]
    exact (((moves_tokenOf (by cases binding <;> rfl)).mul (moves_ident name)).mul
      (moves_spelling? 0 d (moves_tokenOf rfl) init)).mul (moves_tokenOf rfl)

theorem moves_stmts : ∀ ss : List Stmt, ∀ part ∈ Stmt.spellings ss, ∀ d, Moves 0 d 0 d part
  | [] => by simp [Stmt.spellings]
  | s :: ss => by
    rw [Stmt.spellings]
    exact List.forall_mem_cons.2 ⟨moves_stmt s, moves_stmts ss⟩

theorem moves_bodySpelling? : ∀ (content : Option (List Stmt)) (word : Keyword) (d : Nat),
    Moves 0 d 0 d (Stmt.bodySpelling? word content)
  | none, _, _ => by
    rw [Stmt.bodySpelling?]
    exact moves_one
  | some body, _, _ => by
    rw [Stmt.bodySpelling?]
    exact (moves_tokenOf rfl).mul (moves_bodyWords (moves_stmts body))

theorem moves_defaultSpelling : ∀ (default : Option (List Stmt)) (d : Nat) (part : Language Token),
    Stmt.defaultSpelling default = some part → Moves 0 d 0 d part
  | none, _, _, h => by
    rw [Stmt.defaultSpelling] at h
    cases h
  | some body, _, _, h => by
    rw [Stmt.defaultSpelling] at h
    cases h
    exact (moves_tokenOf rfl).mul (moves_bodyWords (moves_stmts body))

theorem moves_handlerSpelling : ∀ (caught : Option (Handler Stmt)) (d : Nat),
    Moves 0 d 0 d (Stmt.handlerSpelling caught)
  | none, _ => by
    rw [Stmt.handlerSpelling]
    exact moves_one
  | some ⟨param, body⟩, _ => by
    rw [Stmt.handlerSpelling]
    refine ((moves_tokenOf rfl).mul ?_).mul (moves_bodyWords (moves_stmts body))
    cases param with
    | none => exact moves_one
    | some name => exact moves_ident name

theorem moves_clauseSpelling : ∀ (clause : Expr × List Stmt) (word : Keyword) (d : Nat),
    Moves 0 d 0 d (Stmt.clauseSpelling word clause)
  | (condition, body), _, d => by
    rw [Stmt.clauseSpelling]
    exact ((moves_tokenOf rfl).mul (moves_expr 0 d condition)).mul (moves_bodyWords (moves_stmts body))

theorem moves_clauseSpellings : ∀ (clauses : List (Expr × List Stmt)) (word : Keyword) (d : Nat),
    ∀ part ∈ Stmt.clauseSpellings word clauses, Moves 0 d 0 d part
  | [], _, _ => by simp [Stmt.clauseSpellings]
  | clause :: clauses, word, d => by
    rw [Stmt.clauseSpellings]
    exact List.forall_mem_cons.2 ⟨moves_clauseSpelling clause word d, moves_clauseSpellings clauses word d⟩

theorem moves_functionSpelling : ∀ (decl : Function Stmt) (d : Nat), Moves 0 d 0 d (Stmt.functionSpelling decl)
  | ⟨name, params, body, isAsync, isGenerator⟩, _ => by
    rw [Stmt.functionSpelling]
    exact ((((((moves_tokenOf rfl).optional isAsync).mul (moves_tokenOf rfl)).mul
      ((moves_tokenOf rfl).optional isGenerator)).mul (moves_ident name)).mul (moves_parameterWords params)).mul
        (moves_bodyWords (moves_stmts body))

theorem moves_functionSpellings : ∀ decls : List (Function Stmt),
    ∀ part ∈ Stmt.functionSpellings decls, ∀ d, Moves 0 d 0 d part
  | [] => by simp [Stmt.functionSpellings]
  | decl :: decls => by
    rw [Stmt.functionSpellings]
    exact List.forall_mem_cons.2 ⟨moves_functionSpelling decl, moves_functionSpellings decls⟩

end

end

/-! ## The end of a block -/

theorem behindBlock_append (more : List Token) (h : behindBlock b d tokens = some rest) :
    behindBlock b d (tokens ++ more) = some (rest ++ more) := by
  fun_induction behindBlock b d tokens <;> simp_all [behindBlock]

theorem length_lt_of_behindBlock (h : behindBlock b d tokens = some rest) : rest.length < tokens.length := by
  fun_induction behindBlock b d tokens
  case case1 => cases h
  case case7 =>
    cases h
    exact Nat.lt_succ_self _
  all_goals
    rename_i ih
    exact Nat.lt_succ_of_lt (ih h)

/-- A block that is closed by one of its tokens ends there, and otherwise with the tokens. -/
theorem behindBlock_of_closes {content : List Stmt}
    (h : Closes ((Stmt.spellings content).prod * tokenOf .dedent) tokens rest) :
    behindBlock 0 0 tokens = some rest ∨ (behindBlock 0 0 tokens = none ∧ rest = []) := by
  obtain ⟨used, closing, rfl, hword, -, hend⟩ := h
  obtain ⟨front, hfront, _, ⟨dedent, rfl, hdedent⟩, hsplit⟩ := Language.mem_mul.1 hword
  have hblock : ∀ rest, behindBlock 0 0 (used ++ closing ++ rest) = some rest := by
    intro rest
    rw [← hsplit, List.append_assoc, (moves_prod (fun part hmem => moves_stmts content part hmem 0) front hfront).2]
    simp [behindBlock, hdedent, isOpening, isClosing]
  by_cases hclosing : closing = []
  · subst hclosing
    rw [List.append_nil] at hblock
    exact Or.inl (hblock rest)
  · obtain rfl := hend hclosing
    rw [List.append_nil]
    cases hused : behindBlock 0 0 used with
    | none => exact Or.inr ⟨rfl, rfl⟩
    | some found =>
      have hmore := behindBlock_append closing hused
      have hall := hblock []
      rw [List.append_nil, hmore] at hall
      simp [hclosing] at hall

/-! ## Layout between brackets -/

/-- Whether the layout tokens between outermost brackets match each other, told the number of brackets open and of
levels opened between them. -/
def layoutMatches (brackets depth : Nat) : List Token → Bool
  | [] => true
  | token :: rest =>
    if isOpening token.kind then layoutMatches (brackets + 1) depth rest
    else if isClosing token.kind then (brackets ≠ 1 || depth = 0) && layoutMatches (brackets - 1) depth rest
    else if brackets = 0 then layoutMatches brackets depth rest
    else if token.kind = .indent then layoutMatches brackets (depth + 1) rest
    else if token.kind ≠ .dedent then layoutMatches brackets depth rest
    else depth ≠ 0 && layoutMatches brackets (depth - 1) rest

theorem isPlain_of_isBracket (h : isOpening kind = true ∨ isClosing kind = true) : kind.isPlain = true := by
  cases kind with
  | symbol => rfl
  | _ => simp [isOpening, isClosing] at h

/-- Where layout tokens between brackets match each other it makes no difference whether they are counted. -/
theorem behindDedent_eq_behindBlock {used : List Token} {k : Nat} (hbrackets : b = 0 → k = 0)
    (hmatch : layoutMatches b k used = true)
    (h : behindBlock b d (used ++ rest) = some rest ∨ (behindBlock b d (used ++ rest) = none ∧ rest = [])) :
    Token.behindDedent (d + k) (used ++ rest) = behindBlock b d (used ++ rest) := by
  induction used generalizing b d k with
  | nil =>
    rcases h with h | ⟨-, rfl⟩
    · exact absurd (length_lt_of_behindBlock h) (lt_irrefl _)
    · rfl
  | cons token used ih =>
    rw [List.cons_append, behindBlock] at h ⊢
    rw [layoutMatches] at hmatch
    by_cases hopening : isOpening token.kind = true
    · rw [if_pos hopening] at h hmatch ⊢
      rw [Token.behindDedent_cons_of_isPlain (isPlain_of_isBracket (Or.inl hopening))]
      exact ih (by simp) hmatch h
    rw [if_neg hopening] at h hmatch ⊢
    by_cases hclosing : isClosing token.kind = true
    · rw [if_pos hclosing] at h hmatch ⊢
      simp only [Bool.and_eq_true, Bool.or_eq_true, decide_eq_true_eq] at hmatch
      rw [Token.behindDedent_cons_of_isPlain (isPlain_of_isBracket (Or.inr hclosing))]
      exact ih (by omega) hmatch.2 h
    rw [if_neg hclosing] at h hmatch ⊢
    rw [Token.behindDedent]
    by_cases hb : b = 0
    · -- Outside of brackets both count the same tokens.
      obtain rfl := hbrackets hb
      rw [if_pos hb] at hmatch
      rw [if_neg (not_not.2 hb)] at h ⊢
      by_cases hindent : token.kind = .indent
      · rw [if_pos hindent] at h ⊢
        rw [if_pos hindent]
        exact ih hbrackets hmatch h
      rw [if_neg hindent] at h ⊢
      rw [if_neg hindent]
      by_cases hdedent : token.kind = .dedent
      · rw [if_neg (not_not.2 hdedent)] at h ⊢
        rw [if_neg (not_not.2 hdedent), Nat.add_zero]
        by_cases hd : d = 0
        · rw [if_pos hd, if_pos hd]
        · rw [if_neg hd] at h ⊢
          rw [if_neg hd]
          exact ih hbrackets hmatch h
      · rw [if_pos hdedent] at h ⊢
        rw [if_pos hdedent]
        exact ih hbrackets hmatch h
    · rw [if_neg hb] at hmatch
      rw [if_pos hb] at h ⊢
      by_cases hindent : token.kind = .indent
      · rw [if_pos hindent] at hmatch ⊢
        exact ih (fun hzero => absurd hzero hb) hmatch h
      rw [if_neg hindent] at hmatch ⊢
      by_cases hdedent : token.kind = .dedent
      · rw [if_neg (not_not.2 hdedent)] at hmatch ⊢
        simp only [Bool.and_eq_true, decide_eq_true_eq] at hmatch
        have hk : d + k - 1 = d + (k - 1) := by omega
        rw [if_neg (by omega), hk]
        exact ih (fun hzero => absurd hzero hb) hmatch.2 h
      · rw [if_pos hdedent] at hmatch ⊢
        exact ih hbrackets hmatch h

/-! ## Blocks of a source -/

/-- A block behind an `indent` of a source ends at the `dedent` that matches outside of brackets, or with the tokens if
there is none.  If the layout tokens between its brackets match each other, it ends at the `dedent` that matches in the
scanner's tokens, and all later lines that are narrower than the block stand behind it. -/
theorem block_rest_eq_behindBlock {source : String} {front tokens : List Token} {indent : Token}
    (hsource : (Token.Scan.ofSource source).beforeEof = front ++ indent :: tokens) (hindent : indent.kind = .indent)
    (extra : Nat) {stop : Eof} {content : List Stmt} {rest : List Token}
    (h : Gives (block (Inner.ofDepth (tokens.length + extra))) stop tokens content rest) :
    rest = (behindBlock 0 0 tokens).getD [] ∧
      ∀ used, tokens = used ++ rest → layoutMatches 0 0 used = true →
        Token.behindDedent 0 tokens = some rest ∧
          ∃ earlier line later, Token.Scan.lines source = earlier ++ line :: later ∧ line.tokens = tokens ∧
            ∀ other ∈ later, other.width < line.width → other.tokens <:+ rest := by
  have horder := orderly_ofDepth ⟨tokens, stop, .still, False, True, False, False.elim⟩ id id (tokens.length + extra)
  have hlength : tokens.length < tokens.length + extra + 1 := by omega
  have hend := behindBlock_of_closes (((conducts_block horder hlength).value_of_gives h).2 trivial)
  refine ⟨?_, fun used hused hmatch => ?_⟩
  · rcases hend with hsome | ⟨hnone, rfl⟩
    · rw [hsome, Option.getD_some]
    · rw [hnone, Option.getD_none]
  · obtain ⟨earlier, line, later, found, hlines, htokens, hfound, hlater⟩ :=
      Token.Scan.exists_line_of_indent (Token.plain_pieces source.toList) hindent hsource
    have hsame : Token.behindDedent 0 tokens = behindBlock 0 0 tokens := by
      rw [hused] at hend ⊢
      exact behindDedent_eq_behindBlock (fun _ => rfl) hmatch hend
    -- The scanner closes every level, so the block does not end with the tokens.
    have hrest : found = rest := by
      rcases hend with hsome | ⟨hnone, -⟩
      · exact Option.some.inj (hfound.symm.trans (hsame.trans hsome))
      · rw [hsame, hnone] at hfound
        cases hfound
    subst hrest
    exact ⟨hfound, earlier, line, later, hlines, htokens, hlater⟩

theorem exists_gives {α : Type} {p : Parser α} {stop : Eof} (hok : (p stop.1 tokens).outcome.isOk = true)
    (hnotes : (p stop.1 tokens).notes = []) : ∃ a, Gives p stop tokens a (p stop.1 tokens).rest := by
  rcases hreply : p stop.1 tokens with ⟨_ | a, rest, notes⟩
  · rw [hreply] at hok
    cases hok
  · rw [hreply] at hnotes
    subst hnotes
    exact ⟨a, hreply⟩

/-- The layout of a call in a block, whose last bracket stands on a line of the block's width. -/
theorem block_rest_eq_behindBlock_call :
    let tokens := (Token.Scan.ofSource "if x:\n    f(\n        y\n    );\nz;\n").beforeEof
    let stop : Eof := ⟨Token.empty .start .eof, rfl⟩
    ∃ indent content, tokens = tokens.take 3 ++ indent :: tokens.drop 4 ∧ indent.kind = .indent ∧
      Gives (block (Inner.ofDepth (tokens.drop 4).length)) stop (tokens.drop 4) content (tokens.drop 12) ∧
        layoutMatches 0 0 ((tokens.drop 4).take 8) = true ∧
          Token.behindDedent 0 (tokens.drop 4) = some (tokens.drop 12) := by
  intro tokens stop
  let reply := block (Inner.ofDepth (tokens.drop 4).length) stop.1 (tokens.drop 4)
  obtain ⟨hindent, hsource, hmatch, hok, hnotes, hrest, hused⟩ : (tokens.getD 3 stop.1).kind = .indent ∧
      tokens = tokens.take 3 ++ tokens.getD 3 stop.1 :: tokens.drop 4 ∧
        layoutMatches 0 0 ((tokens.drop 4).take 8) = true ∧ reply.outcome.isOk = true ∧ reply.notes = [] ∧
          reply.rest = tokens.drop 12 ∧ tokens.drop 4 = (tokens.drop 4).take 8 ++ tokens.drop 12 := by
    decide +kernel
  obtain ⟨content, h⟩ := exists_gives hok hnotes
  rw [hrest] at h
  obtain ⟨-, hend⟩ := block_rest_eq_behindBlock hsource hindent 0 h
  exact ⟨_, content, hsource, hindent, h, hmatch, (hend _ hused hmatch).1⟩

/-- The `dedent` of the block stands between the brackets of an array, so the last line is taken into the block. -/
theorem behindDedent_ne_rest_of_array :
    let source := "if x:\n    a = [\ny];\nb;\n"
    let tokens := (Token.Scan.ofSource source).beforeEof
    let stop : Eof := ⟨Token.empty .start .eof, rfl⟩
    (Token.Scan.ofSource source).diagnostics = [] ∧
      (Parse.ofTokens (Token.Scan.ofSource source).tokens).diagnostics = [] ∧
        ∃ indent content, tokens = tokens.take 3 ++ indent :: tokens.drop 4 ∧ indent.kind = .indent ∧
          Gives (block (Inner.ofDepth (tokens.drop 4).length)) stop (tokens.drop 4) content [] ∧ content.length = 2 ∧
            Token.behindDedent 0 (tokens.drop 4) = some (tokens.drop 8) ∧ tokens.drop 8 ≠ [] := by
  intro source tokens stop
  let reply := block (Inner.ofDepth (tokens.drop 4).length) stop.1 (tokens.drop 4)
  obtain ⟨hindent, hsource, hok, hnotes, hrest, hcount⟩ : (tokens.getD 3 stop.1).kind = .indent ∧
      tokens = tokens.take 3 ++ tokens.getD 3 stop.1 :: tokens.drop 4 ∧ reply.outcome.isOk = true ∧
        reply.notes = [] ∧ reply.rest = [] ∧ reply.outcome.toOption.map List.length = some 2 := by
    decide +kernel
  obtain ⟨hscan, hparse, hdedent, hne⟩ : (Token.Scan.ofSource source).diagnostics = [] ∧
      (Parse.ofTokens (Token.Scan.ofSource source).tokens).diagnostics = [] ∧
        Token.behindDedent 0 (tokens.drop 4) = some (tokens.drop 8) ∧ tokens.drop 8 ≠ [] := by
    decide +kernel
  obtain ⟨content, h⟩ := exists_gives hok hnotes
  rw [hrest] at h
  rw [show reply = ⟨.ok content, [], []⟩ from h] at hcount
  exact ⟨hscan, hparse, _, content, hsource, hindent, h, Option.some.inj hcount, hdedent, hne⟩

end Offside.Grammar
