import Offside.Proofs.Grammar.Blocks
import Offside.Proofs.Grammar.ExpressionRoundTrip

/-!
# Programs written canonically are read back

A statement of the grammar whose expressions some quiet runs gave is given on its canonical writing, if no word follows
that would go on with it.  The main result says so of whole programs: the canonical writing of a program that was parsed
without a fault is parsed to the same program without a fault.
-/

namespace Offside

/-! ## Writings of lists -/

theorem Stmt.listTokens_eq_flatMap (ss : List Stmt) : Stmt.listTokens ss = ss.flatMap Stmt.tokens :=
  eq_flatMap_of_cons rfl (fun _ _ => rfl) ss

theorem Stmt.methodTokens_eq_flatMap (decls : List (Function Stmt)) :
    Stmt.methodTokens decls = decls.flatMap Stmt.functionTokens :=
  eq_flatMap_of_cons rfl (fun _ _ => rfl) decls

namespace Grammar

open Offside.Grammar.Parser

variable {α : Type} {tokens rest : List Token} {content program : List Stmt} {elifs cases : List (Expr × List Stmt)}
  {otherwise default : Option (List Stmt)} {caught : Option (Handler Stmt)} {decl : Function Stmt} {name : Ident}

/-! ## First tokens -/

/-- The tokens start with something that neither ends a block nor goes on with a statement. -/
def StartsItem (tokens : List Token) : Prop :=
  tokens ≠ [] ∧ nextKind tokens ≠ .dedent ∧ goesOn (nextKind tokens) = false

theorem StartsItem.append (h : StartsItem tokens) : StartsItem (tokens ++ rest) := by
  obtain ⟨hne, hdedent, hgoes⟩ := h
  refine ⟨by simp [hne], ?_, ?_⟩
  · rwa [nextKind_append hne]
  · rwa [nextKind_append hne]

theorem startsItem_expr (e : Expr) : StartsItem e.tokens := by
  have hstart := isStart_tokens e
  refine ⟨tokens_ne_nil e, ne_of_isStart hstart rfl, ?_⟩
  generalize nextKind e.tokens = kind at hstart ⊢
  cases kind with
  | keyword word => cases word <;> first | rfl | cases hstart
  | _ => rfl

theorem startsItem_function (decl : Function Stmt) : StartsItem (Stmt.functionTokens decl) := by
  obtain ⟨name, params, body, isAsync, isGenerator⟩ := decl
  rw [Stmt.functionTokens]
  cases isAsync with
  | true => exact ⟨by simp, by simp, rfl⟩
  | false => exact ⟨by simp, by simp, rfl⟩

theorem startsItem_stmt (s : Stmt) : StartsItem s.tokens := by
  cases s with
  | expression value =>
    rw [Stmt.tokens]
    exact (startsItem_expr value).append
  | function decl =>
    rw [Stmt.tokens]
    exact startsItem_function decl
  | declare binding =>
    rw [Stmt.tokens]
    cases binding <;> exact ⟨by simp, by simp, rfl⟩
  | _ =>
    rw [Stmt.tokens]
    exact ⟨by simp, by simp, rfl⟩

/-! ## Bodies -/

theorem gives_blockOf_flatMap {item : Parser α} {write : α → List Token} {stop : Eof} {values : List α}
    (hstarts : ∀ a, StartsItem (write a)) (hreads : ∀ a ∈ values, Reads (goesOn · = false) item write a) {rounds : Nat}
    (hrounds : values.length < rounds) :
    Gives (blockOf item rounds) stop (values.flatMap write ++ Token.ofKind .dedent :: rest) values rest := by
  have hitems : Gives (many (blockItem item) rounds) stop (values.flatMap write ++ Token.ofKind .dedent :: rest)
      (values.map some) (Token.ofKind .dedent :: rest) := by
    refine gives_many_flatMap (goesOn · = false) (fun a hmem rest hgoes => ?_) (fun a _ => (hstarts a).append.2.2) rfl
      rfl hrounds
    refine (hreads a hmem hgoes).blockItem ?_
    rintro (hdedent | hnil)
    · exact (hstarts a).append.2.1 hdedent
    · exact (hstarts a).append.1 hnil
  have hgives : Gives (blockOf item rounds) stop (values.flatMap write ++ Token.ofKind .dedent :: rest)
      ((values.map some).filterMap id) rest := hitems.bind (Takes.cons.accept_bind .pure)
  rwa [List.filterMap_map, Function.id_comp, List.filterMap_some] at hgives

/-- A statement is read back from its canonical writing, if no word follows that goes on with it. -/
abbrev ReadsStmt (s : Stmt) : Prop := ReadsDeep (goesOn · = false) declaration Stmt.tokens s

/-- Every statement of a body is read back. -/
def ReadsBody (content : List Stmt) : Prop := ∀ s ∈ content, ReadsStmt s

theorem ReadsBody.inside (h : ReadsBody content) : ∀ᶠ m in Filter.atTop, ∀ s ∈ content,
    Reads (goesOn · = false) (Inner.ofDepth m).declaration Stmt.tokens s :=
  eventually_forall_mem fun s hs => (h s hs).inside fun _ => rfl

theorem ReadsBody.block (h : ReadsBody content) :
    ∀ᶠ m in Filter.atTop, ∀ {stop : Eof} {rest : List Token}, Gives (block (Inner.ofDepth m)) stop
      (Stmt.listTokens content ++ Token.ofKind .dedent :: rest) content rest := by
  filter_upwards [h.inside, eventually_lt_rounds content.length] with m h hrounds stop rest
  rw [Stmt.listTokens_eq_flatMap]
  exact gives_blockOf_flatMap startsItem_stmt h hrounds

theorem body_append (content rest : List Token) : Token.body content ++ rest =
    .ofKind Symbol.colon :: .ofKind .indent :: (content ++ .ofKind .dedent :: rest) := by
  simp [Token.body]

theorem ReadsBody.body (h : ReadsBody content) :
    ∀ᶠ m in Filter.atTop, ∀ {heading : Heading} {stop : Eof} {rest : List Token},
      Gives (body (Inner.ofDepth m) heading) stop (Token.body (Stmt.listTokens content) ++ rest) content rest := by
  filter_upwards [h.block] with m h heading stop rest
  rw [body_append]
  exact Takes.cons.expect_bind (Takes.cons.accept_bind h)

/-- A body that may be left out is read back if it is there. -/
def ReadsBody? (content : Option (List Stmt)) : Prop := ∀ body, content = some body → ReadsBody body

theorem ReadsBody?.afterToken {content : Option (List Stmt)} (h : ReadsBody? content) :
    ∀ᶠ m in Filter.atTop, ∀ {word : Keyword} {heading : Heading} {stop : Eof} {rest : List Token},
      nextKind rest ≠ .keyword word → Gives (afterToken word (body (Inner.ofDepth m) heading)) stop
        (Stmt.bodyTokens? word content ++ rest) content rest := by
  filter_upwards [eventually_forall_some fun body hbody => (h body hbody).body] with m h word heading stop rest hnone
  rw [gives_afterToken (by simp)]
  cases content with
  | none =>
    rw [Stmt.bodyTokens?]
    exact Or.inr ⟨hnone, rfl, rfl⟩
  | some content =>
    rw [Stmt.bodyTokens?, List.cons_append]
    exact Or.inl ⟨_, content, Takes.cons, h content rfl, rfl⟩

theorem nextKind_bodyTokens?_ne {word other : Keyword} {content : Option (List Stmt)} (hword : word ≠ other)
    (hrest : nextKind rest ≠ .keyword other) : nextKind (Stmt.bodyTokens? word content ++ rest) ≠ .keyword other := by
  cases content with
  | none =>
    rw [Stmt.bodyTokens?]
    exact hrest
  | some content =>
    rw [Stmt.bodyTokens?]
    simpa using hword

/-- An expression and the body it decides on are read back. -/
def ReadsClause (found : Expr × List Stmt) : Prop := ReadsExpr expression found.1 ∧ ReadsBody found.2

theorem Stmt.clauseTokens_eq_flatMap (word : Keyword) (clauses : List (Expr × List Stmt)) :
    Stmt.clauseTokens word clauses = clauses.flatMap (Stmt.clauseTokenList word) :=
  eq_flatMap_of_cons rfl (fun _ _ => rfl) clauses

/-- Clauses are read back behind their words. -/
theorem eventually_gives_clause {clauses : List (Expr × List Stmt)} (hreads : ∀ found ∈ clauses, ReadsClause found)
    (word : Keyword) : ∀ᶠ m in Filter.atTop, ∀ found ∈ clauses, ∀ (heading : Heading) (stop : Eof) (rest : List Token),
      ∃ tail, Takes word (Stmt.clauseTokenList word found ++ rest) tail ∧
        Gives (clause (Inner.ofDepth m) heading) stop tail found rest := by
  refine eventually_forall_mem fun found hmem => ?_
  obtain ⟨hvalue, hcontent⟩ := hreads found hmem
  filter_upwards [hvalue, hcontent.body] with m hvalue hcontent heading stop rest
  obtain ⟨value, content⟩ := found
  rw [Stmt.clauseTokenList, List.cons_append, List.append_assoc]
  exact ⟨_, Takes.cons, (hvalue rfl).bind (hcontent.bind .pure)⟩

theorem eventually_gives_elifs (hreads : ∀ found ∈ elifs, ReadsClause found) :
    ∀ᶠ m in Filter.atTop, ∀ {stop : Eof} {rest : List Token}, nextKind rest ≠ .keyword .kwElif →
      Gives (many (afterToken Keyword.kwElif (clause (Inner.ofDepth m) .elifCondition)) (Inner.ofDepth m).rounds) stop
        (Stmt.clauseTokens .kwElif elifs ++ rest) elifs rest := by
  filter_upwards [eventually_gives_clause hreads .kwElif, eventually_lt_rounds elifs.length]
    with m hreads hrounds stop rest hnext
  have helifs : Gives (many (afterToken Keyword.kwElif (clause (Inner.ofDepth m) .elifCondition))
      (Inner.ofDepth m).rounds) stop (elifs.flatMap (Stmt.clauseTokenList .kwElif) ++ rest) (elifs.map id) rest := by
    refine gives_many_flatMap (fun _ => True) (fun found hmem rest _ => ?_) (fun _ _ => trivial) trivial
      ((gives_afterToken (by simp)).2 (Or.inr ⟨hnext, rfl, rfl⟩)) hrounds
    obtain ⟨tail, htake, hclause⟩ := hreads found hmem .elifCondition stop rest
    exact (gives_afterToken (by simp)).2 (Or.inl ⟨tail, found, htake, hclause, rfl⟩)
  rwa [List.map_id, ← Stmt.clauseTokens_eq_flatMap] at helifs

/-- By induction on the cases, each of which takes a round. -/
theorem gives_casesOf_tokens {test : Parser (Expr × List Stmt)} {otherwise : Parser (List Stmt)} {stop : Eof}
    (hcases : ∀ found ∈ cases, ∀ rest, ∃ tail,
      Takes Keyword.kwCase (Stmt.clauseTokenList .kwCase found ++ rest) tail ∧ Gives test stop tail found rest)
    (hdefault : ∀ content, default = some content → ∀ rest,
      Gives otherwise stop (Token.body (Stmt.listTokens content) ++ rest) content rest)
    {rounds : Nat} (hrounds : cases.length < rounds) : Gives (casesOf test otherwise rounds false) stop
      (Stmt.clauseTokens .kwCase cases ++ (Stmt.bodyTokens? .kwDefault default ++ Token.ofKind .dedent :: rest))
      (cases, default) (Token.ofKind .dedent :: rest) := by
  induction cases generalizing rounds with
  | nil =>
    rw [Stmt.clauseTokens, List.nil_append]
    cases rounds with
    | zero => exact absurd hrounds (Nat.not_lt_zero _)
    | succ rounds =>
      cases default with
      | none => rfl
      | some content =>
        have hend : Gives (casesOf test otherwise rounds true) stop (Token.ofKind .dedent :: rest) ([], none)
            (Token.ofKind .dedent :: rest) := by
          cases rounds <;> rfl
        exact Takes.casesOf_default Takes.cons (hdefault content rfl _) hend
  | cons found cases ih =>
    cases rounds with
    | zero => exact absurd hrounds (Nat.not_lt_zero _)
    | succ rounds =>
      rw [Stmt.clauseTokens, List.append_assoc]
      obtain ⟨tail, htake, hclause⟩ := hcases found (by simp) _
      exact htake.casesOf_case hclause
        (ih (fun other hmem => hcases other (by simp [hmem])) (Nat.lt_of_succ_lt_succ hrounds))

/-- The handler of a `try` is read back if it is there. -/
def ReadsHandler (caught : Option (Handler Stmt)) : Prop := ∀ handler, caught = some handler → ReadsBody handler.body

theorem ReadsHandler.afterToken (h : ReadsHandler caught) :
    ∀ᶠ m in Filter.atTop, ∀ {stop : Eof} {rest : List Token}, nextKind rest ≠ .keyword .kwCatch →
      Gives (afterToken Keyword.kwCatch (handler (Inner.ofDepth m))) stop (Stmt.handlerTokens caught ++ rest) caught
        rest := by
  filter_upwards [eventually_forall_some fun handler hsome => (h handler hsome).body] with m h stop rest hnone
  rw [gives_afterToken (by simp)]
  cases caught with
  | none =>
    rw [Stmt.handlerTokens]
    exact Or.inr ⟨hnone, rfl, rfl⟩
  | some caught =>
    obtain ⟨param, content⟩ := caught
    rw [Stmt.handlerTokens, List.cons_append, List.append_assoc]
    refine Or.inl ⟨_, _, Takes.cons, gives_peek_bind.2 ?_, rfl⟩
    cases param with
    | none => exact (h ⟨none, content⟩ rfl).bind .pure
    | some name => exact gives_advance_bind.2 ((h ⟨some name, content⟩ rfl).bind .pure)

/-! ## Functions -/

/-- The parts of a function are read back. -/
def ReadsFunction (decl : Function Stmt) : Prop :=
  (∀ param ∈ decl.params, ∀ e, param.default = some e → ReadsExpr Inner.unary e) ∧
    (∀ param ∈ decl.params.dropLast, param.kind = .standard) ∧ ReadsBody decl.body

/-- What stands behind the word `function`. -/
def functionTail (decl : Function Stmt) : List Token :=
  (if decl.isGenerator then [.ofKind Symbol.star] else []) ++ decl.name.token :: .ofKind Symbol.leftParen ::
    (Token.separated (Expr.paramTokens decl.params) ++ .ofKind Symbol.rightParen ::
      Token.body (Stmt.listTokens decl.body))

theorem functionTokens_eq (decl : Function Stmt) : Stmt.functionTokens decl =
    (if decl.isAsync then [Token.ofKind Keyword.kwAsync] else []) ++ .ofKind Keyword.kwFunction :: functionTail decl := by
  obtain ⟨name, params, body, isAsync, isGenerator⟩ := decl
  rw [Stmt.functionTokens]
  rfl

theorem gives_accept_tokens {kind : Token.Kind} (hkind : kind ≠ .eof) {taken : Bool} {stop : Eof}
    (hnext : nextKind rest ≠ kind) :
    Gives (accept kind) stop ((if taken then [Token.ofKind kind] else []) ++ rest) taken rest := by
  cases taken with
  | true => exact (gives_accept_true hkind).2 Takes.cons
  | false => exact gives_accept_false.2 ⟨hnext, rfl⟩

theorem ReadsFunction.tail (h : ReadsFunction decl) : ∀ᶠ m in Filter.atTop, ∀ {stop : Eof} {rest : List Token},
      Gives (functionDeclaration (Inner.ofDepth m) decl.isAsync) stop (functionTail decl ++ rest) decl rest := by
  obtain ⟨hdefaults, hstandard, hbody⟩ := h
  have hdefaults := eventually_forall_mem fun param hmem => eventually_forall_some (hdefaults param hmem)
  filter_upwards [hdefaults, eventually_lt_rounds decl.params.length, hbody.body]
    with m hdefaults hrounds hbody stop rest
  simp only [functionTail, List.append_assoc, List.cons_append]
  have hparams (rest : List Token) : Gives (parameterClause (Inner.ofDepth m)) stop
      (.ofKind Symbol.leftParen :: (Token.separated (Expr.paramTokens decl.params) ++ .ofKind Symbol.rightParen :: rest))
      decl.params rest :=
    Takes.cons.accept_bind ((gives_parameters_separated hdefaults hstandard hrounds rfl (by simp) rfl).bind
      (Takes.cons.expect_bind .pure))
  exact (gives_accept_tokens (by simp) (by simp [Ident.token])).bind
    ((isIdent_token decl.name).bind ((hparams _).bind (hbody.bind .pure)))

theorem ReadsFunction.method (h : ReadsFunction decl) :
    ReadsDeep (goesOn · = false) method Stmt.functionTokens decl := by
  filter_upwards [h.tail] with m h stop rest _
  rw [functionTokens_eq, List.append_assoc, List.cons_append]
  exact (gives_accept_tokens (by simp) (by simp)).bind (Takes.cons.expect_bind h)

/-! ## Statements -/

theorem ne_of_goesOn {kind other : Token.Kind} (h : goesOn kind = false) (hother : goesOn other = true) :
    kind ≠ other := by
  rintro rfl
  rw [hother] at h
  cases h

section
variable {content : List Stmt} {condition value : Expr}

theorem readsStmt_branch (hcondition : ReadsExpr expression condition) (hcontent : ReadsBody content)
    (helifs : ∀ found ∈ elifs, ReadsClause found) (hotherwise : ReadsBody? otherwise) :
    ReadsStmt (.branch condition content elifs otherwise) := by
  filter_upwards [hcondition, hcontent.body, eventually_gives_elifs helifs, hotherwise.afterToken]
    with m hcondition hcontent helifs hotherwise stop rest hgoes
  simp only [Stmt.tokens, List.cons_append, List.append_assoc]
  have hnext : nextKind (Stmt.bodyTokens? .kwElse otherwise ++ rest) ≠ .keyword .kwElif :=
    nextKind_bodyTokens?_ne (by simp) (ne_of_goesOn hgoes rfl)
  exact Takes.cons.declaration_word rfl ((hcondition rfl).bind (hcontent.bind ((helifs hnext).bind
    ((hotherwise (ne_of_goesOn hgoes rfl)).bind .pure))))

theorem readsStmt_forLoop (hvalue : ReadsExpr expression value) (hcontent : ReadsBody content) :
    ReadsStmt (.forLoop name value content) := by
  filter_upwards [hvalue, hcontent.body] with m hvalue hcontent stop rest _
  simp only [Stmt.tokens, List.cons_append, List.append_assoc]
  exact Takes.cons.declaration_word rfl ((isIdent_token name).bind
    (Takes.cons.expect_bind ((hvalue rfl).bind (hcontent.bind .pure))))

theorem readsStmt_whileLoop (hcondition : ReadsExpr expression condition) (hcontent : ReadsBody content) :
    ReadsStmt (.whileLoop condition content) := by
  filter_upwards [hcondition, hcontent.body] with m hcondition hcontent stop rest _
  simp only [Stmt.tokens, List.cons_append, List.append_assoc]
  exact Takes.cons.declaration_word rfl ((hcondition rfl).bind (hcontent.bind .pure))

theorem readsStmt_doLoop (hcontent : ReadsBody content) (hcondition : ReadsExpr expression condition) :
    ReadsStmt (.doLoop content condition) := by
  filter_upwards [hcontent.body, hcondition] with m hcontent hcondition stop rest _
  simp only [Stmt.tokens, List.cons_append, List.append_assoc, List.nil_append]
  exact Takes.cons.declaration_word rfl (hcontent.bind (Takes.cons.expect_bind
    ((hcondition rfl).bind (Takes.cons.expect_bind .pure))))

theorem readsStmt_switch
    (hvalue : ReadsExpr expression value) (hcases : ∀ found ∈ cases, ReadsClause found) (hdefault : ReadsBody? default) :
    ReadsStmt (.switch value cases default) := by
  filter_upwards [hvalue, eventually_gives_clause hcases .kwCase, eventually_lt_rounds cases.length,
    eventually_forall_some fun body hbody => (hdefault body hbody).body]
    with m hvalue hcases hrounds hdefault stop rest _
  simp only [Stmt.tokens, List.cons_append, List.append_assoc, body_append]
  exact Takes.cons.declaration_word rfl ((hvalue rfl).bind (Takes.cons.expect_bind (Takes.cons.expect_bind
    ((gives_casesOf_tokens (fun found hmem => hcases found hmem _ stop) (fun content hsome _ => hdefault content hsome)
      hrounds).bind (Takes.cons.accept_bind .pure)))))

theorem readsStmt_tryBlock {finalizer : Option (List Stmt)}
    (hcontent : ReadsBody content) (hcaught : ReadsHandler caught) (hotherwise : ReadsBody? otherwise)
    (hfinalizer : ReadsBody? finalizer) : ReadsStmt (.tryBlock content caught otherwise finalizer) := by
  filter_upwards [hcontent.body, hcaught.afterToken, hotherwise.afterToken, hfinalizer.afterToken]
    with m hcontent hcaught hotherwise hfinalizer stop rest hgoes
  simp only [Stmt.tokens, List.cons_append, List.append_assoc]
  have hnext : nextKind (Stmt.bodyTokens? .kwFinally finalizer ++ rest) ≠ .keyword .kwElse :=
    nextKind_bodyTokens?_ne (by simp) (ne_of_goesOn hgoes rfl)
  have hnext' : nextKind (Stmt.bodyTokens? .kwElse otherwise ++ (Stmt.bodyTokens? .kwFinally finalizer ++ rest)) ≠
      .keyword .kwCatch :=
    nextKind_bodyTokens?_ne (by simp) (nextKind_bodyTokens?_ne (by simp) (ne_of_goesOn hgoes rfl))
  exact Takes.cons.declaration_word rfl (hcontent.bind ((hcaught hnext').bind ((hotherwise hnext).bind
    ((hfinalizer (ne_of_goesOn hgoes rfl)).bind .pure))))

theorem readsStmt_function (hreads : ReadsFunction decl) : ReadsStmt (.function decl) := by
  filter_upwards [hreads.tail] with m htail stop rest _
  rw [Stmt.tokens, functionTokens_eq, List.append_assoc, List.cons_append]
  cases hasync : decl.isAsync with
  | true =>
    rw [hasync] at htail
    exact Takes.cons.declaration_async Takes.cons htail
  | false =>
    rw [hasync] at htail
    exact Takes.cons.declaration_word rfl (gives_map.2 ⟨decl, htail, rfl⟩)

theorem readsStmt_classDecl {parent : Option Expr} {methods : List (Function Stmt)}
    (hparent : ∀ e, parent = some e → ReadsExpr call e) (hmethods : ∀ decl ∈ methods, ReadsFunction decl) :
    ReadsStmt (.classDecl name parent methods) := by
  filter_upwards [eventually_forall_some hparent, eventually_forall_mem fun decl hmem => (hmethods decl hmem).method,
    eventually_lt_rounds methods.length] with m hparent hmethods hrounds stop rest _
  simp only [Stmt.tokens, List.cons_append, List.append_assoc, body_append, Stmt.methodTokens_eq_flatMap]
  have hsuperclass (rest : List Token) : Gives (superclass (Inner.ofDepth m)) stop
      (Expr.tokens? [.ofKind Keyword.kwExtends] parent ++ .ofKind Symbol.colon :: rest) parent
      (.ofKind Symbol.colon :: rest) :=
    gives_accept_bind_of_ne (by cases parent <;> simp [Expr.tokens?])
      (gives_afterToken_tokens? (by simp) (fun e he => hparent e he rfl) (by simp))
  have hblock : Gives (afterToken .indent (blockOf (method (Inner.ofDepth m)) (Inner.ofDepth m).rounds)) stop _
      (some methods) rest :=
    Takes.cons.accept_bind ((gives_blockOf_flatMap startsItem_function hmethods hrounds).bind .pure)
  exact Takes.cons.declaration_word rfl ((isIdent_token name).bind
    ((hsuperclass _).bind (Takes.cons.expect_bind (hblock.bind .pure))))

theorem worded?_binding (inner : Inner) (binding : Binding) :
    worded? inner binding.word = some (variableDeclaration inner binding) := by
  cases binding <;> rfl

theorem readsStmt_declare {binding : Binding} {init : Option Expr}
    (hinit : ∀ e, init = some e → ReadsExpr expression e) (hsome : binding = .constant → init.isSome = true) :
    ReadsStmt (.declare binding name init) := by
  filter_upwards [eventually_forall_some hinit] with m hinit stop rest _
  simp only [Stmt.tokens, List.cons_append, List.append_assoc, List.nil_append]
  have hconstant : ¬ (binding = .constant ∧ init = none) := by
    rintro ⟨hbinding, rfl⟩
    cases hsome hbinding
  refine Takes.cons.declaration_word (worded?_binding _ binding) ((isIdent_token name).bind
    ((gives_afterToken_tokens? (by simp) (fun e he => hinit e he rfl) (by simp)).bind ?_))
  rw [if_neg (by simpa using hconstant)]
  exact Takes.cons.expect_bind .pure

theorem eventually_gives_optionalValue {ending : Ending} {value : Option Expr}
    (hvalue : ∀ e, value = some e → ReadsExpr expression e) : ∀ᶠ m in Filter.atTop, ∀ {stop : Eof} {rest : List Token},
      Gives (optionalValue (Inner.ofDepth m) ending) stop
        (Expr.tokens? [] value ++ Token.ofKind Symbol.semicolon :: rest) value rest := by
  filter_upwards [eventually_forall_some hvalue] with m hvalue stop rest
  apply gives_check_bind.2
  cases value with
  | none => exact Takes.cons.expect_bind .pure
  | some e =>
    have hopen : nextKind e.tokens ≠ .symbol .semicolon := ne_of_isStart (isStart_tokens e) rfl
    rw [Expr.tokens?, List.nil_append, nextKind_tokens_append, if_neg (mt beq_iff_eq.1 hopen)]
    exact Gives.bind (gives_map.2 ⟨e, hvalue e rfl rfl, rfl⟩) (Takes.cons.expect_bind .pure)

theorem gives_raw_quoting (text : String) {stop : Eof} :
    Gives raw stop (Token.quoting text :: Token.ofKind Symbol.semicolon :: rest) (.raw text) rest := by
  have hraw : Gives raw stop (Token.quoting text :: Token.ofKind Symbol.semicolon :: rest)
      (.raw (String.ofList (quotedText (Token.quoting text)))) rest :=
    gives_peek_bind.2 (gives_advance_bind.2 (Takes.cons.expect_bind .pure))
  rwa [quotedText_quoting, String.ofList_toList] at hraw

theorem readsStmt_expression (hvalue : ReadsExpr expression value) : ReadsStmt (.expression value) := by
  filter_upwards [hvalue] with m hvalue stop rest _
  rw [Stmt.tokens, List.append_assoc]
  refine ExpressionAt.declaration ⟨?_, fun word hword => ?_, fun hasync => ?_⟩
    ((hvalue rfl).bind (Takes.cons.expect_bind .pure))
  · rw [nextKind_tokens_append]
    exact ne_of_isStart (isStart_tokens value) rfl
  · rw [nextKind_tokens_append] at hword
    have hstart := isStart_tokens value
    rw [hword] at hstart
    cases word <;> first | rfl | cases hstart
  · rw [nextKind_tokens_append] at hasync
    rw [second_of_async value _ hasync]
    simp

end

/-! ## The statements of the grammar -/

section
variable {source : List Token} {quiet : Prop} (hquiet : quiet)
include hquiet

theorem GivenAt.readsCall {e : Expr} (h : GivenAt source quiet call 16 e) : ReadsExpr call e :=
  (h.given hquiet).readsExpr (fun hsteady => (conducts_call hsteady (Nat.le_refl _)).same)
    (rewritesAt_call (rewrites_ofDepth source.length)) (Nat.le_refl _)

theorem GivenAt.readsExpr {e : Expr} (h : Held source quiet e) : ReadsExpr expression e :=
  (h.given hquiet).readsExpr (fun hsteady => (conducts_expression hsteady (Nat.le_refl _)).same)
    (rewritesAt_expression (rewrites_ofDepth source.length)) (Nat.le_refl _)

theorem HeadDerives.reads (h : HeadDerives source quiet decl) (hbody : ReadsBody decl.body) : ReadsFunction decl :=
  ⟨fun param hmem e he => ((h.params.default param hmem e he).given hquiet).readsUnary
    (rewrites_ofDepth (source.length + 1)) (Nat.lt_succ_self _), h.params.standard, hbody⟩

theorem StmtDerives.reads {s : Stmt} (h : StmtDerives source quiet s) : ReadsStmt s := by
  induction h with
  | expression hvalue => exact readsStmt_expression (hvalue.readsExpr hquiet)
  | raw _ _ =>
    refine .of_forall fun m stop rest _ => ?_
    rw [Stmt.tokens]
    exact Takes.cons.declaration_word rfl (gives_raw_quoting _)
  | function hhead _ ih => exact readsStmt_function (hhead.reads hquiet ih)
  | ret hvalue | yield hvalue =>
    filter_upwards [eventually_gives_optionalValue fun e he => (hvalue e he).readsExpr hquiet] with m hvalue stop rest _
    rw [Stmt.tokens, List.cons_append, List.append_assoc]
    exact Takes.cons.declaration_word rfl (gives_map.2 ⟨_, hvalue, rfl⟩)
  | throw hvalue =>
    filter_upwards [hvalue.readsExpr hquiet] with m hvalue stop rest _
    rw [Stmt.tokens, List.cons_append, List.append_assoc]
    exact Takes.cons.declaration_word rfl ((hvalue rfl).bind (Takes.cons.expect_bind .pure))
  | classDecl _ hparent hheads _ ih =>
    exact readsStmt_classDecl (fun e he => (hparent e he).readsCall hquiet)
      fun decl hdecl => (hheads decl hdecl).reads hquiet (ih decl hdecl)
  | block _ ih =>
    filter_upwards [ReadsBody.block ih] with m hblock stop rest _
    simp only [Stmt.tokens, List.cons_append, List.append_assoc, List.nil_append]
    exact Takes.cons.declaration_block hblock
  | whileLoop hcondition _ ih => exact readsStmt_whileLoop (hcondition.readsExpr hquiet) ih
  | doLoop _ hcondition ih => exact readsStmt_doLoop ih (hcondition.readsExpr hquiet)
  | forLoop _ hiterable _ ih => exact readsStmt_forLoop (hiterable.readsExpr hquiet) ih
  | tryBlock _ _ _ _ _ ihbody ihcaught ihotherwise ihfinalizer =>
    exact readsStmt_tryBlock ihbody ihcaught ihotherwise ihfinalizer
  | branch hcondition _ htests _ _ ihbody ihclauses ihotherwise =>
    exact readsStmt_branch (hcondition.readsExpr hquiet) ihbody
      (fun clause hclause => ⟨(htests clause hclause).readsExpr hquiet, ihclauses clause hclause⟩) ihotherwise
  | switch hvalue htests _ _ ihclauses ihdefault =>
    exact readsStmt_switch (hvalue.readsExpr hquiet)
      (fun clause hclause => ⟨(htests clause hclause).readsExpr hquiet, ihclauses clause hclause⟩) ihdefault
  | breakLoop | continueLoop =>
    refine .of_forall fun m stop rest _ => ?_
    rw [Stmt.tokens]
    exact Takes.cons.declaration_word rfl (Takes.cons.expect_bind .pure)
  | declare _ hinit hsome => exact readsStmt_declare (fun e he => (hinit e he).readsExpr hquiet) hsome

end

/-! ## Programs -/

/-- Statements that are read back are the items of their canonical writings. -/
theorem eventually_gives_topItems (hreads : ReadsBody program) (stop : Eof) :
    ∀ᶠ m in Filter.atTop, Gives (many (topItem (Inner.ofDepth m).declaration) m) stop (program.flatMap Stmt.tokens)
      (program.map some) [] := by
  filter_upwards [hreads.inside, Filter.eventually_gt_atTop program.length] with m hreads hm
  have hitems : Gives (many (topItem (Inner.ofDepth m).declaration) m) stop (program.flatMap Stmt.tokens ++ [])
      (program.map some) [] := by
    refine gives_many_flatMap (goesOn · = false) (fun s hmem rest hgoes => ?_)
      (fun s _ => (startsItem_stmt s).append.2.2) rfl rfl hm
    exact (hreads s hmem hgoes).topItem (startsItem_stmt s).append.1
  rwa [List.append_nil] at hitems

/-- A list of statements that are read back is parsed from its canonical writing, at no special depth. -/
theorem gives_topItems_flatMap (hreads : ReadsBody program) (stop : Eof) :
    Gives (topItems (program.flatMap Stmt.tokens)) stop (program.flatMap Stmt.tokens) (program.map some) [] := by
  obtain ⟨m, hgives, hm⟩ := ((eventually_gives_topItems hreads stop).and
    (Filter.eventually_gt_atTop (program.flatMap Stmt.tokens).length)).exists
  have hinner := (Inner.tied_ofDepth _).orderly_alone ((Inner.tied_ofDepth m).le hm) stop (program.flatMap Stmt.tokens)
  have hsame := (conducts_many (.inl rfl) (fun rest hrest => conducts_topItem
    (hinner.declaration (Nat.lt_succ_of_le hrest)).enclose) rfl (.inl ⟨Nat.lt_succ_self _, hm⟩)).same
  exact hsame.symm.trans hgives

/-- Their tokens spell them, so none is the end of a source. -/
theorem ne_eof_of_mem_tokens (hreads : ReadsBody program) (stop : Eof) :
    ∀ token ∈ program.flatMap Stmt.tokens, token.kind ≠ .eof := by
  obtain ⟨⟨-, hwords⟩, -⟩ := value_of_gives_topItems (gives_topItems_flatMap hreads stop)
  obtain ⟨used, closing, hused, hword, -⟩ := hwords trivial
  have hprogram : (program.map some).filterMap id = program := by simp
  simp only [← prod_map_filterMap_id, hprogram, ← Stmt.spellings_eq_map] at hword
  rw [List.append_nil] at hused
  rw [hused]
  have hplain := (moves_prod (fun part hmem => moves_stmts program part hmem 0) _ hword).1
  exact fun token hmem => hplain token (List.mem_append_left closing hmem)

theorem ofBody_flatMap (hreads : ReadsBody program) (stop : Eof) :
    Parse.ofBody stop.1 (program.flatMap Stmt.tokens) = ⟨program, []⟩ := by
  rw [ofBody_eq (gives_topItems_flatMap hreads stop)]
  simp

/-- A program that some tokens are parsed to without a fault is parsed again from its canonical writing. -/
theorem Parse.ofTokens_tokens_append {tokens : List Token} {program : Program}
    (h : Parse.ofTokens tokens = ⟨program, []⟩) {stop : Token} (hstop : stop.kind = .eof) :
    Parse.ofTokens (program.tokens ++ [stop]) = ⟨program, []⟩ := by
  have hreads : ReadsBody program := by
    intro s hs
    have hderives := stmtDerives_ofTokens tokens s (by rwa [h])
    exact hderives.reads (by rw [h])
  have hplain : ∀ token ∈ program.flatMap Stmt.tokens, decide (token.kind ≠ .eof) = true :=
    fun token hmem => decide_eq_true (ne_eof_of_mem_tokens hreads ⟨stop, hstop⟩ token hmem)
  obtain ⟨second, hagain⟩ := exists_ofTokens_eq (program.tokens ++ [stop])
  rw [hagain, Program.tokens, Stmt.listTokens_eq_flatMap, List.takeWhile_append_of_pos hplain]
  simpa [hstop] using ofBody_flatMap hreads second

/-- The canonical writing of a class and of a switch whose default comes first differs from this source. -/
theorem Parse.ofTokens_tokens_append_switch :
    let parse := Parse.ofTokens (Token.Scan.ofSource ("class A(B):\n    function go:\n        return !x;\n" ++
      "switch y:\n    default: f([x, y,]);\n    case z: g(r\"/a/i\");\n")).tokens
    parse = ⟨parse.program, []⟩ ∧ Parse.ofTokens (parse.program.tokens ++ [Token.ofKind .eof]) = ⟨parse.program, []⟩ := by
  intro parse
  have hquiet : parse.diagnostics = [] := by decide +kernel
  have hparse : parse = ⟨parse.program, []⟩ := congrArg (Parse.mk parse.program) hquiet
  exact ⟨hparse, Parse.ofTokens_tokens_append hparse rfl⟩

end Grammar

end Offside
