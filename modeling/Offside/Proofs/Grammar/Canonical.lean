import Offside.Proofs.Grammar.Words

/-!
# The canonical writing of a tree

One token list for each tree: every body is an indented block behind its colon, a function has its parentheses, a
class extends another behind `extends`, `not` is preferred to `!`, `default` comes last, and brackets hold no
layout and no trailing comma.  Names keep their lines; no other token has a place.
-/

namespace Offside

open Grammar

/-! ## Tokens -/

/-- The lexeme of a token that its kind tells. -/
def Token.Kind.text : Token.Kind → String
  | .keyword word => word.text
  | .symbol sign => sign.text
  | .identifier name => name
  | _ => ""

/-- A token of a kind, without a place. -/
def Token.ofKind (kind : Token.Kind) : Token := ⟨kind, kind.text, 0, 0, 0⟩

@[simp]
theorem Token.kind_ofKind (kind : Token.Kind) : (Token.ofKind kind).kind = kind := rfl

/-- A string token with a text between its quotes. -/
def Token.quoting (text : String) : Token := ⟨.string text, "\"" ++ text ++ "\"", 0, 0, 0⟩

def Ident.token (name : Ident) : Token := ⟨.identifier name.text, name.text, 0, 0, name.line⟩

/-- The token of a name behind a dot, which may be a reserved word. -/
def Ident.memberToken (name : Ident) : Token :=
  match Keyword.ofText? name.text with
  | some word => ⟨.keyword word, name.text, 0, 0, name.line⟩
  | none => name.token

def Literal.tokens : Literal → List Token
  | .number value => [.ofKind (.number value)]
  | .string value => [.ofKind (.string value)]
  | .boolean true => [.ofKind Keyword.kwTrue]
  | .boolean false => [.ofKind Keyword.kwFalse]
  | .null => [.ofKind Keyword.kwNull]
  | .undefined => [.ofKind Keyword.kwUndefined]
  | .regex pattern flags => [.ofKind (.identifier "r"), .quoting ("/" ++ pattern ++ "/" ++ flags)]

/-- A cast and its arrow. -/
def Ident.castTokens : Option Ident → List Token
  | none => []
  | some name => [name.token, .ofKind Symbol.arrow]

/-- Parts with a comma between each two. -/
def Token.separated : List (List Token) → List Token
  | [] => []
  | [part] => part
  | part :: next :: parts => part ++ .ofKind Symbol.comma :: Token.separated (next :: parts)

/-! ## Trees -/

mutual

/-- The canonical writing of an expression. -/
def Expr.tokens : Expr → List Token
  | .assign name value => name.token :: .ofKind Symbol.equal :: value.tokens
  | .binary op left right => left.tokens ++ .ofKind op.token :: right.tokens
  | .ternary condition yes no =>
    condition.tokens ++ .ofKind Keyword.kwThen :: (yes.tokens ++ Expr.tokens? [.ofKind Keyword.kwElse] no)
  | .lambda params body isAsync =>
    (if isAsync then [.ofKind Keyword.kwAsync] else []) ++
      .ofKind Keyword.kwLambda :: (Token.separated (Expr.paramTokens params) ++ .ofKind Symbol.colon :: body.tokens)
  | .call callee arguments =>
    callee.tokens ++ .ofKind Symbol.leftParen :: (Token.separated (Expr.tokenLists arguments) ++
      [.ofKind Symbol.rightParen])
  | .get object name => object.tokens ++ [.ofKind Symbol.dot, name.memberToken]
  | .set object name value =>
    object.tokens ++ .ofKind Symbol.dot :: name.memberToken :: .ofKind Symbol.equal :: value.tokens
  | .grouping inner => .ofKind Symbol.leftParen :: (inner.tokens ++ [.ofKind Symbol.rightParen])
  | .literal value => value.tokens
  | .array elements =>
    .ofKind Symbol.leftBracket :: (Token.separated (Expr.tokenLists elements) ++ [.ofKind Symbol.rightBracket])
  | .dictionary entries =>
    .ofKind Symbol.leftBrace :: (Token.separated (Expr.entryTokens entries) ++ [.ofKind Symbol.rightBrace])
  | .subscript object start colon stop =>
    object.tokens ++ .ofKind Symbol.leftBracket :: (Expr.tokens? [] start ++
      (if colon then [.ofKind Symbol.colon] else []) ++ Expr.tokens? [] stop ++ [.ofKind Symbol.rightBracket])
  | .assignSubscript object start colon stop value =>
    object.tokens ++ .ofKind Symbol.leftBracket :: (Expr.tokens? [] start ++
      (if colon then [.ofKind Symbol.colon] else []) ++ Expr.tokens? [] stop ++ .ofKind Symbol.rightBracket ::
        .ofKind Symbol.equal :: value.tokens)
  | .logical op left right => left.tokens ++ .ofKind op.token :: right.tokens
  | .unary op operand => .ofKind op.token :: operand.tokens
  | .updateAfter op target => target.tokens ++ [.ofKind op.token]
  | .updateBefore op target => .ofKind op.token :: target.tokens
  | .variable name => [name.token]
  | .worded op operand => .ofKind op.word :: operand.tokens

/-- An expression behind its lead, if it is there. -/
def Expr.tokens? (lead : List Token) : Option Expr → List Token
  | none => []
  | some e => lead ++ e.tokens

def Expr.tokenLists : List Expr → List (List Token)
  | [] => []
  | e :: es => e.tokens :: Expr.tokenLists es

def Expr.entryTokenList : Expr × Expr → List Token
  | (key, value) => key.tokens ++ .ofKind Symbol.colon :: value.tokens

def Expr.entryTokens : List (Expr × Expr) → List (List Token)
  | [] => []
  | entry :: entries => Expr.entryTokenList entry :: Expr.entryTokens entries

def Expr.paramTokenList : Param Expr → List Token
  | ⟨name, kind, default, cast⟩ =>
    Ident.castTokens cast ++ (if kind = .wildcard then [.ofKind Symbol.star] else []) ++
      name.token :: Expr.tokens? [.ofKind Symbol.equal] default

def Expr.paramTokens : List (Param Expr) → List (List Token)
  | [] => []
  | param :: params => Expr.paramTokenList param :: Expr.paramTokens params

end

theorem Expr.tokenLists_eq_map (es : List Expr) : Expr.tokenLists es = es.map Expr.tokens :=
  eq_map_of_cons rfl (fun _ _ => rfl) es

theorem Expr.entryTokens_eq_map (entries : List (Expr × Expr)) :
    Expr.entryTokens entries = entries.map Expr.entryTokenList :=
  eq_map_of_cons rfl (fun _ _ => rfl) entries

theorem Expr.paramTokens_eq_map (params : List (Param Expr)) :
    Expr.paramTokens params = params.map Expr.paramTokenList :=
  eq_map_of_cons rfl (fun _ _ => rfl) params

/-- The canonical writing of a body, told that of its statements. -/
def Token.body (content : List Token) : List Token :=
  .ofKind Symbol.colon :: .ofKind .indent :: (content ++ [.ofKind .dedent])

mutual

/-- The canonical writing of a statement. -/
def Stmt.tokens : Stmt → List Token
  | .expression value => value.tokens ++ [.ofKind Symbol.semicolon]
  | .raw code => [.ofKind Keyword.kwRaw, .quoting code, .ofKind Symbol.semicolon]
  | .function decl => Stmt.functionTokens decl
  | .ret value => .ofKind Keyword.kwReturn :: (Expr.tokens? [] value ++ [.ofKind Symbol.semicolon])
  | .throw value => .ofKind Keyword.kwThrow :: (value.tokens ++ [.ofKind Symbol.semicolon])
  | .yield value => .ofKind Keyword.kwYield :: (Expr.tokens? [] value ++ [.ofKind Symbol.semicolon])
  | .classDecl name superclass methods =>
    .ofKind Keyword.kwClass :: name.token :: (Expr.tokens? [.ofKind Keyword.kwExtends] superclass ++
      Token.body (Stmt.methodTokens methods))
  | .block body => .ofKind .indent :: (Stmt.listTokens body ++ [.ofKind .dedent])
  | .whileLoop condition body =>
    .ofKind Keyword.kwWhile :: (condition.tokens ++ Token.body (Stmt.listTokens body))
  | .doLoop body condition =>
    .ofKind Keyword.kwDo :: (Token.body (Stmt.listTokens body) ++ .ofKind Keyword.kwWhile ::
      (condition.tokens ++ [.ofKind Symbol.semicolon]))
  | .forLoop name iterable body =>
    .ofKind Keyword.kwFor :: name.token :: .ofKind Keyword.kwIn :: (iterable.tokens ++
      Token.body (Stmt.listTokens body))
  | .tryBlock body handler otherwise finalizer =>
    .ofKind Keyword.kwTry :: (Token.body (Stmt.listTokens body) ++ Stmt.handlerTokens handler ++
      Stmt.bodyTokens? .kwElse otherwise ++ Stmt.bodyTokens? .kwFinally finalizer)
  | .branch condition body elifs otherwise =>
    .ofKind Keyword.kwIf :: (condition.tokens ++ Token.body (Stmt.listTokens body) ++
      Stmt.clauseTokens .kwElif elifs ++ Stmt.bodyTokens? .kwElse otherwise)
  | .switch value cases default =>
    .ofKind Keyword.kwSwitch :: (value.tokens ++ Token.body (Stmt.clauseTokens .kwCase cases ++
      Stmt.bodyTokens? .kwDefault default))
  | .breakLoop => [.ofKind Keyword.kwBreak, .ofKind Symbol.semicolon]
  | .continueLoop => [.ofKind Keyword.kwContinue, .ofKind Symbol.semicolon]
  | .declare binding name init =>
    .ofKind binding.word :: name.token :: (Expr.tokens? [.ofKind Symbol.equal] init ++ [.ofKind Symbol.semicolon])

def Stmt.listTokens : List Stmt → List Token
  | [] => []
  | s :: ss => s.tokens ++ Stmt.listTokens ss

/-- A body behind a word, if it is there. -/
def Stmt.bodyTokens? (word : Keyword) : Option (List Stmt) → List Token
  | none => []
  | some body => .ofKind word :: Token.body (Stmt.listTokens body)

def Stmt.handlerTokens : Option (Handler Stmt) → List Token
  | none => []
  | some ⟨param, body⟩ =>
    .ofKind Keyword.kwCatch :: (param.toList.map Ident.token ++ Token.body (Stmt.listTokens body))

def Stmt.clauseTokenList (word : Keyword) : Expr × List Stmt → List Token
  | (condition, body) => .ofKind word :: (condition.tokens ++ Token.body (Stmt.listTokens body))

def Stmt.clauseTokens (word : Keyword) : List (Expr × List Stmt) → List Token
  | [] => []
  | clause :: clauses => Stmt.clauseTokenList word clause ++ Stmt.clauseTokens word clauses

/-- A function, or a method of a class. -/
def Stmt.functionTokens : Function Stmt → List Token
  | ⟨name, params, body, isAsync, isGenerator⟩ =>
    (if isAsync then [.ofKind Keyword.kwAsync] else []) ++ .ofKind Keyword.kwFunction ::
      ((if isGenerator then [.ofKind Symbol.star] else []) ++ name.token :: .ofKind Symbol.leftParen ::
        (Token.separated (Expr.paramTokens params) ++ .ofKind Symbol.rightParen ::
          Token.body (Stmt.listTokens body)))

def Stmt.methodTokens : List (Function Stmt) → List Token
  | [] => []
  | decl :: decls => Stmt.functionTokens decl ++ Stmt.methodTokens decls

end

/-- The canonical writing of a program. -/
def Program.tokens (program : Program) : List Token := Stmt.listTokens program

/-! ## First tokens -/

namespace Grammar

variable {words more : Language Token} {tokens rest : List Token}

theorem nextKind_append (h : tokens ≠ []) : nextKind (tokens ++ rest) = nextKind tokens := by
  cases tokens with
  | nil => exact absurd rfl h
  | cons token tokens => rfl

/-- Whether an expression can start with a token, in the canonical writing. -/
def isStart : Token.Kind → Bool
  | .number _ | .string _ | .identifier _ => true
  | .keyword word =>
    match word with
    | .kwTrue | .kwFalse | .kwNull | .kwUndefined | .kwLambda | .kwAsync | .kwNot | .kwNew | .kwAwait
    | .kwTypeof | .kwVoid | .kwDelete => true
    | _ => false
  | .symbol sign =>
    match sign with
    | .leftParen | .leftBracket | .leftBrace | .minus | .tilde | .plusPlus | .minusMinus => true
    | _ => false
  | _ => false

/-- The kind of token that the canonical writing has in place of one that starts an expression. -/
def canonicalKind : Token.Kind → Token.Kind
  | .symbol .bang => .keyword .kwNot
  | kind => kind

/-- Every word starts with a token in whose place `tokens` has its first one, and an expression can start so. -/
def SameHead (words : Language Token) (tokens : List Token) : Prop :=
  isStart (nextKind tokens) = true ∧ ∀ word ∈ words, word ≠ [] ∧ nextKind tokens = canonicalKind (nextKind word)

theorem ne_nil_of_isStart (h : isStart (nextKind tokens) = true) : tokens ≠ [] := by
  rintro rfl
  cases h

theorem SameHead.mul (h : SameHead words tokens) : SameHead (words * more) tokens := by
  refine ⟨h.1, fun word hword => ?_⟩
  obtain ⟨front, hfront, back, -, rfl⟩ := Language.mem_mul.1 hword
  obtain ⟨hne, hkind⟩ := h.2 front hfront
  exact ⟨by simp [hne], by rwa [nextKind_append hne]⟩

theorem SameHead.append (h : SameHead words tokens) : SameHead words (tokens ++ rest) := by
  have hkind : nextKind (tokens ++ rest) = nextKind tokens := nextKind_append (ne_nil_of_isStart h.1)
  exact ⟨by rw [hkind]; exact h.1, fun word hword => by rw [hkind]; exact h.2 word hword⟩

theorem SameHead.add (h : SameHead words tokens) (hmore : SameHead more tokens) : SameHead (words + more) tokens := by
  refine ⟨h.1, fun word hword => ?_⟩
  rcases (Language.mem_add _ _ _).1 hword with hword | hword
  · exact h.2 word hword
  · exact hmore.2 word hword

theorem sameHead_tokenOf {kind : Token.Kind} {token : Token} (hstart : isStart token.kind = true)
    (hkind : token.kind = canonicalKind kind) : SameHead (tokenOf kind) (token :: rest) := by
  refine ⟨hstart, ?_⟩
  rintro _ ⟨other, rfl, rfl⟩
  exact ⟨by simp, hkind⟩

theorem sameHead_ident (name : Ident) : SameHead name.spelling (name.token :: rest) := by
  refine ⟨rfl, ?_⟩
  rintro _ ⟨token, rfl, hname⟩
  refine ⟨by simp, ?_⟩
  rw [nextKind_cons, nextKind_cons, hname.1]
  rfl

theorem sameHead_literal (value : Literal) : SameHead value.spelling value.tokens := by
  cases value with
  | boolean value => cases value <;> exact sameHead_tokenOf rfl rfl
  | number | string | null | undefined => exact sameHead_tokenOf rfl rfl
  | regex pattern flags =>
    refine ⟨rfl, ?_⟩
    rintro _ ⟨token, next, rfl, hkind, -⟩
    refine ⟨by simp, ?_⟩
    rw [nextKind_cons, hkind]
    rfl

theorem sameHead_unaryOp (op : UnaryOp) : SameHead op.spelling (.ofKind op.token :: rest) := by
  cases op with
  | not => exact (sameHead_tokenOf rfl rfl).add (sameHead_tokenOf rfl rfl)
  | minus | bitNot => exact sameHead_tokenOf rfl rfl

/-- The canonical writing starts like every spelling. -/
theorem sameHead_expr : ∀ e : Expr, SameHead e.spelling e.tokens
  | .assign name _ => by
    rw [Expr.spelling, Expr.tokens]
    exact (sameHead_ident name).mul.mul
  | .binary _ left _ | .logical _ left _ => by
    rw [Expr.spelling, Expr.tokens]
    exact (sameHead_expr left).mul.mul.append
  | .ternary condition _ _ => by
    rw [Expr.spelling, Expr.tokens]
    exact (sameHead_expr condition).mul.mul.mul.append
  | .lambda _ _ true => by
    rw [Expr.spelling, Expr.tokens]
    exact (sameHead_tokenOf rfl rfl).mul.mul.mul.mul
  | .lambda _ _ false => by
    rw [Expr.spelling, Expr.tokens, optional, if_neg (by simp), one_mul]
    exact (sameHead_tokenOf rfl rfl).mul.mul.mul
  | .call object _ | .updateAfter _ object => by
    rw [Expr.spelling, Expr.tokens]
    exact (sameHead_expr object).mul.append
  | .get object _ => by
    rw [Expr.spelling, Expr.tokens]
    exact (sameHead_expr object).mul.mul.append
  | .set object _ _ => by
    rw [Expr.spelling, Expr.tokens]
    exact (sameHead_expr object).mul.mul.mul.mul.append
  | .grouping _ => by
    rw [Expr.spelling, Expr.tokens]
    exact (sameHead_tokenOf rfl rfl).mul.mul
  | .literal value => by
    rw [Expr.spelling, Expr.tokens]
    exact sameHead_literal value
  | .array _ | .dictionary _ => by
    rw [Expr.spelling, Expr.tokens]
    exact (sameHead_tokenOf rfl rfl).mul.mul.mul
  | .subscript object _ _ _ => by
    rw [Expr.spelling, Expr.tokens]
    exact (sameHead_expr object).mul.mul.mul.mul.mul.append
  | .assignSubscript object _ _ _ _ => by
    rw [Expr.spelling, Expr.tokens]
    exact (sameHead_expr object).mul.mul.mul.mul.mul.mul.mul.append
  | .unary op _ => by
    rw [Expr.spelling, Expr.tokens]
    exact (sameHead_unaryOp op).mul
  | .updateBefore op _ | .worded op _ => by
    rw [Expr.spelling, Expr.tokens]
    exact (sameHead_tokenOf (by cases op <;> rfl) (by cases op <;> rfl)).mul
  | .variable name => by
    rw [Expr.spelling, Expr.tokens]
    exact sameHead_ident name

theorem isStart_tokens (e : Expr) : isStart (nextKind e.tokens) = true := (sameHead_expr e).1

theorem tokens_ne_nil (e : Expr) : e.tokens ≠ [] := ne_nil_of_isStart (isStart_tokens e)

@[simp]
theorem nextKind_tokens_append (e : Expr) (rest : List Token) : nextKind (e.tokens ++ rest) = nextKind e.tokens :=
  nextKind_append (tokens_ne_nil e)

/-- The canonical writing of what a parser gives starts like the tokens that it took. -/
theorem nextKind_tokens_of_closes {e : Expr} (h : Closes e.spelling tokens rest) (hlength : rest.length < tokens.length) :
    nextKind e.tokens = canonicalKind (nextKind tokens) := by
  obtain ⟨used, closing, rfl, hword, -⟩ := h
  obtain ⟨-, hkind⟩ := (sameHead_expr e).2 _ hword
  have hused : used ≠ [] := by
    rintro rfl
    exact Nat.lt_irrefl _ hlength
  rw [hkind, nextKind_append hused, nextKind_append hused]

/-- Behind `async` the canonical writing goes on with a lambda, so it is never taken for a function. -/
theorem second_of_async : ∀ (e : Expr) (rest : List Token), nextKind e.tokens = .keyword .kwAsync →
    nextKind (e.tokens ++ rest).tail = .keyword .kwLambda
  | .assign _ _, _, h | .variable _, _, h => by simp [Expr.tokens, Ident.token] at h
  | .lambda _ _ true, _, _ => by
    rw [Expr.tokens]
    rfl
  | .lambda _ _ false, _, h => by simp [Expr.tokens] at h
  | .binary _ object _, rest, h | .logical _ object _, rest, h | .ternary object _ _, rest, h | .call object _, rest, h
  | .get object _, rest, h | .set object _ _, rest, h | .subscript object _ _ _, rest, h
  | .assignSubscript object _ _ _ _, rest, h | .updateAfter _ object, rest, h => by
    rw [Expr.tokens, nextKind_tokens_append] at h
    rw [Expr.tokens, List.append_assoc]
    exact second_of_async object _ h
  | .grouping _, _, h | .array _, _, h | .dictionary _, _, h => by simp [Expr.tokens] at h
  | .literal value, _, h => by
    rw [Expr.tokens] at h
    cases value with
    | boolean value => cases value <;> simp [Literal.tokens] at h
    | number | string | null | undefined | regex => simp [Literal.tokens] at h
  | .unary op _, _, h => by cases op <;> simp [Expr.tokens, UnaryOp.token] at h
  | .updateBefore op _, _, h => by cases op <;> simp [Expr.tokens, UpdateOp.token] at h
  | .worded op _, _, h => by cases op <;> simp [Expr.tokens, WordOp.word] at h

end Grammar

end Offside
