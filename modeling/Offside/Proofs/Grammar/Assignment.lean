import Offside.Proofs.Grammar.StatementRules

/-!
# Assignments of literals

An expression that no operator stands around passes through all levels of precedence as it is.  So the tokens of a
name, an equality sign, a literal and a semicolon are parsed to one assignment, whatever texts and offsets they have.
-/

namespace Offside.Grammar

open Offside.Grammar.Parser

section
variable {inner : Inner} {stop : Eof} {tokens rest : List Token} {e : Expr}

/-! ## Expressions without operators -/

/-- A repetition whose first step gives nothing leaves its value. -/
theorem gives_iterate_none {step : α → Parser (Option α)} {a : α} (h : Gives (step a) stop tokens none tokens)
    (rounds : Nat) : Gives (iterate step rounds a) stop tokens a tokens := by
  cases rounds with
  | zero => exact .pure
  | succ rounds => exact h.bind .pure

theorem gives_chain_single {rounds : Nat} {operator? : Token.Kind → Option (Expr → Expr → Expr)}
    {first operand : Parser Expr} (h : Gives first stop tokens e rest) (hnone : operator? (nextKind rest) = none) :
    Gives (chain rounds operator? first operand) stop tokens e rest :=
  h.bind (gives_iterate_none (gives_link_none.2 ⟨hnone, rfl⟩) rounds)

/-- No operator stands in front of the tokens. -/
structure Unprefixed (inner : Inner) (tokens : List Token) : Prop where
  unary : unaryOp? (nextKind tokens) = none
  update : updateOp? (nextKind tokens) = none
  word : wordKind? inner (nextKind tokens) = none

theorem unprefixed_identifier {token : Token} {name : String} (h : token.kind = .identifier name) :
    Unprefixed inner (token :: tokens) := by
  constructor <;> simp [nextKind, h, unaryOp?, updateOp?, wordKind?]

theorem unprefixed_literal {token : Token} {value : Literal} (h : literal? token.kind = some value) :
    Unprefixed inner (token :: tokens) := by
  unfold literal? at h
  split at h
  case h_7 => cases h
  all_goals
    rename_i hkind
    constructor <;> simp [nextKind, hkind, unaryOp?, updateOp?, wordKind?, wordOp?]

/-- What ends an operand and is no operator: the sign of an assignment, the end of a statement, or the colon in front
of a body. -/
def EndsOperand (tokens : List Token) : Prop :=
  nextKind tokens = .symbol .equal ∨ nextKind tokens = .symbol .semicolon ∨ nextKind tokens = .symbol .colon

theorem EndsOperand.imp (P : Token.Kind → Prop) (h : EndsOperand rest) (hequal : P (.symbol .equal))
    (hsemicolon : P (.symbol .semicolon)) (hcolon : P (.symbol .colon)) : P (nextKind rest) := by
  rcases h with hkind | hkind | hkind <;> rwa [hkind]

theorem gives_disjunction_single (hstart : Unprefixed inner tokens) (h : Gives (primary inner) stop tokens e rest)
    (hend : EndsOperand rest) : Gives (disjunction inner) stop tokens e rest := by
  have hnone : (chainLevels.all fun chain => (chain.2.2.2 (nextKind rest)).isNone) = true :=
    hend.imp (fun kind => (chainLevels.all fun chain => (chain.2.2.2 kind).isNone) = true) rfl rfl rfl
  have hsuffix : isSuffix (nextKind rest) = false := hend.imp (isSuffix · = false) rfl rfl rfl
  have hpower : nextKind rest ≠ .symbol .starStar := hend.imp (· ≠ .symbol .starStar) (by simp) (by simp) (by simp)
  have hthen : nextKind rest ≠ .keyword .kwThen := hend.imp (· ≠ .keyword .kwThen) (by simp) (by simp) (by simp)
  have hcall : Gives (call inner) stop tokens e rest :=
    h.bind (gives_iterate_none (gives_suffix_none.2 ⟨hsuffix, rfl⟩) inner.rounds)
  have hworded : Gives (worded inner) stop tokens e rest := gives_worded.2 (Or.inr ⟨hstart.word, hcall⟩)
  have hunary : Gives (unary inner) stop tokens e rest :=
    gives_unary.2 (Or.inr ⟨hstart.unary, Or.inr ⟨hstart.update, hworded⟩⟩)
  have hexponent : Gives (exponent inner) stop tokens e rest := hunary.bind (gives_accept_bind_of_ne hpower .pure)
  refine forall_operatorLevels (Q := fun _ p => Gives (p inner) stop tokens e rest) hexponent
    (fun hmem hfirst _ => gives_chain_single hfirst ?_)
    (fun hequality => hequality.bind (gives_accept_bind_of_ne hthen .pure)) disjunction_mem
  exact Option.isNone_iff_eq_none.1 (List.all_eq_true.1 hnone _ hmem)

/-! ## The statement -/

variable {name : String} {value : Literal} {target sign literal semicolon : Token}

theorem gives_disjunction_variable (htarget : target.kind = .identifier name) (hend : EndsOperand tokens) :
    Gives (disjunction inner) stop (target :: tokens) (.variable ⟨name, target.line⟩) tokens := by
  refine gives_disjunction_single (unprefixed_identifier htarget) ?_ hend
  apply gives_primary.2
  apply Primary.named htarget
  apply gives_variableOrRegex.2
  refine Or.inr ⟨fun next hnext hregex => ?_, rfl, rfl⟩
  obtain ⟨rest, rfl⟩ := List.head?_eq_some_iff.1 hnext
  have hstring : next.kind.isString = false := hend.imp (·.isString = false) rfl rfl rfl
  simp [IsRegex, hstring] at hregex

theorem gives_expression_literal (hliteral : literal? literal.kind = some value)
    (hsemicolon : semicolon.kind = .symbol .semicolon) :
    Gives (expression inner) stop (literal :: semicolon :: tokens) (.literal value) (semicolon :: tokens) := by
  have hvalue : Gives (disjunction inner) stop (literal :: semicolon :: tokens) (.literal value)
      (semicolon :: tokens) :=
    gives_disjunction_single (unprefixed_literal hliteral) (gives_primary.2 (.literal hliteral))
      (Or.inr (Or.inl hsemicolon))
  exact gives_expression.2 ⟨_, _, hvalue, Or.inr ⟨by simp [nextKind, hsemicolon], rfl, rfl⟩⟩

/-- The assignment of a literal to a name, as a statement. -/
theorem gives_declaration_assignment (depth : Nat) (htarget : target.kind = .identifier name)
    (hsign : sign.kind = .symbol .equal) (hliteral : literal? literal.kind = some value)
    (hsemicolon : semicolon.kind = .symbol .semicolon) :
    Gives (Inner.ofDepth (depth + 2)).declaration stop (target :: sign :: literal :: semicolon :: tokens)
      (.expression (.assign ⟨name, target.line⟩ (.literal value))) tokens := by
  have hassign : Gives (expression (Inner.ofDepth (depth + 1))) stop (target :: sign :: literal :: semicolon :: tokens)
      (.assign ⟨name, target.line⟩ (.literal value)) (semicolon :: tokens) :=
    gives_expression.2 ⟨_, _, gives_disjunction_variable htarget (Or.inl hsign), Or.inl ⟨_, _,
      takes_cons.2 ⟨hsign, rfl⟩, gives_expression_literal hliteral hsemicolon, rfl⟩⟩
  refine ExpressionAt.declaration ?_ (hassign.bind (Takes.expect_bind ⟨semicolon, rfl, hsemicolon⟩ .pure))
  exact ⟨by simp [nextKind, htarget], by simp [nextKind, htarget], by simp [nextKind, htarget]⟩

/-- Tokens that are one statement to their end. -/
theorem ofBody_single {s : Stmt} (hne : tokens ≠ [])
    (h : Gives (Inner.ofDepth (tokens.length + 1)).declaration stop tokens s []) :
    Parse.ofBody stop.1 tokens = ⟨[s], []⟩ := by
  obtain ⟨rounds, hrounds⟩ := Nat.exists_eq_add_one_of_ne_zero (mt List.length_eq_zero_iff.1 hne)
  have hsome : Gives (topItem (Inner.ofDepth (tokens.length + 1)).declaration) stop tokens (some (some s)) [] :=
    h.topItem hne
  have hnone : Gives (many (topItem (Inner.ofDepth (tokens.length + 1)).declaration) tokens.length) stop [] [] [] := by
    rw [hrounds]
    rfl
  have hmany : Gives (many (topItem (Inner.ofDepth (tokens.length + 1)).declaration) (tokens.length + 1)) stop tokens
      [some s] [] :=
    hsome.bind (hnone.bind .pure)
  exact ofBody_eq hmany

/-- The tokens of an assignment are parsed to it. -/
theorem Parse.ofTokens_assignment {eof : Token} (htarget : target.kind = .identifier name)
    (hsign : sign.kind = .symbol .equal) (hliteral : literal? literal.kind = some value)
    (hsemicolon : semicolon.kind = .symbol .semicolon) (heof : eof.kind = .eof) :
    Parse.ofTokens [target, sign, literal, semicolon, eof] =
      ⟨[.expression (.assign ⟨name, target.line⟩ (.literal value))], []⟩ := by
  have hkind : literal.kind ≠ .eof := by
    intro hkind
    rw [hkind] at hliteral
    cases hliteral
  have hbody : [target, sign, literal, semicolon, eof].takeWhile (fun token => token.kind ≠ .eof) =
      [target, sign, literal, semicolon] := by
    simp [htarget, hsign, hkind, hsemicolon, heof]
  obtain ⟨stop, hparse⟩ := exists_ofTokens_eq [target, sign, literal, semicolon, eof]
  rw [hparse, hbody]
  exact ofBody_single (by simp) (gives_declaration_assignment 3 htarget hsign hliteral hsemicolon)

end

end Offside.Grammar
