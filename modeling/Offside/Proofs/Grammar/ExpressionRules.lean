import Offside.Proofs.Grammar.Acceptance

/-!
# The rules of expressions

One rule for each parser of expressions: it runs quietly exactly when its parts do, one behind the other.  Rules
for parsers that look at the next token say which tokens they go on with.
-/

namespace Offside.Grammar

open Offside.Grammar.Parser

variable {α : Type} {rounds : Nat} {params : List (Param Expr)} {e object : Expr}
  {operator? : Token.Kind → Option (Expr → Expr → Expr)} {operand : Parser Expr}

section
variable {inner : Inner} {stop : Eof} {tokens rest : List Token}

/-! ## Names and parameters -/

/-- A token that stands for the name of a member. -/
def IsProperty (token : Token) (name : Ident) : Prop :=
  (token.kind = .identifier name.text ∨ token.kind.isKeyword = true ∧ token.lexeme = name.text) ∧
    token.line = name.line

theorem IsProperty.gives {token : Token} {name : Ident} (h : IsProperty token name) :
    Gives propertyName stop (token :: rest) name rest := by
  obtain ⟨text, line⟩ := name
  obtain ⟨hkind | ⟨hword, rfl⟩, rfl⟩ := h
  · simp [propertyName, gives_peek_bind, hkind, gives_advance_bind]
  · unfold Token.Kind.isKeyword at hword
    split at hword
    · rename_i hkind
      simp [propertyName, gives_peek_bind, hkind, gives_advance_bind]
    · cases hword

/-- A cast and its arrow, if there are any, lead from one list of tokens to another. -/
def CastAt (tokens : List Token) : Option Ident → List Token → Prop
  | some name, rest => ∃ token arrow, tokens = token :: arrow :: rest ∧ IsIdent token name ∧
      arrow.kind = .symbol .arrow
  | none, rest => rest = tokens ∧
      ¬ ((∃ name, nextKind tokens = .identifier name) ∧ nextKind tokens.tail = .symbol .arrow)

/-- A parameter behind its cast. -/
def parameterTail (inner : Inner) (cast : Option Ident) : Parser (Param Expr) := do
  let kind := if ← accept Symbol.star then ParamKind.wildcard else ParamKind.standard
  let name ← ident .parameter
  let default ← afterToken Symbol.equal inner.unary
  return ⟨name, kind, default, cast⟩

theorem CastAt.parameter {cast : Option Ident} {first : List Token} {p : Param Expr} (hcast : CastAt tokens cast first)
    (h : Gives (parameterTail inner cast) stop first p rest) : Gives (parameter inner) stop tokens p rest := by
  simp only [Grammar.parameter, gives_peek_bind, kind_headD]
  cases cast with
  | some name =>
    obtain ⟨token, arrow, rfl, ⟨htext, hline⟩, harrow⟩ := hcast
    rw [nextKind_cons, htext]
    apply gives_checkSecond_bind.2
    rw [List.tail_cons, nextKind_cons, if_pos (beq_iff_eq.2 harrow)]
    have hname : (⟨name.text, token.line⟩ : Ident) = name := by rw [hline]
    rwa [← hname] at h
  | none =>
    obtain ⟨rfl, hnone⟩ := hcast
    split
    · rename_i name hkind
      apply gives_checkSecond_bind.2
      rw [if_neg (mt beq_iff_eq.1 fun harrow => hnone ⟨⟨name, hkind⟩, harrow⟩)]
      exact h
    · exact h

/-! ## Primary expressions -/

/-- A string that follows the name `r` without a gap makes it a regular expression. -/
def IsRegex (name : String) (token next : Token) : Prop :=
  name = "r" ∧ next.kind.isString = true ∧ next.start = token.stop

theorem gives_variableOrRegex {name : String} {token : Token} :
    Gives (variableOrRegex name) stop (token :: tokens) e rest ↔
      (∃ next pattern flags, tokens = next :: rest ∧ IsRegex name token next ∧
          Regex.split? (quotedText next) = some (pattern, flags) ∧
            e = .literal (.regex (String.ofList pattern) (String.ofList flags))) ∨
        ((∀ next ∈ tokens.head?, ¬ IsRegex name token next) ∧ e = .variable ⟨name, token.line⟩ ∧
          rest = tokens) := by
  cases tokens with
  | nil =>
    have hkind : stop.1.kind = .eof := stop.2
    change Gives (if name = "r" && stop.1.kind.isString && stop.1.start = token.stop then regex
      else pure (.variable ⟨name, token.line⟩)) stop [] e rest ↔ _
    simp [hkind, Token.Kind.isString]
  | cons next tail =>
    change Gives (if name = "r" && next.kind.isString && next.start = token.stop then regex
      else pure (.variable ⟨name, token.line⟩)) stop (next :: tail) e rest ↔ _
    by_cases hregex : IsRegex name token next
    · rw [if_pos (by simpa [IsRegex, and_assoc] using hregex), regex, gives_advance_bind]
      simp only [List.headD_cons, List.tail_cons, List.head?_cons, Option.mem_def, Option.some.injEq, forall_eq',
        hregex, not_true_eq_false, false_and, or_false, List.cons.injEq]
      cases hsplit : Regex.split? (quotedText next) with
      | none => simp_all
      | some parts =>
        simp only [gives_pure]
        constructor
        · rintro ⟨rfl, rfl⟩
          exact ⟨next, _, _, ⟨rfl, rfl⟩, hregex, hsplit, rfl⟩
        · rintro ⟨_, pattern, flags, ⟨rfl, rfl⟩, -, hparts, rfl⟩
          rw [hsplit] at hparts
          cases hparts
          exact ⟨rfl, rfl⟩
    · rw [if_neg (by simpa [IsRegex, and_assoc] using hregex), gives_pure]
      simp only [List.cons.injEq, List.head?_cons, Option.mem_def, Option.some.injEq, forall_eq', hregex,
        not_false_eq_true, true_and]
      constructor
      · exact Or.inr
      · rintro (⟨_, _, _, ⟨rfl, -⟩, hyes, -⟩ | h)
        · exact absurd hyes hregex
        · exact h

/-- What stands behind a token that opens a primary expression. -/
def opened? (inner : Inner) : Token.Kind → Option (Parser Expr)
  | .symbol .leftParen => some (grouping inner)
  | .symbol .leftBracket => some (arrayLiteral inner)
  | .symbol .leftBrace => some (dictionaryLiteral inner)
  | .keyword .kwLambda => some (lambda inner false)
  | .keyword .kwAsync => some do
      expect Keyword.kwLambda .noLambda
      lambda inner true
  | _ => none

/-- The forms of a primary expression. -/
inductive Primary (inner : Inner) (stop : Eof) : List Token → Expr → List Token → Prop
  | literal {token : Token} {value : Literal} {rest : List Token} : literal? token.kind = some value →
      Primary inner stop (token :: rest) (.literal value) rest
  | named {token : Token} {name : String} {tail rest : List Token} {e : Expr} :
      token.kind = .identifier name → Gives (variableOrRegex name) stop (token :: tail) e rest →
      Primary inner stop (token :: tail) e rest
  | opened {kind : Token.Kind} {p : Parser Expr} {tokens middle rest : List Token} {e : Expr} :
      Takes kind tokens middle → opened? inner kind = some p → Gives p stop middle e rest →
      Primary inner stop tokens e rest

theorem gives_primary : Gives (primary inner) stop tokens e rest ↔ Primary inner stop tokens e rest := by
  constructor
  · intro h
    cases tokens with
    | nil =>
      have hkind : stop.1.kind = .eof := stop.2
      simp [primary, gives_peek_bind, hkind, literal?] at h
    | cons token tail =>
      simp only [primary, gives_peek_bind, List.headD_cons] at h
      split at h
      · rename_i value hvalue
        rw [gives_advance_bind, gives_pure] at h
        obtain ⟨rfl, rfl⟩ := h
        exact .literal hvalue
      · split at h
        case h_1 name hkind => exact .named hkind h
        case h_2 hkind | h_3 hkind | h_4 hkind | h_5 hkind | h_6 hkind => exact .opened ⟨token, rfl, hkind⟩ rfl h
        all_goals simp at h
  · intro h
    cases h with
    | literal hvalue =>
      simp [primary, gives_peek_bind, hvalue, gives_advance_bind]
    | named hkind h => simpa [primary, gives_peek_bind, hkind, literal?] using h
    | opened htake hp h =>
      obtain ⟨token, rfl, rfl⟩ := htake
      simp only [primary, gives_peek_bind, List.headD_cons]
      unfold opened? at hp
      split at hp <;> cases hp <;> (rename_i hkind; rw [hkind]; exact h)

/-! ## Calls, members and subscripts -/

theorem gives_bound {terminator : Symbol} {value : Option Expr} :
    Gives (bound inner terminator) stop tokens value rest ↔
      (nextKind tokens = .symbol terminator ∧ value = none ∧ rest = tokens) ∨
        (nextKind tokens ≠ .symbol terminator ∧ ∃ e, Gives inner.expression stop tokens e rest ∧
          value = some e) := by
  rw [bound, gives_check_bind]
  by_cases h : nextKind tokens = .symbol terminator <;> simp [h, gives_bind]

/-- What may follow an object. -/
inductive Suffix (inner : Inner) (stop : Eof) (object : Expr) : List Token → Expr → List Token → Prop
  | call {tokens middle rest : List Token} {values : List Expr} : Takes (.symbol .leftParen) tokens middle →
      Gives (arguments inner) stop middle values rest → Suffix inner stop object tokens (.call object values) rest
  | get {tokens middle rest : List Token} {name : Ident} : Takes (.symbol .dot) tokens middle →
      Gives propertyName stop middle name rest → Suffix inner stop object tokens (.get object name) rest
  | subscript {tokens middle rest : List Token} {e : Expr} : Takes (.symbol .leftBracket) tokens middle →
      Gives (subscript inner object) stop middle e rest → Suffix inner stop object tokens e rest
  | update {kind : Token.Kind} {op : UpdateOp} {tokens rest : List Token} : updateOp? kind = some op →
      Takes kind tokens rest → object.isUpdatable = true →
      Suffix inner stop object tokens (.updateAfter op object) rest

/-- Whether a token goes on with an object. -/
def isSuffix : Token.Kind → Bool
  | .symbol .leftParen | .symbol .dot | .symbol .leftBracket | .symbol .plusPlus
  | .symbol .minusMinus => true
  | _ => false

theorem gives_checkUpdatable {token : Token} {target : Expr} {u : Unit} :
    Gives (checkUpdatable token target) stop tokens u rest ↔ target.isUpdatable = true ∧ rest = tokens := by
  unfold checkUpdatable
  split <;> simp_all

theorem gives_checkUpdatable_bind {token : Token} {target : Expr} {f : Unit → Parser α} {a : α} :
    Gives (checkUpdatable token target >>= f) stop tokens a rest ↔
      target.isUpdatable = true ∧ Gives (f ()) stop tokens a rest := by
  simp only [gives_bind, gives_checkUpdatable]
  exact ⟨fun ⟨_, _, ⟨hupdatable, hsame⟩, h⟩ => ⟨hupdatable, hsame ▸ h⟩, fun h => ⟨(), tokens, ⟨h.1, rfl⟩, h.2⟩⟩

theorem gives_suffix_some :
    Gives (suffix inner object) stop tokens (some e) rest ↔ Suffix inner stop object tokens e rest := by
  constructor
  · intro h
    cases tokens with
    | nil =>
      have hkind : stop.1.kind = .eof := stop.2
      simp [suffix, gives_peek_bind, hkind, updateOp?] at h
    | cons token tail =>
      simp only [suffix, gives_peek_bind, List.headD_cons] at h
      split at h
      · rename_i hkind
        obtain ⟨values, _, hvalues, h⟩ := gives_bind.1 (gives_advance_bind.1 h)
        obtain ⟨⟨⟩, rfl⟩ := gives_pure.1 h
        exact .call ⟨token, rfl, hkind⟩ hvalues
      · rename_i hkind
        obtain ⟨name, _, hname, h⟩ := gives_bind.1 (gives_advance_bind.1 h)
        obtain ⟨⟨⟩, rfl⟩ := gives_pure.1 h
        exact .get ⟨token, rfl, hkind⟩ hname
      · rename_i hkind
        obtain ⟨value, _, hvalue, h⟩ := gives_bind.1 (gives_advance_bind.1 h)
        obtain ⟨⟨⟩, rfl⟩ := gives_pure.1 h
        exact .subscript ⟨token, rfl, hkind⟩ hvalue
      · split at h
        · rename_i op hop
          obtain ⟨hupdatable, h⟩ := gives_checkUpdatable_bind.1 (gives_advance_bind.1 h)
          obtain ⟨⟨⟩, rfl⟩ := gives_pure.1 h
          exact .update hop ⟨token, rfl, rfl⟩ hupdatable
        · obtain ⟨⟨⟩, -⟩ := gives_pure.1 h
  · intro h
    cases h with
    | call htake h | get htake h | subscript htake h =>
      obtain ⟨token, rfl, hkind⟩ := htake
      simp only [suffix, gives_peek_bind, List.headD_cons, hkind]
      exact gives_advance_bind.2 (h.bind .pure)
    | update hop htake hupdatable =>
      obtain ⟨token, rfl, rfl⟩ := htake
      simp only [suffix, gives_peek_bind, List.headD_cons]
      split
      · rename_i hkind
        simp [hkind, updateOp?] at hop
      · rename_i hkind
        simp [hkind, updateOp?] at hop
      · rename_i hkind
        simp [hkind, updateOp?] at hop
      · rw [hop]
        exact gives_advance_bind.2 (gives_checkUpdatable_bind.2 ⟨hupdatable, .pure⟩)

theorem gives_suffix_none :
    Gives (suffix inner object) stop tokens none rest ↔ isSuffix (nextKind tokens) = false ∧ rest = tokens := by
  simp only [suffix, gives_peek_bind, kind_headD]
  split
  · rename_i hkind
    simp [hkind, isSuffix, gives_bind]
  · rename_i hkind
    simp [hkind, isSuffix, gives_bind]
  · rename_i hkind
    simp [hkind, isSuffix, gives_bind]
  · rename_i hparen hdot hbracket
    cases hop : updateOp? (nextKind tokens) with
    | none =>
      have hnot : isSuffix (nextKind tokens) = false := by
        unfold isSuffix
        split
        any_goals simp_all [updateOp?]
      simp [hnot]
    | some op =>
      have hyes : isSuffix (nextKind tokens) = true := by
        unfold updateOp? at hop
        split at hop <;> simp_all [isSuffix]
      simp [hyes, gives_advance_bind, gives_checkUpdatable_bind]

/-! ## Operators -/

/-- The next token is looked up as an operator, and taken if it is one. -/
theorem gives_operator {σ : Type} (operator? : Token.Kind → Option σ) (heof : operator? .eof = none)
    {p q : Parser α} {f : σ → Parser α} {a : α} (hnone : operator? (nextKind tokens) = none → p = q)
    (hsome : ∀ op, operator? (nextKind tokens) = some op → p = advance >>= fun _ => f op) : Gives p stop tokens a rest ↔
      (∃ kind op tail, operator? kind = some op ∧ Takes kind tokens tail ∧ Gives (f op) stop tail a rest) ∨
        (operator? (nextKind tokens) = none ∧ Gives q stop tokens a rest) := by
  cases hop : operator? (nextKind tokens) with
  | none =>
    rw [hnone hop]
    refine ⟨fun h => Or.inr ⟨rfl, h⟩, ?_⟩
    rintro (⟨kind, op, tail, hop', htake, -⟩ | ⟨-, h⟩)
    · rw [← htake.nextKind, hop] at hop'
      cases hop'
    · exact h
  | some op =>
    have hne : nextKind tokens ≠ .eof := fun h => by simp [h, heof] at hop
    obtain ⟨tail, token, rfl, hkind⟩ := exists_takes_of_nextKind rfl hne
    rw [hsome op hop, gives_advance_bind, List.tail_cons]
    refine ⟨fun h => Or.inl ⟨_, op, tail, hop, takes_cons.2 ⟨rfl, rfl⟩, h⟩, ?_⟩
    rintro (⟨kind, op', tail', hop', htake, h⟩ | ⟨⟨⟩, -⟩)
    obtain ⟨rfl, rfl⟩ := takes_cons.1 htake
    cases hop.symm.trans hop'
    exact h

/-- The operator that a word is, with the parser of its operand. -/
def wordKind? (inner : Inner) : Token.Kind → Option (WordOp × Parser Expr)
  | .keyword word => wordOp? inner word
  | _ => none

theorem gives_worded : Gives (worded inner) stop tokens e rest ↔
      (∃ kind op middle, wordKind? inner kind = some op ∧ Takes kind tokens middle ∧
          ∃ value, Gives op.2 stop middle value rest ∧ e = .worded op.1 value) ∨
        (wordKind? inner (nextKind tokens) = none ∧ Gives (call inner) stop tokens e rest) := by
  simp only [worded, gives_peek_bind, kind_headD]
  rw [gives_operator (wordKind? inner) rfl (q := call inner)
    (f := fun op => do return .worded op.1 (← op.2))]
  · simp [gives_bind]
  · intro hnone
    split
    · rename_i word hkind
      rw [hkind, wordKind?] at hnone
      rw [hnone]
    · rfl
  · intro op hsome
    split
    · rename_i word hkind
      rw [hkind, wordKind?] at hsome
      rw [hsome]
    · rename_i hkind
      unfold wordKind? at hsome
      split at hsome
      · exact absurd ‹_› (hkind _)
      · cases hsome

theorem gives_unary : Gives (unary inner) stop tokens e rest ↔
      (∃ kind op middle, unaryOp? kind = some op ∧ Takes kind tokens middle ∧
          ∃ value, Gives inner.unary stop middle value rest ∧ e = .unary op value) ∨
        (unaryOp? (nextKind tokens) = none ∧
          ((∃ kind op middle, updateOp? kind = some op ∧ Takes kind tokens middle ∧
              ∃ target, (Gives inner.unary stop middle target rest ∧ target.isUpdatable = true) ∧
                e = .updateBefore op target) ∨
            (updateOp? (nextKind tokens) = none ∧ Gives (worded inner) stop tokens e rest))) := by
  simp only [unary, gives_peek_bind, kind_headD]
  rw [gives_operator unaryOp? rfl (fun h => by rw [h]) (fun op h => by rw [h]),
    gives_operator updateOp? rfl (fun h => by rw [h]) (fun op h => by rw [h])]
  simp [gives_bind, gives_checkUpdatable, ← and_assoc]

/-- One more operand of a chain. -/
def link (operator? : Token.Kind → Option (Expr → Expr → Expr)) (operand : Parser Expr) (left : Expr) :
    Parser (Option Expr) := do
  match operator? (← peek).kind with
  | none => return none
  | some join =>
    let _ ← advance
    return some (join left (← operand))

theorem gives_link_some (heof : operator? .eof = none) {left : Expr} :
    Gives (link operator? operand left) stop tokens (some e) rest ↔ ∃ kind join middle right,
      operator? kind = some join ∧ Takes kind tokens middle ∧ Gives operand stop middle right rest ∧
        e = join left right := by
  simp only [link, gives_peek_bind, kind_headD]
  rw [gives_operator operator? heof (fun h => by rw [h]) (fun op h => by rw [h])]
  simp [gives_bind]

theorem gives_link_none {left : Expr} : Gives (link operator? operand left) stop tokens none rest ↔
      operator? (nextKind tokens) = none ∧ rest = tokens := by
  simp only [link, gives_peek_bind, kind_headD]
  split <;> simp_all [gives_bind]

theorem gives_expression : Gives (expression inner) stop tokens e rest ↔ ∃ target middle,
      Gives (disjunction inner) stop tokens target middle ∧
        ((∃ tail value, Takes (.symbol .equal) middle tail ∧ Gives inner.expression stop tail value rest ∧
            assignment? target value = some e) ∨
          (nextKind middle ≠ .symbol .equal ∧ e = target ∧ rest = middle)) := by
  simp only [expression]
  rw [gives_bind]
  refine exists_congr fun target => exists_congr fun middle => and_congr_right fun _ => ?_
  rw [gives_peek_bind, gives_accept_bind (by simp)]
  refine or_congr (exists_congr fun tail => ?_) (and_congr_right fun _ => by simp)
  rw [if_pos rfl, gives_bind]
  constructor
  · rintro ⟨htake, value, middle, hvalue, h⟩
    split at h
    · rename_i result hresult
      obtain ⟨rfl, rfl⟩ := gives_pure.1 h
      exact ⟨value, htake, hvalue, hresult⟩
    · simp [gives_bind] at h
  · rintro ⟨value, htake, hvalue, hresult⟩
    refine ⟨htake, value, rest, hvalue, ?_⟩
    rw [hresult]
    exact .pure

end

/-! ## Levels of operators -/

/-- The chains of operators, with the levels of what they give, of what they start with and of what an operator is
followed by. -/
def chainLevels : List (Nat × Nat × Nat × (Token.Kind → Option (Expr → Expr → Expr))) :=
  [(12, 13, 13, multiplicativeOp?), (11, 12, 12, additiveOp?), (10, 11, 11, shiftOp?), (9, 10, 10, bitAndOp?),
    (8, 9, 9, bitOrOp?), (7, 8, 8, comparisonOp?), (6, 7, 7, equalityOp?), (4, 5, 6, membershipOp?),
    (3, 4, 4, conjunctionOp?), (2, 3, 3, disjunctionOp?)]

/-- The parsers for operators between two operands, with the levels of what they give. -/
def operatorLevels : List (Nat × (Inner → Parser Expr)) :=
  [(13, exponent), (12, multiplicative), (11, additive), (10, shift), (9, bitAnd), (8, bitOr), (7, comparison),
    (6, equality), (5, ternary), (4, membership), (3, conjunction), (2, disjunction)]

theorem disjunction_mem : (2, disjunction) ∈ operatorLevels := by simp [operatorLevels]

/-- What goes from the operands of a chain to the chain, and from equalities to conditionals, holds of all levels above
that of the power. -/
theorem forall_operatorLevels {Q : Nat → (Inner → Parser Expr) → Prop} (hexponent : Q 13 exponent)
    (hchain : ∀ {level m k operator? first operand}, (level, m, k, operator?) ∈ chainLevels → Q m first → Q k operand →
      Q level fun inner => chain inner.rounds operator? (first inner) (operand inner))
    (hternary : Q 6 equality → Q 5 ternary) {level : Nat} {p : Inner → Parser Expr}
    (hmem : (level, p) ∈ operatorLevels) : Q level p := by
  have hmultiplicative : Q 12 multiplicative := hchain (by simp [chainLevels]) hexponent hexponent
  have hadditive : Q 11 additive := hchain (by simp [chainLevels]) hmultiplicative hmultiplicative
  have hshift : Q 10 shift := hchain (by simp [chainLevels]) hadditive hadditive
  have hbitAnd : Q 9 bitAnd := hchain (by simp [chainLevels]) hshift hshift
  have hbitOr : Q 8 bitOr := hchain (by simp [chainLevels]) hbitAnd hbitAnd
  have hcomparison : Q 7 comparison := hchain (by simp [chainLevels]) hbitOr hbitOr
  have hequality : Q 6 equality := hchain (by simp [chainLevels]) hcomparison hcomparison
  have hternary : Q 5 ternary := hternary hequality
  have hmembership : Q 4 membership := hchain (by simp [chainLevels]) hternary hequality
  have hconjunction : Q 3 conjunction := hchain (by simp [chainLevels]) hmembership hmembership
  have hdisjunction : Q 2 disjunction := hchain (by simp [chainLevels]) hconjunction hconjunction
  simp only [operatorLevels, List.mem_cons, List.not_mem_nil, Prod.mk.injEq, or_false] at hmem
  rcases hmem with ⟨rfl, rfl⟩ | ⟨rfl, rfl⟩ | ⟨rfl, rfl⟩ | ⟨rfl, rfl⟩ | ⟨rfl, rfl⟩ | ⟨rfl, rfl⟩ | ⟨rfl, rfl⟩ | ⟨rfl, rfl⟩ |
    ⟨rfl, rfl⟩ | ⟨rfl, rfl⟩ | ⟨rfl, rfl⟩ | ⟨rfl, rfl⟩ <;> assumption

end Offside.Grammar
