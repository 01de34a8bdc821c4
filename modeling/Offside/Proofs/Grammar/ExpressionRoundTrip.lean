import Mathlib.Order.Filter.AtTopBot.Basic
import Mathlib.Order.Filter.Finite
import Offside.Proofs.Grammar.Canonical
import Offside.Proofs.Grammar.StatementConduct

/-!
# Expressions written canonically are read back

An expression that some run of a parser gives quietly is given again when the parser runs on its canonical writing.
A parser decides by the next token whether to go on, so what follows the canonical writing has to be what followed
the expression before, or a token that goes on with no expression.
-/

namespace Offside.Grammar

open Offside.Grammar.Parser

variable {α : Type} {tokens rest : List Token} {follow next : Token.Kind} {p : Inner → Parser Expr}
  {write : α → List Token} {values : List α} {value : Option Expr} {e object : Expr} {params : List (Param Expr)}
  {rounds : Nat} {terminator : Symbol} {inner : Inner} {join : Expr → Expr → Expr}

/-! ## What may follow -/

/-- The tokens that go on with no expression. -/
def isCloser : Token.Kind → Bool
  | .symbol sign =>
    match sign with
    | .rightParen | .rightBracket | .rightBrace | .comma | .colon | .semicolon => true
    | _ => false
  | _ => false

abbrev Closer (kind : Token.Kind) : Prop := isCloser kind = true

/-- An expression that `follow` followed may be followed by `next` as well.  A string is left out, since it could
turn a variable in front of it into a regular expression. -/
def Agrees (follow next : Token.Kind) : Prop := (next = follow ∧ follow.isString = false) ∨ isCloser next = true

theorem Agrees.refl (h : follow.isString = false) : Agrees follow follow := Or.inl ⟨rfl, h⟩

/-- What holds of the token that followed and of every closer holds of the token that follows. -/
theorem Agrees.imp (P : Token.Kind → Prop) (h : Agrees follow next)
    (hcloser : ∀ kind, isCloser kind = true → P kind) (hfollow : P follow) : P next := by
  rcases h with ⟨rfl, -⟩ | h
  · exact hfollow
  · exact hcloser next h

theorem Agrees.ne {kind : Token.Kind} (h : Agrees follow next) (hkind : isCloser kind = false)
    (hfollow : follow ≠ kind) : next ≠ kind := by
  refine h.imp (· ≠ kind) ?_ hfollow
  rintro _ hcloser rfl
  rw [hkind] at hcloser
  cases hcloser

theorem isLayout_of_isCloser {kind : Token.Kind} (h : isCloser kind = true) : kind.isLayout = false := by
  cases kind with
  | indent | dedent => cases h
  | _ => rfl

theorem isString_of_isCloser {kind : Token.Kind} (h : isCloser kind = true) : kind.isString = false := by
  cases kind with
  | string => cases h
  | _ => rfl

theorem isLayout_of_isStart {kind : Token.Kind} (h : isStart kind = true) : kind.isLayout = false := by
  cases kind with
  | indent | dedent => cases h
  | _ => rfl

theorem skipped_of_not_layout (h : (nextKind tokens).isLayout = false) : skipped tokens = tokens := by
  cases tokens with
  | nil => rfl
  | cons token tokens => exact List.dropWhile_cons_of_neg (by simpa using h)

theorem isStart_of_isCloser {kind : Token.Kind} (h : isCloser kind = true) : isStart kind = false := by
  cases kind with
  | symbol sign => cases sign <;> simp_all [isCloser, isStart]
  | _ => cases h

theorem ne_of_isStart {kind other : Token.Kind} (h : isStart kind = true) (hother : isStart other = false) :
    kind ≠ other := by
  rintro rfl
  rw [hother] at h
  cases h

/-! ## Reading back -/

/-- The parser gives a value on its canonical writing, if what follows is allowed. -/
def Reads (follows : Token.Kind → Prop) (p : Parser α) (write : α → List Token) (a : α) : Prop :=
  ∀ ⦃stop : Eof⦄ ⦃rest : List Token⦄, follows (nextKind rest) → Gives p stop (write a ++ rest) a rest

/-- The parser does so at every depth that is enough. -/
def ReadsDeep (follows : Token.Kind → Prop) (p : Inner → Parser α) (write : α → List Token) (a : α) : Prop :=
  ∀ᶠ m in Filter.atTop, Reads follows (p (Inner.ofDepth m)) write a

/-- An expression that `follow` followed is read back. -/
abbrev Rewrites (p : Inner → Parser Expr) (e : Expr) (follow : Token.Kind) : Prop :=
  ReadsDeep (Agrees follow) p Expr.tokens e

/-- An expression is read back in front of a closer. -/
abbrev ReadsExpr (p : Inner → Parser Expr) (e : Expr) : Prop := ReadsDeep Closer p Expr.tokens e

/-- One token deeper the parser is found inside. -/
theorem ReadsDeep.inside {follows : Token.Kind → Prop} {p q : Inner → Parser α} {a : α}
    (h : ReadsDeep follows p write a) (hq : ∀ m, q (Inner.ofDepth (m + 1)) = p (Inner.ofDepth m)) :
    ReadsDeep follows q write a := by
  rw [ReadsDeep, ← Filter.map_add_atTop_eq_nat 1, Filter.eventually_map]
  simp only [hq]
  exact h

theorem eventually_forall_mem {P : Nat → α → Prop}
    (h : ∀ a ∈ values, ∀ᶠ m in Filter.atTop, P m a) : ∀ᶠ m in Filter.atTop, ∀ a ∈ values, P m a :=
  (Filter.eventually_all_finite values.finite_toSet).2 h

theorem eventually_forall_some {P : Nat → α → Prop} {value : Option α}
    (h : ∀ a, value = some a → ∀ᶠ m in Filter.atTop, P m a) : ∀ᶠ m in Filter.atTop, ∀ a, value = some a → P m a := by
  cases value with
  | none => simp
  | some a => simpa using h

/-- There are rounds enough at every depth that is enough. -/
theorem eventually_lt_rounds (count : Nat) : ∀ᶠ m in Filter.atTop, count < (Inner.ofDepth m).rounds := by
  simpa only [rounds_ofDepth] using Filter.eventually_gt_atTop count

/-- What a parser gives on less than `bound` tokens is given by `p` on its canonical writing. -/
def RewritesAt (bound : Nat) (q : Parser Expr) (p : Inner → Parser Expr) : Prop :=
  ∀ ⦃stop : Eof⦄ ⦃tokens : List Token⦄ ⦃e : Expr⦄ ⦃rest : List Token⦄, tokens.length < bound →
    Gives q stop tokens e rest → Rewrites p e (nextKind rest)

/-- What the parsers for what stands inside give at a depth is read back. -/
structure RewritesInside (n : Nat) : Prop where
  expression : RewritesAt n (Inner.ofDepth n).expression Inner.expression
  exponent : RewritesAt n (Inner.ofDepth n).exponent Inner.exponent
  unary : RewritesAt n (Inner.ofDepth n).unary Inner.unary
  worded : RewritesAt n (Inner.ofDepth n).worded Inner.worded

theorem RewritesAt.inside {bound : Nat} {r : Parser Expr} {q : Inner → Parser Expr} (h : RewritesAt bound r p)
    (hq : ∀ m, q (Inner.ofDepth (m + 1)) = p (Inner.ofDepth m)) : RewritesAt bound r q :=
  fun _ _ _ _ hlength hgives => (h hlength hgives).inside hq

theorem Rewrites.readsExpr (h : Rewrites p e follow) : ReadsExpr p e := by
  filter_upwards [h] with m h stop rest hcloser
  exact h (Or.inr hcloser)

/-- What a parser gave is read back, since the run does not depend on the depth. -/
theorem Given.readsExpr {source : List Token} {q : Inner → Parser Expr} (h : Given source p e)
    (hsame : ∀ {inner inner' : Inner} {stop : Eof} {tokens : List Token},
      inner.Steady (.alone stop tokens) tokens.length inner' → p inner' stop.1 tokens = p inner stop.1 tokens) {n : Nat}
    (hrewrites : RewritesAt (n + 1) (p (Inner.ofDepth n)) q) (hlength : source.length ≤ n) : ReadsExpr q e := by
  obtain ⟨m, inner, stop, tokens, rest, htied, henough, hsource, hgives⟩ := h
  have hle := Nat.le_trans hsource.length_le hlength
  have hsteady := ((htied.le henough).orderly_alone ((Inner.tied_ofDepth n).le hle) stop tokens).toSteady
  exact Rewrites.readsExpr (hrewrites (Nat.lt_succ_of_le hle) ((hsame hsteady).trans hgives))

section
variable {source : List Token} {e : Expr} {n : Nat}

theorem Given.readsInside (h : Given source expression e) (hinner : RewritesInside n) (hlength : source.length < n) :
    ReadsExpr Inner.expression e := by
  obtain ⟨n, rfl⟩ := Nat.exists_eq_add_one_of_ne_zero (Nat.ne_zero_of_lt hlength)
  exact h.readsExpr (fun hsteady => (conducts_expression hsteady (Nat.le_refl _)).same) hinner.expression
    (Nat.le_of_lt_succ hlength)

theorem Given.readsUnary (h : Given source unary e) (hinner : RewritesInside n) (hlength : source.length < n) :
    ReadsExpr Inner.unary e := by
  obtain ⟨n, rfl⟩ := Nat.exists_eq_add_one_of_ne_zero (Nat.ne_zero_of_lt hlength)
  exact h.readsExpr (fun hsteady => (conducts_unary hsteady (Nat.le_refl _)).same) hinner.unary
    (Nat.le_of_lt_succ hlength)

end

theorem steady_quietly (n : Nat) (stop : Eof) (tokens : List Token) :
    (Inner.ofDepth n).Steady (.quietly stop tokens) n (Inner.ofDepth n) := (orderly_quietly n stop tokens).toSteady

/-- The parser conducts itself at a depth, and gives expressions of a level. -/
def SteadyAt (n level : Nat) (p : Inner → Parser Expr) : Prop :=
  ∀ (stop : Eof) (source : List Token) {tokens : List Token}, tokens.length ≤ n → Steady (.quietly stop source)
    ((Frame.quietly stop source).At level tokens) (p (Inner.ofDepth n)) (p (Inner.ofDepth n)) tokens

section
variable {n level : Nat} {stop : Eof} (h : SteadyAt n level p) (hlength : tokens.length ≤ n)
  (hgives : Gives (p (Inner.ofDepth n)) stop tokens e rest)

include h hlength hgives

theorem SteadyAt.length_lt : rest.length < tokens.length := (h stop tokens hlength).length_add_le_of_gives hgives

theorem SteadyAt.nextKind_tokens : nextKind e.tokens = canonicalKind (nextKind tokens) :=
  nextKind_tokens_of_closes (((h stop tokens hlength).value_of_gives hgives).2 trivial) (h.length_lt hlength hgives)

end

/-! ## Parameters -/

/-- The list of parts starts with the first of them. -/
theorem separated_cons_append (part : List Token) (parts : List (List Token)) (rest : List Token) :
    ∃ more, Token.separated (part :: parts) ++ rest = part ++ more := by
  cases parts with
  | nil => exact ⟨rest, rfl⟩
  | cons next parts =>
    rw [Token.separated, List.append_assoc]
    exact ⟨_, rfl⟩

theorem Takes.cons {kind : Token.Kind} : Takes kind (Token.ofKind kind :: rest) rest := takes_cons.2 ⟨rfl, rfl⟩

theorem isIdent_token (name : Ident) : IsIdent name.token name := ⟨rfl, rfl⟩

/-- An optional part behind a token is read back: it is left out only where something else follows. -/
theorem gives_afterToken_tokens? {p : Parser Expr} {kind : Token.Kind} (hkind : kind ≠ .eof)
    {stop : Eof} (hsome : ∀ e, value = some e → Gives p stop (e.tokens ++ rest) e rest)
    (hnone : value = none → nextKind rest ≠ kind) :
    Gives (afterToken kind p) stop (Expr.tokens? [.ofKind kind] value ++ rest) value rest := by
  rw [gives_afterToken hkind]
  cases value with
  | none =>
    rw [Expr.tokens?]
    exact Or.inr ⟨hnone rfl, rfl, rfl⟩
  | some e =>
    rw [Expr.tokens?]
    exact Or.inl ⟨e.tokens ++ rest, e, Takes.cons, hsome e rfl, rfl⟩

/-- The default of a parameter, if there is one, is read back. -/
def ReadsDefault (inner : Inner) (param : Param Expr) : Prop :=
  ∀ e, param.default = some e → Reads Closer inner.unary Expr.tokens e

theorem castAt_castTokens {cast : Option Ident}
    (hnone : cast = none → ¬ ((∃ name, nextKind rest = .identifier name) ∧ nextKind rest.tail = .symbol .arrow)) :
    CastAt (Ident.castTokens cast ++ rest) cast rest := by
  cases cast with
  | none => exact ⟨rfl, hnone rfl⟩
  | some name => exact ⟨name.token, .ofKind Symbol.arrow, rfl, isIdent_token name, rfl⟩

section
variable {inner : Inner}

theorem reads_parameter {param : Param Expr} (h : ReadsDefault inner param) :
    Reads Closer (parameter inner) Expr.paramTokenList param := by
  intro stop rest hcloser
  obtain ⟨name, kind, default, cast⟩ := param
  simp only [Expr.paramTokenList, List.append_assoc]
  have hdefault : Gives (afterToken Symbol.equal inner.unary) stop
      (Expr.tokens? [.ofKind Symbol.equal] default ++ rest) default rest := by
    refine gives_afterToken_tokens? (by simp) (fun e he => h e he hcloser) ?_
    rintro - hequal
    rw [hequal] at hcloser
    cases hcloser
  -- Behind the name stands the sign of a default or a closer, so the name is not taken for a cast.
  have hnoArrow : nextKind (Expr.tokens? [.ofKind Symbol.equal] default ++ rest) ≠ .symbol .arrow := by
    cases default with
    | none =>
      rintro harrow
      rw [Expr.tokens?, List.nil_append] at harrow
      rw [harrow] at hcloser
      cases hcloser
    | some e => simp [Expr.tokens?]
  cases kind with
  | wildcard =>
    refine (castAt_castTokens ?_).parameter
      (Takes.cons.accept_bind ((isIdent_token name).bind (hdefault.bind .pure)))
    rintro - ⟨⟨_, hname⟩, -⟩
    cases hname
  | standard =>
    refine (castAt_castTokens ?_).parameter
      (gives_accept_bind_of_ne (by simp [Ident.token]) ((isIdent_token name).bind (hdefault.bind .pure)))
    exact fun _ h => hnoArrow h.2

theorem nextKind_paramTokenList (param : Param Expr) (rest : List Token) :
    nextKind (Expr.paramTokenList param ++ rest) = .symbol .star ∨
      ∃ name, nextKind (Expr.paramTokenList param ++ rest) = .identifier name := by
  obtain ⟨name, kind, default, cast⟩ := param
  rw [Expr.paramTokenList]
  cases cast with
  | some cast => exact Or.inr ⟨cast.text, rfl⟩
  | none =>
    cases kind with
    | wildcard => exact Or.inl rfl
    | standard => exact Or.inr ⟨name.text, rfl⟩

theorem gives_parameterList_separated (hreads : ∀ param ∈ params, ReadsDefault inner param)
    (hstandard : ∀ param ∈ params.dropLast, param.kind = .standard) (hne : params ≠ []) {stop : Eof}
    (hrounds : params.length < rounds) (hcloser : isCloser (nextKind rest) = true)
    (hcomma : nextKind rest ≠ .symbol .comma) :
    Gives (parameterList inner rounds) stop (Token.separated (params.map Expr.paramTokenList) ++ rest) params rest := by
  induction params generalizing rounds with
  | nil => exact absurd rfl hne
  | cons param params ih =>
    have hparam := reads_parameter (hreads param (by simp))
    cases rounds with
    | zero => exact absurd hrounds (Nat.not_lt_zero _)
    | succ rounds =>
      cases params with
      | nil => exact (hparam hcloser).bind (gives_accept_bind_of_ne hcomma .pure)
      | cons next params =>
        simp only [List.map_cons, Token.separated, List.append_assoc, List.cons_append]
        rw [List.dropLast_cons_cons, List.forall_mem_cons] at hstandard
        refine (hparam rfl).bind (Takes.cons.accept_bind ?_)
        rw [if_pos rfl, if_neg (by simp [hstandard.1])]
        exact (ih (fun other hmem => hreads other (by simp [hmem])) hstandard.2 (by simp)
          (Nat.lt_of_succ_lt_succ hrounds)).bind .pure

theorem gives_parameters_separated (hreads : ∀ param ∈ params, ReadsDefault inner param)
    (hstandard : ∀ param ∈ params.dropLast, param.kind = .standard) (hrounds : params.length < inner.rounds)
    (hcloser : isCloser terminator = true) (hcomma : terminator ≠ .comma) {stop : Eof}
    (hnext : nextKind rest = .symbol terminator) :
    Gives (parameters inner terminator) stop (Token.separated (Expr.paramTokens params) ++ rest) params rest := by
  rw [Expr.paramTokens_eq_map]
  rw [parameters, gives_check_bind]
  cases params with
  | nil =>
    rw [List.map_nil, Token.separated, List.nil_append, if_pos (beq_iff_eq.2 hnext)]
    exact .pure
  | cons param params =>
    rw [if_neg (mt beq_iff_eq.1 ?_)]
    · exact gives_parameterList_separated hreads hstandard (by simp) hrounds (by rwa [hnext])
        (by simpa [hnext] using hcomma)
    obtain ⟨more, hmore⟩ :=
      separated_cons_append (Expr.paramTokenList param) (params.map Expr.paramTokenList) rest
    rw [List.map_cons, hmore]
    rcases nextKind_paramTokenList param more with hkind | ⟨name, hkind⟩
    · rw [hkind]
      rintro ⟨⟩
      cases hcloser
    · simp [hkind]

end

section
variable {n : Nat} (hinner : RewritesInside n)

include hinner in
theorem readsDefault_of_parameters {terminator : Token.Kind} {stop : Eof}
    (hlength : tokens.length < n) (h : Gives (parameters (Inner.ofDepth n) terminator) stop tokens params rest) :
    (∀ᶠ m in Filter.atTop, ∀ param ∈ params, ReadsDefault (Inner.ofDepth m) param) ∧
      ∀ param ∈ params.dropLast, param.kind = .standard := by
  obtain ⟨hparams, -⟩ := (conducts_parameters (steady_quietly n stop tokens) hlength).value_of_gives h
  refine ⟨eventually_forall_mem fun param hmem => eventually_forall_some fun e he => ?_, hparams.standard⟩
  exact ((hparams.default param hmem e he).given trivial).readsUnary hinner hlength

/-! ## Lists in brackets -/

theorem skipped_tokens {a : α} (h : isStart (nextKind (write a)) = true) :
    skipped (write a ++ rest) = write a ++ rest := by
  refine skipped_of_not_layout (isLayout_of_isStart ?_)
  rwa [nextKind_append (ne_nil_of_isStart h)]

theorem skipped_of_isCloser (h : isCloser (nextKind rest) = true) : skipped rest = rest :=
  skipped_of_not_layout (isLayout_of_isCloser h)

theorem takes_skipped_comma : Takes (.symbol .comma) (skipped (Token.ofKind Symbol.comma :: rest)) rest := by
  rw [skipped_of_isCloser rfl]
  exact Takes.cons

theorem skipped_separated (hstart : ∀ a, isStart (nextKind (write a)) = true)
    (values : List α) (hcloser : isCloser (nextKind rest) = true) :
    skipped (Token.separated (values.map write) ++ rest) = Token.separated (values.map write) ++ rest := by
  cases values with
  | nil => exact skipped_of_isCloser hcloser
  | cons a values =>
    obtain ⟨more, hmore⟩ := separated_cons_append (write a) (values.map write) rest
    rw [List.map_cons, hmore]
    exact skipped_tokens (hstart a)

theorem gives_series_separated {close : Symbol} (hclose : isCloser close = true) (hcomma : close ≠ .comma)
    {item : Parser α} (hstart : ∀ a, isStart (nextKind (write a)) = true)
    (hreads : ∀ a ∈ values, Reads Closer item write a) (hrounds : values.length < rounds)
    {stop : Eof} (hnext : nextKind rest = .symbol close) :
    Gives (series close item rounds) stop (Token.separated (values.map write) ++ rest) values rest := by
  have hcloser : isCloser (nextKind rest) = true := by rwa [hnext]
  have hskip : skipped rest = rest := skipped_of_isCloser hcloser
  induction values generalizing rounds with
  | nil =>
    cases rounds with
    | zero => exact absurd hrounds (Nat.not_lt_zero _)
    | succ rounds =>
      rw [List.map_nil, Token.separated, List.nil_append]
      apply gives_check_bind.2
      rw [gives_atEnd_bind, if_pos (Bool.or_inl (beq_iff_eq.2 hnext))]
      exact .pure
  | cons a values ih =>
    have ha := hreads a (by simp)
    have hopen : ∀ more, ¬ (nextKind (write a ++ more) == .symbol close || (write a ++ more).isEmpty) = true := by
      have hne := ne_nil_of_isStart (hstart a)
      intro more
      rw [nextKind_append hne]
      simp [hne, ne_of_isStart (hstart a) (isStart_of_isCloser hclose)]
    cases rounds with
    | zero => exact absurd hrounds (Nat.not_lt_zero _)
    | succ rounds =>
      cases values with
      | nil =>
        rw [List.map_cons, List.map_nil, Token.separated]
        apply gives_check_bind.2
        rw [gives_atEnd_bind, if_neg (hopen rest)]
        refine (ha hcloser).bind (gives_skipLayout_bind.2 ?_)
        rw [hskip]
        exact gives_accept_bind_of_ne (by simpa [hnext] using hcomma) .pure
      | cons b values =>
        simp only [List.map_cons, Token.separated, List.append_assoc, List.cons_append]
        apply gives_check_bind.2
        rw [gives_atEnd_bind, if_neg (hopen _)]
        refine (ha rfl).bind (gives_skipLayout_bind.2 (takes_skipped_comma.accept_bind (gives_skipLayout_bind.2 ?_)))
        rw [← List.map_cons, skipped_separated hstart _ hcloser]
        exact (ih (fun other hmem => hreads other (by simp [hmem])) (Nat.lt_of_succ_lt_succ hrounds)).bind .pure

theorem forall_of_gives_series [Lined α] {P : α → Prop} {words : α → Language Token} {close : Symbol}
    {item : Parser α} {stop : Eof} (hitem : ∀ rest, rest.length < n →
      Enclosed (.quietly stop tokens) ((Frame.quietly stop tokens).Spelled words P rest) item item rest)
    (hlength : tokens.length < n) (h : Gives (series close item (Inner.ofDepth n).rounds) stop tokens values rest) :
    ∀ a ∈ values, P a :=
  ((conducts_series (fun rest hrest => hitem rest (by omega))
    ((steady_quietly n stop tokens).enough hlength)).value_of_gives h).1

/-! ## Primary expressions -/

theorem isStart_entryTokenList (entry : Expr × Expr) : isStart (nextKind (Expr.entryTokenList entry)) = true := by
  obtain ⟨key, value⟩ := entry
  rw [Expr.entryTokenList, nextKind_tokens_append]
  exact isStart_tokens key

theorem reads_dictionaryEntry {key value : Expr} (hkey : Reads Closer inner.expression Expr.tokens key)
    (hvalue : Reads Closer inner.expression Expr.tokens value) :
    Reads Closer (dictionaryEntry inner) Expr.entryTokenList (key, value) := by
  intro stop rest hcloser
  simp only [Expr.entryTokenList, List.append_assoc, List.cons_append]
  refine (hkey rfl).bind (Takes.cons.accept_bind (gives_skipLayout_bind.2 ?_))
  rw [skipped_tokens (isStart_tokens value)]
  exact (hvalue hcloser).bind .pure

theorem eq_of_gives_closing {close : Symbol} {fault : Fault} {stop : Eof} {a b : α}
    (h : Gives (do expect close fault; return a) stop tokens b rest) : b = a := by
  obtain ⟨_, -, h⟩ := (gives_expect_bind (by simp)).1 h
  exact (gives_pure.1 h).1

include hinner in
theorem rewrites_grouping {stop : Eof} (hlength : tokens.length < n)
    (h : Gives (grouping (Inner.ofDepth n)) stop tokens e rest) (follow : Token.Kind) : Rewrites primary e follow := by
  obtain ⟨content, middle, hcontent, h⟩ := gives_bind.1 h
  obtain rfl := eq_of_gives_closing h
  filter_upwards [hinner.expression hlength hcontent] with m hcontent stop rest _
  simp only [Expr.tokens, List.append_assoc, List.cons_append, List.nil_append]
  exact gives_primary.2 (.opened Takes.cons rfl ((hcontent (Or.inr rfl)).bind (Takes.cons.expect_bind .pure)))

include hinner in
theorem rewrites_arrayLiteral {stop : Eof} (hlength : tokens.length < n)
    (h : Gives (arrayLiteral (Inner.ofDepth n)) stop tokens e rest) (follow : Token.Kind) : Rewrites primary e follow := by
  obtain ⟨elements, middle, helements, h⟩ := gives_bind.1 (gives_skipLayout_bind.1 h)
  obtain rfl := eq_of_gives_closing h
  have hskip : (skipped tokens).length < n := Nat.lt_of_le_of_lt (List.dropWhile_suffix _).length_le hlength
  have hvalues := forall_of_gives_series
    (fun _ hlength => ((steady_quietly n stop (skipped tokens)).expression hlength).enclose) hskip helements
  have hreads := eventually_forall_mem fun e he => ((hvalues e he).given trivial).readsInside hinner hskip
  filter_upwards [hreads, eventually_lt_rounds elements.length] with m hreads hrounds stop rest _
  simp only [Expr.tokens, Expr.tokenLists_eq_map, List.append_assoc, List.cons_append, List.nil_append]
  refine gives_primary.2 (.opened Takes.cons rfl (gives_skipLayout_bind.2 ?_))
  rw [skipped_separated isStart_tokens elements rfl]
  exact (gives_series_separated rfl (by simp) isStart_tokens hreads hrounds rfl).bind (Takes.cons.expect_bind .pure)

include hinner in
theorem rewrites_dictionaryLiteral {stop : Eof} (hlength : tokens.length < n)
    (h : Gives (dictionaryLiteral (Inner.ofDepth n)) stop tokens e rest) (follow : Token.Kind) : Rewrites primary e follow := by
  obtain ⟨entries, middle, hentries, h⟩ := gives_bind.1 (gives_skipLayout_bind.1 h)
  obtain rfl := eq_of_gives_closing h
  have hskip : (skipped tokens).length < n := Nat.lt_of_le_of_lt (List.dropWhile_suffix _).length_le hlength
  have hvalues := forall_of_gives_series
    (fun _ hlength => conducts_dictionaryEntry (steady_quietly n stop (skipped tokens)) hlength) hskip hentries
  have hkeys := eventually_forall_mem fun entry he => ((hvalues entry he).1.given trivial).readsInside hinner hskip
  have hparts := eventually_forall_mem fun entry he => ((hvalues entry he).2.given trivial).readsInside hinner hskip
  filter_upwards [hkeys, hparts, eventually_lt_rounds entries.length] with m hkeys hparts hrounds stop rest _
  simp only [Expr.tokens, Expr.entryTokens_eq_map, List.append_assoc, List.cons_append, List.nil_append]
  refine gives_primary.2 (.opened Takes.cons rfl (gives_skipLayout_bind.2 ?_))
  rw [skipped_separated isStart_entryTokenList entries rfl]
  exact (gives_series_separated rfl (by simp) isStart_entryTokenList
    (fun entry he => reads_dictionaryEntry (hkeys entry he) (hparts entry he)) hrounds rfl).bind
      (Takes.cons.expect_bind .pure)

include hinner in
/-- A lambda is read back behind its word, and its body goes on as far as before. -/
theorem eventually_gives_lambda {isAsync : Bool} {stop : Eof} (hlength : tokens.length < n)
    (h : Gives (lambda (Inner.ofDepth n) isAsync) stop tokens e rest) : ∃ params body, e = .lambda params body isAsync ∧
      ∀ᶠ m in Filter.atTop, ∀ ⦃stop' : Eof⦄ ⦃rest' : List Token⦄, Agrees (nextKind rest) (nextKind rest') →
        Gives (lambda (Inner.ofDepth m) isAsync) stop'
          (Token.separated (Expr.paramTokens params) ++ Token.ofKind Symbol.colon :: (body.tokens ++ rest')) e rest' := by
  obtain ⟨params, middle, hparams, h⟩ := gives_bind.1 h
  obtain ⟨tail, hcolon, h⟩ := (gives_expect_bind (by simp)).1 h
  obtain ⟨body, _, hbody, h⟩ := gives_bind.1 h
  obtain ⟨rfl, rfl⟩ := gives_pure.1 h
  have hshort := (conducts_parameters (steady_quietly n stop tokens) hlength).length_add_le_of_gives hparams
  have htail := hcolon.length
  obtain ⟨hreads, hstandard⟩ := readsDefault_of_parameters hinner hlength hparams
  refine ⟨params, body, rfl, ?_⟩
  filter_upwards [hreads, eventually_lt_rounds params.length, hinner.expression (by omega) hbody]
    with m hreads hrounds hbody stop' rest' hagree
  exact (gives_parameters_separated hreads hstandard hrounds rfl (by simp) rfl).bind
    (Takes.cons.expect_bind ((hbody hagree).bind .pure))

theorem quotedText_quoting (text : String) : quotedText (Token.quoting text) = text.toList := by
  have hlexeme : (Token.quoting text).lexeme.toList = '"' :: (text.toList ++ ['"']) := by
    simp [Token.quoting]
  have hsize : '"'.utf8Size = 1 := by decide
  unfold quotedText
  rw [hlexeme]
  simp [hsize]

theorem literal_tokens {kind : Token.Kind} {value : Literal} (h : literal? kind = some value) :
    value.tokens = [.ofKind kind] := by
  unfold literal? at h
  split at h <;> cases h <;> rfl

/-- A variable named `r` is not taken for a regular expression, since no string follows it. -/
theorem rewrites_variableOrRegex {name : String} {token : Token} {stop : Eof}
    (h : Gives (variableOrRegex name) stop (token :: tokens) e rest) : Rewrites primary e (nextKind rest) := by
  rcases gives_variableOrRegex.1 h with ⟨next, pattern, flags, rfl, -, hsplit, rfl⟩ | ⟨-, rfl, rfl⟩
  · refine .of_forall fun m stop' rest' _ => ?_
    simp only [Expr.tokens, Literal.tokens, List.cons_append, List.nil_append]
    refine gives_primary.2 (.named rfl (gives_variableOrRegex.2 (Or.inl
      ⟨_, pattern, flags, rfl, ⟨rfl, rfl, rfl⟩, ?_, rfl⟩)))
    rw [quotedText_quoting, ← hsplit, eq_append_of_split? hsplit]
    simp
  · refine .of_forall fun m stop' rest' hagree => ?_
    simp only [Expr.tokens, List.cons_append, List.nil_append]
    refine gives_primary.2 (.named rfl (gives_variableOrRegex.2 (Or.inr ⟨?_, rfl, rfl⟩)))
    rintro next hnext ⟨-, hstring, -⟩
    obtain ⟨more, rfl⟩ := List.head?_eq_some_iff.1 hnext
    rcases hagree with ⟨hsame, hno⟩ | hcloser
    · rw [← hsame, nextKind_cons, hstring] at hno
      cases hno
    · rw [nextKind_cons] at hcloser
      rw [isString_of_isCloser hcloser] at hstring
      cases hstring

include hinner in
theorem rewritesAt_primary : RewritesAt (n + 1) (primary (Inner.ofDepth n)) primary := by
  intro stop tokens e rest hlength h
  cases gives_primary.1 h with
  | literal hvalue =>
    refine .of_forall fun m stop' rest' _ => ?_
    rw [Expr.tokens, literal_tokens hvalue]
    exact gives_primary.2 (.literal hvalue)
  | named _ h => exact rewrites_variableOrRegex h
  | opened htake hp h =>
    have htail := htake.length
    unfold opened? at hp
    split at hp
    case h_6 => cases hp
    all_goals obtain rfl := Option.some.inj hp
    · exact rewrites_grouping hinner (by omega) h _
    · exact rewrites_arrayLiteral hinner (by omega) h _
    · exact rewrites_dictionaryLiteral hinner (by omega) h _
    · obtain ⟨params, body, rfl, hreads⟩ := eventually_gives_lambda hinner (by omega) h
      filter_upwards [hreads] with m hreads stop' rest' hagree
      simp only [Expr.tokens, List.append_assoc, List.cons_append, List.nil_append, Bool.false_eq_true, if_false]
      exact gives_primary.2 (.opened Takes.cons rfl (hreads hagree))
    · obtain ⟨tail, hlambda, h⟩ := (gives_expect_bind (by simp)).1 h
      have htail' := hlambda.length
      obtain ⟨params, body, rfl, hreads⟩ := eventually_gives_lambda hinner (by omega) h
      filter_upwards [hreads] with m hreads stop' rest' hagree
      simp only [Expr.tokens, List.append_assoc, List.cons_append, List.nil_append, if_true]
      exact gives_primary.2 (.opened Takes.cons rfl (Takes.cons.expect_bind (hreads hagree)))

/-! ## Calls, members and subscripts -/

theorem reads_argument (h : Reads Closer inner.expression Expr.tokens e) :
    Reads Closer (argument inner) Expr.tokens e := by
  intro stop rest hcloser
  refine gives_skipLayout_bind.2 ?_
  rw [skipped_tokens (isStart_tokens e)]
  refine (h hcloser).bind (gives_skipLayout_bind.2 ?_)
  rw [skipped_of_isCloser hcloser]
  exact .pure

theorem separated_map_cons (write : α → List Token) (a : α) (values : List α) :
    Token.separated ((a :: values).map write) =
      write a ++ values.flatMap fun b => Token.ofKind Symbol.comma :: write b := by
  induction values generalizing a with
  | nil => simp [Token.separated]
  | cons b values ih => rw [List.map_cons, List.map_cons, Token.separated, ← List.map_cons, ih, List.flatMap_cons, List.cons_append]

/-- A repetition on canonical writings, each of which may follow another, in front of something that ends it. -/
theorem gives_many_flatMap {β : Type} {item : Parser (Option β)} {wrap : α → β}
    (follows : Token.Kind → Prop) {stop : Eof}
    (hsome : ∀ a ∈ values, ∀ rest, follows (nextKind rest) → Gives item stop (write a ++ rest) (some (wrap a)) rest)
    (hmore : ∀ a rest, follows (nextKind (write a ++ rest))) (hend : follows (nextKind rest))
    (hnone : Gives item stop rest none rest) (hrounds : values.length < rounds) :
    Gives (many item rounds) stop (values.flatMap write ++ rest) (values.map wrap) rest := by
  induction values generalizing rounds with
  | nil =>
    cases rounds with
    | zero => exact absurd hrounds (Nat.not_lt_zero _)
    | succ rounds => exact hnone.bind .pure
  | cons a values ih =>
    have hnext : follows (nextKind (values.flatMap write ++ rest)) := by
      cases values with
      | nil => exact hend
      | cons b values =>
        rw [List.flatMap_cons, List.append_assoc]
        exact hmore b _
    cases rounds with
    | zero => exact absurd hrounds (Nat.not_lt_zero _)
    | succ rounds =>
      rw [List.flatMap_cons, List.append_assoc, List.map_cons]
      exact (hsome a (by simp) _ hnext).bind
        ((ih (fun b hmem => hsome b (by simp [hmem])) (Nat.lt_of_succ_lt_succ hrounds)).bind .pure)

theorem gives_arguments_separated {values : List Expr}
    (hreads : ∀ e ∈ values, Reads Closer inner.expression Expr.tokens e)
    (hrounds : values.length < inner.rounds) {stop : Eof} :
    Gives (arguments inner) stop (Token.separated (values.map Expr.tokens) ++ Token.ofKind Symbol.rightParen :: rest)
      values rest := by
  refine gives_skipLayout_bind.2 ?_
  rw [skipped_separated isStart_tokens values rfl]
  apply gives_check_bind.2
  cases values with
  | nil =>
    exact Gives.bind .pure (gives_skipLayout_bind.2 (Takes.cons.expect_bind .pure))
  | cons e values =>
    have hothers : Gives (many (afterToken Symbol.comma (argument inner)) inner.rounds) stop
        (values.flatMap (fun e => Token.ofKind Symbol.comma :: e.tokens) ++ Token.ofKind Symbol.rightParen :: rest)
        (values.map id) (Token.ofKind Symbol.rightParen :: rest) := by
      refine gives_many_flatMap Closer (fun other hmem rest hcloser => ?_) (fun _ _ => rfl) rfl
        ((gives_afterToken (by simp)).2 (Or.inr ⟨by simp, rfl, rfl⟩)) (Nat.lt_of_succ_lt hrounds)
      exact (gives_afterToken (by simp)).2 (Or.inl
        ⟨_, other, Takes.cons, reads_argument (hreads other (List.mem_cons_of_mem e hmem)) hcloser, rfl⟩)
    have hrest : isCloser (nextKind (values.flatMap (fun e => Token.ofKind Symbol.comma :: e.tokens) ++
        Token.ofKind Symbol.rightParen :: rest)) = true := by
      cases values with
      | nil => rfl
      | cons next values => rfl
    rw [List.map_id] at hothers
    rw [separated_map_cons, List.append_assoc]
    have hopen : nextKind e.tokens ≠ .symbol .rightParen := ne_of_isStart (isStart_tokens e) rfl
    rw [nextKind_tokens_append, if_neg (mt beq_iff_eq.1 hopen)]
    exact (reads_argument (hreads e (by simp)) hrest).bind (hothers.bind (Gives.bind .pure
      (gives_skipLayout_bind.2 (Takes.cons.expect_bind .pure))))

/-- A bound of a subscript, if there is one, is read back. -/
def ReadsBound (inner : Inner) (value : Option Expr) : Prop :=
  ∀ e, value = some e → Reads Closer inner.expression Expr.tokens e

include hinner in
theorem readsBound_of_bound {stop : Eof}
    (hlength : tokens.length < n) (h : Gives (bound (Inner.ofDepth n) terminator) stop tokens value rest) :
    ∀ᶠ m in Filter.atTop, ReadsBound (Inner.ofDepth m) value := by
  refine eventually_forall_some ?_
  rintro e rfl
  rcases gives_bound.1 h with ⟨-, hnone, -⟩ | ⟨-, _, he, ⟨⟩⟩
  · cases hnone
  · exact Rewrites.readsExpr (hinner.expression hlength he)

theorem gives_bound_tokens? (hreads : ReadsBound inner value)
    (hterminator : isCloser terminator = true) {stop : Eof} (hcloser : isCloser (nextKind rest) = true)
    (hnone : value = none → nextKind rest = .symbol terminator) :
    Gives (bound inner terminator) stop (Expr.tokens? [] value ++ rest) value rest := by
  refine gives_bound.2 ?_
  cases value with
  | none =>
    rw [Expr.tokens?]
    exact Or.inl ⟨hnone rfl, rfl, rfl⟩
  | some e =>
    rw [Expr.tokens?, List.nil_append]
    refine Or.inr ⟨?_, e, hreads e rfl hcloser, rfl⟩
    rw [nextKind_tokens_append]
    exact ne_of_isStart (isStart_tokens e) (isStart_of_isCloser hterminator)

/-- A subscript without a colon has an index and no end. -/
def IsIndexed (start : Option Expr) (colon : Bool) (stop : Option Expr) : Prop :=
  colon = false → start ≠ none ∧ stop = none

include hinner in
theorem readsBound_of_subscript {stop : Eof} (hlength : tokens.length < n)
    (h : Gives (subscript (Inner.ofDepth n) object) stop tokens e rest) : ∃ first colon last,
      e = .subscript object first colon last ∧ (∀ᶠ m in Filter.atTop, ReadsBound (Inner.ofDepth m) first) ∧
        (∀ᶠ m in Filter.atTop, ReadsBound (Inner.ofDepth m) last) ∧ IsIndexed first colon last := by
  obtain ⟨first, middle, hfirst, h⟩ := gives_bind.1 h
  have hshort := (conducts_bound (steady_quietly n stop tokens) hlength).length_add_le_of_gives hfirst
  have hreads := readsBound_of_bound hinner hlength hfirst
  rcases (gives_accept_bind (by simp)).1 h with ⟨tail, hcolon, h⟩ | ⟨hcolon, h⟩
  · have htail := hcolon.length
    obtain ⟨last, after, hlast, h⟩ := gives_bind.1 h
    obtain rfl := eq_of_gives_closing h
    exact ⟨first, true, last, rfl, hreads, readsBound_of_bound hinner (by omega) hlast, fun h => (by cases h)⟩
  · obtain rfl := eq_of_gives_closing h
    refine ⟨first, false, none, rfl, hreads, .of_forall fun _ _ h => (by cases h), fun _ => ⟨?_, rfl⟩⟩
    rintro rfl
    rcases gives_bound.1 hfirst with ⟨hkind, -, rfl⟩ | ⟨-, _, -, hsome⟩
    · exact hcolon hkind
    · cases hsome

theorem gives_subscript_tokens {first : Option Expr} {colon : Bool} {last : Option Expr}
    (hfirst : ReadsBound inner first) (hlast : ReadsBound inner last) (hindexed : IsIndexed first colon last) {stop : Eof} :
    Gives (subscript inner object) stop
      (Expr.tokens? [] first ++ ((if colon then [Token.ofKind Symbol.colon] else []) ++
        (Expr.tokens? [] last ++ Token.ofKind Symbol.rightBracket :: rest))) (.subscript object first colon last)
      rest := by
  cases colon with
  | true =>
    exact (gives_bound_tokens? hfirst rfl rfl (fun _ => rfl)).bind (Takes.cons.accept_bind
      ((gives_bound_tokens? hlast rfl rfl (fun _ => rfl)).bind (Takes.cons.expect_bind .pure)))
  | false =>
    obtain ⟨hsome, rfl⟩ := hindexed rfl
    exact (gives_bound_tokens? hfirst rfl rfl (fun h => absurd h hsome)).bind
      (gives_accept_bind_of_ne (by simp [Expr.tokens?]) (Takes.cons.expect_bind .pure))

/-! ## Repetitions -/

/-- A step that leads from `a` to `b` is taken again on the tokens that the canonical writing of `b` has more, which
start with the same kind of token. -/
def StepRewrites (step : Inner → Expr → Parser (Option Expr)) (a b : Expr) (next follow : Token.Kind) : Prop :=
  ∃ more, b.tokens = a.tokens ++ more ∧ more ≠ [] ∧ nextKind more = next ∧ next.isString = false ∧
    ∀ᶠ m in Filter.atTop, ∀ ⦃stop : Eof⦄ ⦃rest : List Token⦄, Agrees follow (nextKind rest) →
      Gives (step (Inner.ofDepth m) a) stop (more ++ rest) (some b) rest

/-- The canonical writing of `e` leads to `e` in some rounds, from which the repetition can go on. -/
def LoopRewrites (first : Inner → Parser Expr) (step : Inner → Expr → Parser (Option Expr)) (e : Expr)
    (follow : Token.Kind) : Prop :=
  ∃ count, ∀ᶠ m in Filter.atTop, ∀ ⦃stop : Eof⦄ ⦃rest : List Token⦄, Agrees follow (nextKind rest) →
    ∃ start middle, Gives (first (Inner.ofDepth m)) stop (e.tokens ++ rest) start middle ∧
      ∀ {rounds result last}, Gives (iterate (step (Inner.ofDepth m)) rounds e) stop rest result last →
        Gives (iterate (step (Inner.ofDepth m)) (rounds + count) start) stop middle result last

theorem Rewrites.loopRewrites {first : Inner → Parser Expr}
    (h : Rewrites first e follow) (step : Inner → Expr → Parser (Option Expr)) : LoopRewrites first step e follow := by
  refine ⟨0, ?_⟩
  filter_upwards [h] with m h stop rest hagree
  exact ⟨e, rest, h hagree, id⟩

theorem LoopRewrites.step {first : Inner → Parser Expr} {step : Inner → Expr → Parser (Option Expr)} {a b : Expr}
    (h : LoopRewrites first step a next) (hstep : StepRewrites step a b next follow) :
    LoopRewrites first step b follow := by
  obtain ⟨count, h⟩ := h
  obtain ⟨more, htokens, hne, hnext, hstring, hmore⟩ := hstep
  refine ⟨1 + count, ?_⟩
  filter_upwards [h, hmore] with m h hmore stop rest hagree
  have hfollow : Agrees next (nextKind (more ++ rest)) := by
    rw [nextKind_append hne, hnext]
    exact Agrees.refl hstring
  obtain ⟨start, middle, hfirst, hrounds⟩ := h hfollow
  rw [htokens, List.append_assoc]
  refine ⟨start, middle, hfirst, fun hresult => ?_⟩
  rw [← Nat.add_assoc]
  exact hrounds ((hmore hagree).bind hresult)

/-- By induction on the rounds of the run at hand: each step is taken again, and the run ends in front of what no step
takes. -/
theorem loopRewrites_of_iterate {first : Inner → Parser Expr} {step : Inner → Expr → Parser (Option Expr)} {stop : Eof}
    {bound : Nat} (hshrinks : ∀ e, Shrinks (step inner e) stop bound)
    (hstep : ∀ {a b tokens rest}, tokens.length < bound → Gives (step inner a) stop tokens (some b) rest →
      StepRewrites step a b (nextKind tokens) (nextKind rest))
    {a b : Expr} (hlength : tokens.length < bound) (hrounds : tokens.length ≤ rounds)
    (h : Gives (iterate (step inner) rounds a) stop tokens b rest) (ha : LoopRewrites first step a (nextKind tokens)) :
    LoopRewrites first step b (nextKind rest) ∧ Gives (step inner b) stop rest none rest := by
  induction rounds generalizing a tokens with
  | zero =>
    obtain rfl := List.length_eq_zero_iff.1 (Nat.le_zero.1 hrounds)
    obtain ⟨rfl, rfl⟩ := gives_pure.1 h
    exact ⟨ha, (hshrinks _).atEnd⟩
  | succ rounds ih =>
    obtain ⟨found, middle, hfound, h⟩ := gives_bind.1 h
    cases found with
    | none =>
      obtain ⟨rfl, rfl⟩ := gives_pure.1 h
      obtain rfl := (hshrinks _).same hfound
      exact ⟨ha, hfound⟩
    | some c =>
      have hshort := (hshrinks a).shorter hlength.le hfound
      exact ih (by omega) (by omega) h (ha.step (hstep hlength hfound))

/-- A repetition that decides by the next token whether to go on, whose parts take tokens at the depth `n`. -/
structure Loop (n : Nat) (loop first : Inner → Parser Expr) (step : Inner → Expr → Parser (Option Expr)) : Prop where
  gives : ∀ {inner stop tokens e rest}, Gives (loop inner) stop tokens e rest ↔ ∃ start middle,
    Gives (first inner) stop tokens start middle ∧ Gives (iterate (step inner) inner.rounds start) stop middle e rest
  shorter : ∀ {stop tokens e rest}, tokens.length ≤ n → Gives (first (Inner.ofDepth n)) stop tokens e rest →
    rest.length < tokens.length
  shrinks : ∀ stop e, Shrinks (step (Inner.ofDepth n) e) stop n
  done : ∀ {m stop stop' e tokens rest}, Gives (step (Inner.ofDepth n) e) stop tokens none tokens →
    Agrees (nextKind tokens) (nextKind rest) → Gives (step (Inner.ofDepth m) e) stop' rest none rest

theorem Loop.rewritesAt {loop first : Inner → Parser Expr} {step : Inner → Expr → Parser (Option Expr)}
    (hloop : Loop n loop first step) (hfirst : RewritesAt (n + 1) (first (Inner.ofDepth n)) first)
    (hstep : ∀ {stop a b tokens rest}, tokens.length < n + 1 →
      Gives (step (Inner.ofDepth n) a) stop tokens (some b) rest →
        StepRewrites step a b (nextKind tokens) (nextKind rest)) :
    RewritesAt (n + 1) (loop (Inner.ofDepth n)) loop := by
  intro stop tokens e rest hlength h
  obtain ⟨start, middle, hstart, h⟩ := hloop.gives.1 h
  have hshort := hloop.shorter (by omega) hstart
  obtain ⟨⟨count, hagain⟩, hnone⟩ := loopRewrites_of_iterate (hloop.shrinks stop)
    (fun hlength => hstep (Nat.lt_succ_of_lt hlength)) (by omega) (by rw [rounds_ofDepth]; omega) h
    ((hfirst hlength hstart).loopRewrites step)
  filter_upwards [hagain, eventually_lt_rounds count] with m hagain hrounds stop' rest' hagree
  obtain ⟨start', middle', hstart', hrounds'⟩ := hagain hagree
  refine hloop.gives.2 ⟨start', middle', hstart', ?_⟩
  obtain ⟨more, hmore⟩ := Nat.exists_eq_add_of_lt hrounds
  rw [hmore, Nat.add_comm count, Nat.add_right_comm]
  exact hrounds' ((hloop.done hnone hagree).bind .pure)

theorem isSuffix_of_isCloser {kind : Token.Kind} (h : isCloser kind = true) : isSuffix kind = false := by
  cases kind with
  | symbol sign => cases sign <;> simp_all [isCloser, isSuffix]
  | _ => cases h

theorem loop_call : Loop n call primary suffix where
  gives := gives_bind
  shorter hlength h := (conducts_primary (steady_quietly n _ _) hlength).length_add_le_of_gives h
  shrinks stop e := by
    refine ⟨fun {tokens b rest} hlength h => ?_, fun h => (gives_suffix_none.1 h).2, gives_suffix_none.2 ⟨rfl, rfl⟩⟩
    have hsuffix := conducts_suffix (steady_quietly n stop tokens) e tokens hlength
    rw [show reline (Frame.quietly stop tokens).shift.line e = e from Lined.reline_id e] at hsuffix
    exact hsuffix.length_add_le_of_gives h
  done h hagree := by
    refine gives_suffix_none.2 ⟨?_, rfl⟩
    exact hagree.imp (isSuffix · = false) (fun _ => isSuffix_of_isCloser) (gives_suffix_none.1 h).1

theorem isProperty_memberToken (name : Ident) : IsProperty name.memberToken name := by
  unfold Ident.memberToken
  split
  · exact ⟨Or.inr ⟨rfl, rfl⟩, rfl⟩
  · exact ⟨Or.inl rfl, rfl⟩

include hinner in
theorem stepRewrites_suffix {stop : Eof} (hlength : tokens.length < n + 1)
    (h : Gives (suffix (Inner.ofDepth n) object) stop tokens (some e) rest) :
    StepRewrites suffix object e (nextKind tokens) (nextKind rest) := by
  cases gives_suffix_some.1 h with
  | @call _ tail _ values htake h =>
    have htail : tail.length < n := by
      rw [htake.length] at hlength
      omega
    obtain ⟨hvalues, -⟩ :=
      (conducts_arguments (steady_quietly n stop tail) (fun _ => htake.closes) htail).value_of_gives h
    have hreads := eventually_forall_mem fun e he => ((hvalues e he).given trivial).readsInside hinner htail
    rw [htake.nextKind]
    refine ⟨_, by rw [Expr.tokens], by simp, rfl, rfl, ?_⟩
    filter_upwards [hreads, eventually_lt_rounds values.length] with m hreads hrounds stop' rest' _
    simp only [Expr.tokenLists_eq_map, List.cons_append, List.append_assoc, List.nil_append]
    exact gives_suffix_some.2 (.call Takes.cons (gives_arguments_separated hreads hrounds))
  | get htake h =>
    rw [htake.nextKind]
    refine ⟨_, by rw [Expr.tokens], by simp, rfl, rfl, .of_forall fun m stop' rest' _ => ?_⟩
    exact gives_suffix_some.2 (.get Takes.cons (isProperty_memberToken _).gives)
  | subscript htake h =>
    have htail := htake.length
    obtain ⟨first, colon, last, rfl, hfirst, hlast, hindexed⟩ := readsBound_of_subscript hinner (by omega) h
    rw [htake.nextKind]
    refine ⟨_, by rw [Expr.tokens], by simp, rfl, rfl, ?_⟩
    filter_upwards [hfirst, hlast] with m hfirst hlast stop' rest' _
    simp only [List.cons_append, List.append_assoc, List.nil_append]
    exact gives_suffix_some.2 (.subscript Takes.cons (gives_subscript_tokens hfirst hlast hindexed))
  | @update _ op _ _ hop htake hupdatable =>
    obtain rfl := token_of_updateOp? hop
    rw [htake.nextKind]
    refine ⟨_, by rw [Expr.tokens], by simp, rfl, by cases op <;> rfl, .of_forall fun m stop' rest' _ => ?_⟩
    exact gives_suffix_some.2 (.update hop Takes.cons hupdatable)

end

/-! ## Operators -/

section
variable {operator? : Token.Kind → Option (Expr → Expr → Expr)} {level m k : Nat}
  (hmem : (level, m, k, operator?) ∈ chainLevels)
include hmem

/-- The operators of a chain are no closers and no strings, and are written between their operands. -/
theorem written_of_mem_chainLevels : (∀ kind, isCloser kind = true → operator? kind = none) ∧
    ∀ kind join, operator? kind = some join → kind.isString = false ∧
      ∀ left right : Expr, (join left right).tokens = left.tokens ++ .ofKind kind :: right.tokens := by
  simp only [chainLevels, List.mem_cons, List.not_mem_nil, Prod.mk.injEq, or_false] at hmem
  rcases hmem with ⟨-, -, -, rfl⟩ | ⟨-, -, -, rfl⟩ | ⟨-, -, -, rfl⟩ | ⟨-, -, -, rfl⟩ | ⟨-, -, -, rfl⟩ |
    ⟨-, -, -, rfl⟩ | ⟨-, -, -, rfl⟩ | ⟨-, -, -, rfl⟩ | ⟨-, -, -, rfl⟩ | ⟨-, -, -, rfl⟩
  all_goals
    refine ⟨fun kind hcloser => ?_, fun kind join hjoin => ?_⟩
    · cases kind with
      | symbol sign => cases sign <;> first | rfl | cases hcloser
      | _ => cases hcloser
    · simp only [multiplicativeOp?, additiveOp?, shiftOp?, bitAndOp?, bitOrOp?, comparisonOp?, equalityOp?,
        membershipOp?, conjunctionOp?, disjunctionOp?] at hjoin
      split at hjoin <;> cases hjoin <;> exact ⟨rfl, fun _ _ => by rw [Expr.tokens]; rfl⟩

variable {first operand : Inner → Parser Expr} {n : Nat}

theorem loop_chain (hfirst : SteadyAt n m first) (hoperand : SteadyAt n k operand) :
    Loop n (fun inner => chain inner.rounds operator? (first inner) (operand inner)) first
      fun inner => link operator? (operand inner) where
  gives := gives_bind
  shorter := hfirst.length_lt
  shrinks stop e := by
    have heof := (joins_of_mem_chainLevels hmem).2.eof
    refine ⟨fun {tokens b rest} hlength h => ?_, fun h => (gives_link_none.1 h).2, gives_link_none.2 ⟨heof, rfl⟩⟩
    obtain ⟨kind, join, middle, right, -, htake, hright, -⟩ := (gives_link_some heof).1 h
    have htail := htake.length
    have hshort := hoperand.length_lt (by omega) hright
    omega
  done h hagree := by
    refine gives_link_none.2 ⟨?_, rfl⟩
    exact hagree.imp (operator? · = none) (written_of_mem_chainLevels hmem).1 (gives_link_none.1 h).1

theorem stepRewrites_link (hrewrites : RewritesAt (n + 1) (operand (Inner.ofDepth n)) operand) {stop : Eof}
    {left : Expr} (hlength : tokens.length < n + 1)
    (h : Gives (link operator? (operand (Inner.ofDepth n)) left) stop tokens (some e) rest) :
    StepRewrites (fun inner => link operator? (operand inner)) left e (nextKind tokens) (nextKind rest) := by
  have heof := (joins_of_mem_chainLevels hmem).2.eof
  obtain ⟨kind, join, middle, right, hjoin, htake, hright, rfl⟩ := (gives_link_some heof).1 h
  have htail := htake.length
  obtain ⟨hstring, htokens⟩ := (written_of_mem_chainLevels hmem).2 kind join hjoin
  rw [htake.nextKind]
  refine ⟨_, htokens left right, by simp, rfl, hstring, ?_⟩
  filter_upwards [hrewrites (by omega) hright] with m hright stop' rest' hagree
  exact (gives_link_some heof).2 ⟨kind, join, _, right, hjoin, Takes.cons, hright hagree, rfl⟩

end

/-- The parser conducts itself at a depth, and what it gives is read back. -/
def Returns (n level : Nat) (p : Inner → Parser Expr) : Prop :=
  SteadyAt n level p ∧ RewritesAt (n + 1) (p (Inner.ofDepth n)) p

theorem returns_chain {operator? : Token.Kind → Option (Expr → Expr → Expr)} {level m k : Nat}
    (hmem : (level, m, k, operator?) ∈ chainLevels) {first operand : Inner → Parser Expr} {n : Nat}
    (hfirst : Returns n m first) (hoperand : Returns n k operand) :
    Returns n level fun inner => chain inner.rounds operator? (first inner) (operand inner) :=
  ⟨fun stop source _ hlength => conducts_chain (steady_quietly n stop source) hmem hlength
    (hfirst.1 stop source hlength) (hoperand.1 stop source),
    (loop_chain hmem hfirst.1 hoperand.1).rewritesAt hfirst.2 fun hlength h =>
      stepRewrites_link hmem hoperand.2 hlength h⟩

theorem canonicalKind_of_unaryOp? {kind : Token.Kind} (h : unaryOp? kind = none) : canonicalKind kind = kind := by
  unfold canonicalKind
  split
  · cases h
  · rfl

theorem wordKind?_canonicalKind {other : Inner} {kind : Token.Kind} (h : wordKind? inner kind = none) :
    wordKind? other (canonicalKind kind) = none := by
  unfold canonicalKind
  split
  · rfl
  · cases kind with
    | keyword word =>
      cases word with
      | kwNew | kwAwait | kwTypeof | kwVoid | kwDelete => cases h
      | _ => rfl
    | _ => rfl

theorem assignment?_tokens {target value : Expr} (h : assignment? target value = some e) :
    e.tokens = target.tokens ++ .ofKind Symbol.equal :: value.tokens := by
  unfold assignment? at h
  split at h <;> cases h <;> simp [Expr.tokens]

section
variable {n : Nat} (hinner : RewritesInside n)
include hinner

theorem rewritesAt_call : RewritesAt (n + 1) (call (Inner.ofDepth n)) call :=
  loop_call.rewritesAt (rewritesAt_primary hinner) (stepRewrites_suffix hinner)

/-- The operand of a word is read back by a parser that the word alone tells. -/
theorem rewritesAt_wordKind? {kind : Token.Kind} {op : WordOp} {operand : Parser Expr}
    (h : wordKind? (Inner.ofDepth n) kind = some (op, operand)) :
    ∃ q : Inner → Parser Expr, (∀ inner, wordKind? inner op.word = some (op, q inner)) ∧ RewritesAt n operand q := by
  unfold wordKind? wordOp? at h
  split at h
  · split at h <;> cases h
    · exact ⟨_, fun _ => rfl, hinner.worded⟩
    all_goals exact ⟨_, fun _ => rfl, hinner.unary⟩
  · cases h

theorem rewritesAt_worded : RewritesAt (n + 1) (worded (Inner.ofDepth n)) worded := by
  intro stop tokens e rest hlength h
  rcases gives_worded.1 h with ⟨kind, ⟨op, operand⟩, middle, hop, htake, value, hvalue, rfl⟩ | ⟨hnone, h⟩
  · obtain ⟨q, hword, hoperand⟩ := rewritesAt_wordKind? hinner hop
    have htail := htake.length
    filter_upwards [hoperand (by omega) hvalue] with m hvalue stop' rest' hagree
    rw [Expr.tokens]
    exact gives_worded.2 (Or.inl ⟨op.word, _, _, hword _, Takes.cons, value, hvalue hagree, rfl⟩)
  · have hsteady : SteadyAt n 16 call := fun stop source => conducts_call (steady_quietly n stop source)
    have hhead := hsteady.nextKind_tokens (by omega) h
    filter_upwards [rewritesAt_call hinner hlength h] with m hagain stop' rest' hagree
    refine gives_worded.2 (Or.inr ⟨?_, hagain hagree⟩)
    rw [nextKind_tokens_append, hhead]
    exact wordKind?_canonicalKind hnone

theorem rewritesAt_unary : RewritesAt (n + 1) (unary (Inner.ofDepth n)) unary := by
  intro stop tokens e rest hlength h
  rcases gives_unary.1 h with ⟨kind, op, middle, hop, htake, value, hvalue, rfl⟩ |
    ⟨hnone, ⟨kind, op, middle, hop, htake, value, ⟨hvalue, hupdatable⟩, rfl⟩ | ⟨hupdate, h⟩⟩
  · have htail := htake.length
    filter_upwards [hinner.unary (by omega) hvalue] with m hvalue stop' rest' hagree
    rw [Expr.tokens]
    exact gives_unary.2 (Or.inl ⟨op.token, op, _, by cases op <;> rfl, Takes.cons, value, hvalue hagree, rfl⟩)
  · have htail := htake.length
    filter_upwards [hinner.unary (by omega) hvalue] with m hvalue stop' rest' hagree
    rw [Expr.tokens]
    exact gives_unary.2 (Or.inr ⟨by cases op <;> rfl, Or.inl ⟨op.token, op, _, by cases op <;> rfl, Takes.cons, value,
      ⟨hvalue hagree, hupdatable⟩, rfl⟩⟩)
  · have hsteady : SteadyAt n 15 worded := fun stop source => conducts_worded (steady_quietly n stop source)
    have hhead := hsteady.nextKind_tokens (by omega) h
    rw [canonicalKind_of_unaryOp? hnone] at hhead
    filter_upwards [rewritesAt_worded hinner hlength h] with m hagain stop' rest' hagree
    refine gives_unary.2 (Or.inr ⟨?_, Or.inr ⟨?_, hagain hagree⟩⟩)
    · rwa [nextKind_tokens_append, hhead]
    · rwa [nextKind_tokens_append, hhead]

theorem rewritesAt_exponent : RewritesAt (n + 1) (exponent (Inner.ofDepth n)) exponent := by
  intro stop tokens e rest hlength h
  obtain ⟨base, middle, hbase, h⟩ := gives_bind.1 h
  have hshort := (conducts_unary (steady_quietly n stop tokens) (by omega)).length_add_le_of_gives hbase
  have hagain := rewritesAt_unary hinner hlength hbase
  rcases (gives_accept_bind (by simp)).1 h with ⟨tail, htake, h⟩ | ⟨hne, h⟩
  · obtain ⟨power, _, hpower, h⟩ := gives_bind.1 h
    obtain ⟨rfl, rfl⟩ := gives_pure.1 h
    have htail := htake.length
    rw [htake.nextKind] at hagain
    filter_upwards [hagain, hinner.exponent (by omega) hpower] with m hbase hpower stop' rest' hagree
    rw [Expr.tokens, List.append_assoc, List.cons_append]
    exact (hbase (Agrees.refl rfl)).bind (Takes.cons.accept_bind ((hpower hagree).bind .pure))
  · obtain ⟨rfl, rfl⟩ := gives_pure.1 h
    filter_upwards [hagain] with m hagain stop' rest' hagree
    exact (hagain hagree).bind (gives_accept_bind_of_ne (hagree.ne rfl hne) .pure)

omit hinner in
theorem returns_ternary (h : Returns n 6 equality) : Returns n 5 ternary := by
  obtain ⟨hsteady, hequality⟩ := h
  refine ⟨fun stop source _ hlength => conducts_ternary (hsteady stop source) hlength,
    fun stop tokens e rest hlength h => ?_⟩
  obtain ⟨condition, middle, hcondition, h⟩ := gives_bind.1 h
  have hshort := hsteady.length_lt (by omega) hcondition
  have hagain := hequality hlength hcondition
  rcases (gives_accept_bind (by simp)).1 h with ⟨tail, htake, h⟩ | ⟨hne, h⟩
  · obtain ⟨yes, after, hyes, h⟩ := gives_bind.1 h
    obtain ⟨no, _, hno, h⟩ := gives_bind.1 h
    obtain ⟨rfl, rfl⟩ := gives_pure.1 h
    have htail := htake.length
    have hshort' := hsteady.length_lt (by omega) hyes
    have hyes := hequality (by omega) hyes
    rw [htake.nextKind] at hagain
    -- the token behind the second part is `else`, or what follows the whole
    rcases (gives_afterToken (by simp)).1 hno with ⟨tail', e, helse, he, rfl⟩ | ⟨hne, rfl, rfl⟩
    · have htail' := helse.length
      rw [helse.nextKind] at hyes
      filter_upwards [hagain, hyes, hequality (by omega) he] with m hcondition hyes he stop' rest' hagree
      simp only [Expr.tokens, List.append_assoc, List.cons_append]
      exact (hcondition (Agrees.refl rfl)).bind (Takes.cons.accept_bind ((hyes (Agrees.refl rfl)).bind
        (Gives.bind (Takes.cons.accept_bind ((he hagree).bind .pure)) .pure)))
    · filter_upwards [hagain, hyes] with m hcondition hyes stop' rest' hagree
      simp only [Expr.tokens, List.append_assoc, List.cons_append]
      exact (hcondition (Agrees.refl rfl)).bind (Takes.cons.accept_bind ((hyes hagree).bind
        (Gives.bind (gives_accept_bind_of_ne (hagree.ne rfl hne) .pure) .pure)))
  · obtain ⟨rfl, rfl⟩ := gives_pure.1 h
    filter_upwards [hagain] with m hagain stop' rest' hagree
    exact (hagain hagree).bind (gives_accept_bind_of_ne (hagree.ne rfl hne) .pure)

theorem rewritesAt_disjunction : RewritesAt (n + 1) (disjunction (Inner.ofDepth n)) disjunction :=
  (forall_operatorLevels (Q := Returns n)
    ⟨fun stop source => conducts_exponent (steady_quietly n stop source), rewritesAt_exponent hinner⟩
    (fun hmem => returns_chain hmem) returns_ternary disjunction_mem).2

theorem rewritesAt_expression : RewritesAt (n + 1) (expression (Inner.ofDepth n)) expression := by
  intro stop tokens e rest hlength h
  obtain ⟨target, middle, htarget, h⟩ := gives_expression.1 h
  have hshort :=
    (conducts_operators (steady_quietly n stop tokens) disjunction_mem (by omega)).length_add_le_of_gives htarget
  have hagain := rewritesAt_disjunction hinner hlength htarget
  rcases h with ⟨tail, value, htake, hvalue, hassign⟩ | ⟨hne, rfl, rfl⟩
  · have htail := htake.length
    rw [htake.nextKind] at hagain
    filter_upwards [hagain, hinner.expression (by omega) hvalue] with m htarget hvalue stop' rest' hagree
    rw [assignment?_tokens hassign, List.append_assoc, List.cons_append]
    exact gives_expression.2 ⟨target, _, htarget (Agrees.refl rfl), Or.inl
      ⟨_, value, Takes.cons, hvalue hagree, hassign⟩⟩
  · filter_upwards [hagain] with m hagain stop' rest' hagree
    exact gives_expression.2 ⟨e, rest', hagain hagree, Or.inr ⟨hagree.ne rfl hne, rfl, rfl⟩⟩

end

theorem rewrites_ofDepth (n : Nat) : RewritesInside n := by
  induction n with
  | zero => exact ⟨fun _ _ _ _ _ h => absurd h not_gives_fail, fun _ _ _ _ _ h => absurd h not_gives_fail,
      fun _ _ _ _ _ h => absurd h not_gives_fail, fun _ _ _ _ _ h => absurd h not_gives_fail⟩
  | succ n ih =>
    exact ⟨(rewritesAt_expression ih).inside fun _ => rfl, (rewritesAt_exponent ih).inside fun _ => rfl,
      (rewritesAt_unary ih).inside fun _ => rfl, (rewritesAt_worded ih).inside fun _ => rfl⟩

end Offside.Grammar
