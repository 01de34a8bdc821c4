import Offside.Proofs.Grammar.Conduct
import Offside.Proofs.Grammar.Derivation

/-!
# How the parsers of expressions go

The parsers of expressions, told parsers that conduct themselves on short inputs, conduct themselves as well.  A parser
that looks inside only behind a token it took does so on inputs that are one token longer.  Outside of brackets no layout
token is taken at all, so that the layout stands after an expression, or after a failure in it, where it stood before.
The parser of each level gives expressions of this level.
-/

namespace Offside.Grammar

open Offside.Grammar.Parser

variable {α : Type} {m level : Nat} {token : Token} {P : α → Prop} {words : α → Language Token} {close : Symbol}
  {kind : Token.Kind} {operator? : Token.Kind → Option (Expr → Expr → Expr)}

/-- The expressions of the grammar that the source of a frame has, spelled from some tokens on. -/
abbrev Frame.Expression (frame : Frame) : List Token → Expr → List Token → Prop :=
  frame.Spelled Expr.spelling (Derives frame.source frame.given)

/-- Those of a level and of the tighter ones. -/
abbrev Frame.At (frame : Frame) (level : Nat) : List Token → Expr → List Token → Prop :=
  frame.Spelled Expr.spelling (DerivesAt frame.source frame.given level)

/-- The expressions that statements hold, and those between brackets. -/
abbrev Frame.Value (frame : Frame) : List Token → Expr → List Token → Prop :=
  frame.Spelled Expr.spelling (Held frame.source frame.given)

abbrev Frame.Params (frame : Frame) : List Token → List (Param Expr) → List Token → Prop :=
  frame.Spelled (fun params => sepBy (tokenOf Symbol.comma) (Expr.paramSpellings params))
    (ParamsDerive frame.source frame.given)

/-- A parser that leaves the layout as it is, and takes a token for what it gives. -/
abbrev Steady [Lined α] (frame : Frame) (P : α → List Token → Prop) (p q : Parser α) (tokens : List Token) : Prop :=
  Conducts frame (.level 0) 0 (fun _ => 1) P p q tokens

/-- A parser for what stands between brackets. -/
abbrev Enclosed [Lined α] (frame : Frame) (P : α → List Token → Prop) (p q : Parser α) (tokens : List Token) : Prop :=
  Conducts frame .enclosed 0 (fun _ => 1) P p q tokens

/-- The parsers for the expressions that stand inside leave the layout as it is on less than `n` tokens. -/
structure Inner.Steady (frame : Frame) (n : Nat) (inner inner' : Inner) : Prop where
  enough : ∀ {tokens : List Token}, tokens.length < n → Enough tokens inner.rounds inner'.rounds
  tied : frame.given → inner.Tied n
  expression : ∀ {tokens : List Token}, tokens.length < n →
    Grammar.Steady frame (frame.Value tokens) inner.expression inner'.expression tokens
  exponent : ∀ {tokens : List Token}, tokens.length < n →
    Grammar.Steady frame (frame.At 13 tokens) inner.exponent inner'.exponent tokens
  unary : ∀ {tokens : List Token}, tokens.length < n →
    Grammar.Steady frame (frame.Spelled Expr.spelling (GivenAt frame.source frame.given Grammar.unary 14) tokens)
      inner.unary inner'.unary tokens
  worded : ∀ {tokens : List Token}, tokens.length < n →
    Grammar.Steady frame (frame.At 15 tokens) inner.worded inner'.worded tokens

/-- One round of a series: the items found in it, and whether it goes on behind a comma. -/
def seriesRound (close : Symbol) (item : Parser α) : Parser (List α × Bool) := do
  if (← check close) || (← atEnd) then return ([], false)
  else
    let first ← item
    skipLayout
    if ← accept Symbol.comma then
      skipLayout
      return ([first], true)
    else return ([first], false)

theorem series_succ (close : Symbol) (item : Parser α) (rounds : Nat) : series close item (rounds + 1) = do
      let (found, again) ← seriesRound close item
      if again then return found ++ (← series close item rounds) else return found := by
  rw [series, seriesRound]
  simp only [bind_assoc]
  congr 1
  funext closed
  congr 1
  funext ended
  split
  · rfl
  · simp only [bind_assoc]
    congr 1
    funext first
    congr 1
    funext _
    congr 1
    funext accepted
    split
    · simp only [bind_assoc]
      rfl
    · rfl

/-- The words of a round, with the layout or the comma behind its item.  There are no rounds with more items. -/
def roundWords (words : α → Language Token) : List α × Bool → Language Token
  | ([], _) => 1
  | ([a], again) => words a * if again then looseComma else layout
  | _ => 0

/-- A subscript behind its first bound. -/
def subscriptTail (inner : Inner) (object : Expr) (start : Option Expr) : Parser Expr := do
  let colon ← accept Symbol.colon
  let stop ← if colon then bound inner .rightBracket else pure none
  expect Symbol.rightBracket (.notClosed .subscript)
  return .subscript object start colon stop

section
variable {frame : Frame} {n : Nat} {inner inner' : Inner} {tokens : List Token}

theorem DerivesAt.mono {source : List Token} {quiet : Prop} {e : Expr} (h : DerivesAt source quiet n e)
    (hle : m ≤ n) : DerivesAt source quiet m e :=
  ⟨Nat.le_trans hle h.level_le, h.derives⟩

/-- A parser of a level is one of each looser level. -/
theorem Conducts.loosen {ground : Standing} {gain : Nat} {takes : Expr → Nat} {p q : Parser Expr} {front : List Token}
    (h : Conducts frame ground gain takes (frame.At n front) p q tokens) (hle : m ≤ n) :
    Conducts frame ground gain takes (frame.At m front) p q tokens :=
  h.imp fun _ _ he => ⟨he.1.mono hle, he.2⟩

/-! ## Names and parameters -/

theorem conducts_ident {role : Role} :
    Steady frame (frame.Spelled Ident.spelling (Named frame.source) tokens) (ident role) (ident role) tokens := by
  apply conducts_peek_bind
  cases tokens with
  | nil =>
    rw [List.headD_nil, Token.kind_shift, frame.stop.2]
    exact conducts_fail (.inr rfl)
  | cons token tail =>
    rw [List.headD_cons, Token.kind_shift]
    apply conducts_cons
    intro htoken
    split
    · rename_i name hkind
      exact conducts_advance_bind (.level 0) (by rw [hkind]; rfl)
        (conducts_pure (.inr rfl) rfl ⟨⟨token, htoken, hkind, rfl⟩, Frame.spells_single ⟨hkind, rfl⟩⟩ rfl)
    · exact conducts_fail (.inr rfl)

theorem conducts_propertyName : Steady frame (frame.Spelled Ident.memberSpelling (MemberNamed frame.source) tokens)
    propertyName propertyName tokens := by
  apply conducts_peek_bind
  cases tokens with
  | nil =>
    rw [List.headD_nil, Token.kind_shift, frame.stop.2]
    exact conducts_fail (.inr rfl)
  | cons token tail =>
    have hname : ∀ {name : Ident}, token ∈ frame.source → IsProperty token name →
        frame.Spelled Ident.memberSpelling (MemberNamed frame.source) (token :: tail) name tail :=
      fun htoken hname => ⟨⟨token, htoken, hname⟩, Frame.spells_single hname⟩
    rw [List.headD_cons, Token.kind_shift]
    apply conducts_cons
    intro htoken
    split
    · rename_i hkind
      exact conducts_advance_bind (.level 0) (by rw [hkind]; rfl)
        (conducts_pure (.inr rfl) rfl (hname htoken ⟨.inl hkind, rfl⟩) rfl)
    · rename_i hkind
      exact conducts_advance_bind (.level 0) (by rw [hkind]; rfl)
        (conducts_pure (.inr rfl) rfl (hname htoken ⟨.inr ⟨by rw [hkind]; rfl, rfl⟩, rfl⟩) rfl)
    · exact conducts_fail (.inr rfl)

theorem conducts_checkUpdatable {operator : Token} (hoperator : frame.Passed operator tokens) {target : Expr} :
    Conducts frame (.level 0) 0 (fun _ => 0) (fun _ rest => rest = tokens ∧ (frame.given → target.isUpdatable = true))
      (checkUpdatable operator target)
      (checkUpdatable (operator.shift frame.shift) (reline frame.shift.line target)) tokens := by
  unfold checkUpdatable
  rw [reline_expr, Expr.isUpdatable_reline]
  split
  · exact conducts_pure (.inr rfl) rfl ⟨rfl, fun _ => ‹_›⟩ rfl
  · exact (conducts_note (.inr rfl) (by simp [lateFaults]) hoperator).imp fun _ _ hnote =>
      ⟨hnote.1, fun hgiven => absurd (frame.quiet_of_given hgiven) hnote.2⟩

/-- Behind a wildcard there is no other parameter. -/
theorem ParamsDerive.cons {source : List Token} {quiet : Prop} {p : Param Expr} {params : List (Param Expr)}
    (hp : ParamsDerive source quiet [p]) (hkind : p.kind = .standard) (hparams : ParamsDerive source quiet params) :
    ParamsDerive source quiet (p :: params) where
  named := List.forall_mem_cons.2 ⟨hp.named p List.mem_cons_self, hparams.named⟩
  default := List.forall_mem_cons.2 ⟨hp.default p List.mem_cons_self, hparams.default⟩
  standard := by
    cases params with
    | nil => simp
    | cons next others => exact List.forall_mem_cons.2 ⟨hkind, hparams.standard⟩

theorem paramsDerive_nil : ParamsDerive frame.source frame.given [] where
  named := by simp
  default := by simp
  standard := by simp

variable (h : inner.Steady frame n inner')

include h

/-- What a parser gives on tokens that its depth is enough for. -/
theorem Conducts.givenAt {ground : Standing} {takes : Expr → Nat} {p : Inner → Parser Expr}
    (hp : Conducts frame ground 0 takes (frame.At level tokens) (p inner) (p inner') tokens)
    (hlength : tokens.length ≤ n) : Conducts frame ground 0 takes
      (frame.Spelled Expr.spelling (GivenAt frame.source frame.given p level) tokens) (p inner) (p inner') tokens :=
  hp.given.imp fun _ _ he => ⟨⟨he.1.1, fun hgiven => ⟨n, inner, _, _, _, h.tied hgiven, hlength, he.2 hgiven⟩⟩, he.1.2⟩

theorem conducts_parameterTail (cast : Option Ident) (hcast : ∀ name ∈ cast, Named frame.source name)
    {front : List Token} (hfront : frame.Spells (Ident.castSpelling cast) front tokens) (hlength : tokens.length ≤ n) :
    Steady frame (frame.Spelled Expr.paramSpelling (fun p => ParamsDerive frame.source frame.given [p]) front)
      (parameterTail inner cast) (parameterTail inner' (reline frame.shift.line cast)) tokens := by
  unfold parameterTail
  apply (conducts_accept (by simp) rfl (.inr rfl)).bind
  intro star rest hrest hstar
  apply conducts_ident.bind
  rintro name rest' hrest' ⟨hname, hspelled⟩
  apply (conducts_afterToken (.level 0) (by simp) rfl fun _ hlt => h.unary (by omega)).bind
  rintro default _ _ ⟨hdefault, hwords⟩
  refine conducts_pure (.inr rfl) rfl ⟨⟨⟨?_, by simp⟩, by simpa using hdefault⟩, ?_⟩ (by omega)
  · simpa using ParamNamed.mk hname hcast
  · rw [Expr.paramSpelling, spelling?_eq_elim]
    cases star <;> exact ((hfront.mul hstar).mul hspelled).mul hwords

omit h in
/-- A parameter without a cast takes its name, whatever follows. -/
theorem rest_parameterTail_singleton {name : String} (hkind : token.kind = .identifier name)
    (stop : Eof) : (parameterTail inner none stop.1 [token]).rest = [] := by
  have hgives : Gives (parameterTail inner none) stop [token] ⟨⟨name, token.line⟩, .standard, none, none⟩ [] := by
    have hname : IsIdent token ⟨name, token.line⟩ := ⟨hkind, rfl⟩
    exact gives_accept_bind_of_ne (by simp [hkind])
      (hname.bind (Gives.bind (gives_accept_bind_of_ne (by simp) .pure) .pure))
  exact congrArg Reply.rest hgives

theorem conducts_parameter (hlength : tokens.length ≤ n) :
    Steady frame (frame.Spelled Expr.paramSpelling (fun p => ParamsDerive frame.source frame.given [p]) tokens)
      (parameter inner) (parameter inner') tokens := by
  apply conducts_peek_bind
  cases tokens with
  | nil =>
    rw [List.headD_nil, Token.kind_shift, frame.stop.2]
    exact conducts_parameterTail h none (by simp) Frame.spells_one hlength
  | cons token tail =>
    rw [List.headD_cons, Token.kind_shift]
    apply conducts_cons
    intro htoken
    split
    · rename_i name hkind
      apply conducts_checkSecond_bind
      · split
        · rename_i harrow
          refine conducts_advance_bind (.level 0) (by rw [hkind]; rfl) ?_
          cases tail with
          | nil => simp at harrow
          | cons arrow after =>
            have harrow : arrow.kind = Symbol.arrow := by simpa using harrow
            refine conducts_advance_bind (.level 0) (by rw [harrow]; rfl) ?_
            have hafter : after.length ≤ n := by
              simp only [List.length_cons] at hlength
              omega
            refine (conducts_parameterTail h (some ⟨name, token.line⟩) ?_ ?_ hafter).forget
            · simpa using ⟨token, htoken, hkind, rfl⟩
            · exact (Frame.spells_single ⟨hkind, rfl⟩).mul (Frame.spells_single harrow)
        · exact conducts_parameterTail h none (by simp) Frame.spells_one hlength
      · rintro (rfl : tail = [])
        exact rest_parameterTail_singleton hkind frame.stop
    · exact conducts_parameterTail h none (by simp) Frame.spells_one hlength

theorem conducts_parameterList {rounds rounds' : Nat} (hlength : tokens.length ≤ n) (hsome : rounds ≠ 0)
    (hrounds : Enough tokens rounds rounds') :
    Steady frame (fun params rest => frame.Params tokens params rest ∧ params ≠ []) (parameterList inner rounds)
      (parameterList inner' rounds') tokens := by
  induction rounds generalizing rounds' tokens with
  | zero => exact absurd rfl hsome
  | succ rounds ih =>
    obtain ⟨rounds', rfl⟩ := hrounds.exists_succ
    apply (conducts_parameter h hlength).bind
    rintro first rest hrest ⟨hfirst, hspelled⟩
    refine conducts_ifAccept (.level 0) (by simp) rfl (fun tail htail hcomma => ?_)
      fun _ => conducts_pure (.inr rfl) rfl ⟨⟨hfirst, by simpa [Expr.paramSpellings, sepBy] using hspelled⟩, by simp⟩ rfl
    rw [reline_param]
    split
    · exact conducts_fail (.inr rfl)
    · rename_i hkind
      apply (ih (by omega) (by omega) (by omega)).bind
      rintro others _ _ ⟨⟨hothers, hwords⟩, hne⟩
      have hstandard : first.kind = .standard := by
        cases hfirst : first.kind with
        | standard => rfl
        | wildcard => exact absurd hfirst hkind
      obtain ⟨next, others, rfl⟩ := List.exists_cons_of_ne_nil hne
      refine conducts_pure (.inr rfl) rfl ⟨⟨hfirst.cons hstandard hothers, ?_⟩, by simp⟩ rfl
      simp only [Expr.paramSpellings] at hwords ⊢
      exact (hspelled.mul hcomma).mul hwords

theorem conducts_parameters {terminator : Token.Kind} (hlength : tokens.length < n) :
    Conducts frame (.level 0) 0 (fun _ => 0) (frame.Params tokens) (parameters inner terminator)
      (parameters inner' terminator) tokens := by
  apply conducts_check_bind
  split
  · exact conducts_pure (.inr rfl) rfl ⟨paramsDerive_nil, Frame.spells_one⟩ rfl
  · have henough := h.enough hlength
    by_cases hrounds : inner.rounds = 0
    · rw [hrounds] at henough ⊢
      rw [henough.eq_nil.2]
      exact conducts_pure (.inr rfl) rfl ⟨paramsDerive_nil, Frame.spells_one⟩ rfl
    · exact (conducts_parameterList h (by omega) hrounds henough).forget.imp fun _ _ hparams => hparams.1

/-! ## Primary expressions -/

omit h in
theorem conducts_seriesRound [Lined α] {item item' : Parser α}
    (hitem : Enclosed frame (frame.Spelled words P tokens) item item' tokens) :
    Conducts frame .enclosed 0 (fun round => round.2.toNat)
      (frame.Spelled (roundWords words) (fun round => ∀ a ∈ round.1, P a) tokens) (seriesRound close item)
      (seriesRound close item') tokens := by
  apply conducts_check_bind
  apply conducts_atEnd_bind
  split
  · exact conducts_pure (.inl rfl) rfl ⟨by simp, Frame.spells_one⟩ rfl
  · apply hitem.bindEnclosed
    rintro first rest _ ⟨hfirst, hspelled⟩
    apply conducts_skipLayout_bind
    intro rest' _ hlayout
    refine conducts_ifAccept .enclosed (by simp) rfl (fun tail _ hcomma => ?_)
      fun _ => conducts_pure (.inl rfl) rfl ⟨by simpa using hfirst, hspelled.mul hlayout⟩ rfl
    apply conducts_skipLayout_bind
    intro tail' _ hlayout'
    exact conducts_pure (.inl rfl) rfl
      ⟨by simpa using hfirst, hspelled.mul ((hlayout.mul hcomma).mul hlayout')⟩ rfl

omit h in
/-- A comma that nothing follows is the trailing comma of the last element. -/
theorem conducts_series [Lined α] {item item' : Parser α} (hitem : ∀ rest, rest.length ≤ tokens.length →
      Enclosed frame (frame.Spelled words P rest) item item' rest) {rounds rounds' : Nat}
    (hrounds : Enough tokens rounds rounds') :
    Conducts frame .enclosed 0 (fun _ => 0)
      (frame.Spelled (fun items => elementWords (items.map words)) (∀ a ∈ ·, P a) tokens) (series close item rounds)
      (series close item' rounds') tokens := by
  induction rounds generalizing rounds' tokens with
  | zero =>
    obtain ⟨rfl, rfl⟩ := hrounds.eq_nil
    exact conducts_pure (.inl rfl) rfl ⟨by simp, Frame.spells_one⟩ rfl
  | succ rounds ih =>
    obtain ⟨rounds', rfl⟩ := hrounds.exists_succ
    rw [series_succ, series_succ]
    apply (conducts_seriesRound (hitem tokens (Nat.le_refl _))).bindEnclosed
    rintro round rest hrest ⟨hround, hspelled⟩
    obtain ⟨found, again⟩ := round
    cases again with
    | false =>
      refine conducts_pure (.inl rfl) rfl ⟨hround, ?_⟩ rfl
      match found with
      | [] => exact hspelled
      | [a] => exact hspelled.mono (mem_elementWords_single _)
      | _ :: _ :: _ => exact hspelled.mono fun word hword => absurd hword (Language.notMem_zero word)
    | true =>
      have hshorter : rest.length < tokens.length := hrest
      apply (ih (fun rest' hrest' => hitem rest' (by omega)) (by omega)).bindEnclosed
      rintro others _ _ ⟨hothers, hwords⟩
      refine conducts_pure (.inl rfl) List.map_append.symm ⟨List.forall_mem_append.2 ⟨hround, hothers⟩, ?_⟩ rfl
      have hboth := hspelled.mul hwords
      match found with
      | [] => simpa [roundWords] using hboth
      | [a] => exact hboth.mono (mem_elementWords_cons _ _)
      | _ :: _ :: _ =>
        refine hboth.mono fun word hword => ?_
        obtain ⟨front, hfront, -⟩ := Language.mem_mul.1 hword
        exact absurd hfront (Language.notMem_zero front)

omit h in
/-- Behind its content a bracket is closed. -/
theorem conducts_closed [Lined α] {P : α → List Token → Prop} {fault : Fault} {a b : α}
    (hb : b = reline frame.shift.line a) (ha : ∀ rest, frame.Spells (tokenOf close) tokens rest → P a rest) :
    Enclosed frame P (do expect close fault; return a) (do expect close fault; return b) tokens :=
  conducts_expect_bind .enclosed (by simp) rfl (.inl rfl) fun rest _ hclose =>
    conducts_pure (.inl rfl) hb (ha rest hclose) rfl

theorem conducts_arrayLiteral {front : List Token} (hopen : frame.Spells (tokenOf Symbol.leftBracket) front tokens)
    (hlength : tokens.length < n) :
    Enclosed frame (frame.At 17 front) (arrayLiteral inner) (arrayLiteral inner') tokens := by
  apply conducts_skipLayout_bind
  intro rest hrest hlayout
  apply (conducts_series (fun _ _ => (h.expression (by omega)).enclose) (h.enough (by omega))).bindEnclosed
  rintro elements _ _ ⟨helements, hwords⟩
  refine conducts_closed (by simp [Expr.reline]) fun _ hclose =>
    ⟨⟨Nat.le_refl _, .array fun e he => (helements e he).derives⟩, ?_⟩
  rw [Expr.spelling, Expr.spellings_eq_map]
  exact ((hopen.mul hlayout).mul hwords).mul hclose

theorem conducts_dictionaryEntry (hlength : tokens.length < n) :
    Enclosed frame (frame.Spelled Expr.entrySpelling (fun entry => Held frame.source frame.given entry.1 ∧
      Held frame.source frame.given entry.2) tokens) (dictionaryEntry inner) (dictionaryEntry inner') tokens := by
  apply (h.expression hlength).enclose.bindEnclosed
  rintro key rest hrest ⟨hkey, hspelled⟩
  refine conducts_ifAccept .enclosed (by simp) rfl (fun tail htail hcolon => ?_) fun _ => ?_
  · apply conducts_skipLayout_bind
    intro tail' htail' hlayout
    apply (h.expression (by omega)).enclose.bindEnclosed
    rintro value _ _ ⟨hvalue, hwords⟩
    refine conducts_pure (.inl rfl) rfl ⟨⟨hkey, hvalue⟩, ?_⟩ rfl
    rw [Expr.entrySpelling]
    exact (((hspelled.mul hcolon).mul hlayout).mul hwords).inl
  · cases key with
    | «variable» name =>
      refine conducts_pure (.inl rfl) rfl ⟨⟨hkey, hkey⟩, ?_⟩ rfl
      rw [Expr.spelling_variable] at hspelled
      rw [Expr.entrySpelling]
      exact Frame.Spells.inr (hspelled.mono fun _ hword => ⟨rfl, hword⟩)
    | _ => exact conducts_fail (.inl rfl)

theorem conducts_dictionaryLiteral {front : List Token} (hopen : frame.Spells (tokenOf Symbol.leftBrace) front tokens)
    (hlength : tokens.length < n) :
    Enclosed frame (frame.At 17 front) (dictionaryLiteral inner) (dictionaryLiteral inner') tokens := by
  apply conducts_skipLayout_bind
  intro rest hrest hlayout
  apply (conducts_series (fun _ _ => conducts_dictionaryEntry h (by omega)) (h.enough (by omega))).bindEnclosed
  rintro entries _ _ ⟨hentries, hwords⟩
  refine conducts_closed (by simp [Expr.reline]) fun _ hclose => ⟨⟨Nat.le_refl _, .dictionary
    (fun entry he => (hentries entry he).1.derives) fun entry he => (hentries entry he).2.derives⟩, ?_⟩
  rw [Expr.spelling, Expr.entrySpellings_eq_map]
  exact ((hopen.mul hlayout).mul hwords).mul hclose

theorem conducts_lambda {isAsync : Bool} {front : List Token}
    (hfront : frame.Spells (optional isAsync (tokenOf Keyword.kwAsync) * tokenOf Keyword.kwLambda) front tokens)
    (hlength : tokens.length < n) :
    Steady frame (frame.At 17 front) (lambda inner isAsync) (lambda inner' isAsync) tokens := by
  apply (conducts_parameters h hlength).bind
  rintro params rest hrest ⟨hparams, hspelled⟩
  refine conducts_expect_bind (.level 0) (by simp) rfl (.inr rfl) fun tail htail hcolon => ?_
  apply (h.expression (by omega)).bind
  rintro body _ _ ⟨hbody, hwords⟩
  refine conducts_pure (.inr rfl) (by simp [Expr.reline])
    ⟨⟨Nat.le_refl _, .lambda hparams.toParamsNamed ?_ ?_ hbody.derives⟩, ?_⟩ rfl
  · exact fun p hp e he => (hparams.default p hp e he).level_le
  · exact fun p hp e he => (hparams.default p hp e he).derives
  · rw [Expr.spelling]
    exact ((hfront.mul hspelled).mul hcolon).mul hwords

theorem conducts_grouping {front : List Token} (hopen : frame.Spells (tokenOf Symbol.leftParen) front tokens)
    (hlength : tokens.length < n) :
    Enclosed frame (frame.At 17 front) (grouping inner) (grouping inner') tokens := by
  apply (h.expression hlength).enclose.bindEnclosed
  rintro content rest _ ⟨hcontent, hwords⟩
  refine Conducts.forget (conducts_closed (by simp [Expr.reline]) fun _ hclose =>
    ⟨⟨Nat.le_refl _, .grouping hcontent.derives⟩, ?_⟩)
  rw [Expr.spelling]
  exact (hopen.mul hwords).mul hclose

omit h in
theorem conducts_regex {first : Token} {tail : List Token} (hfirst : first.kind = .identifier "r")
    (hregex : IsRegex "r" first token) :
    Steady frame (frame.At 17 (first :: token :: tail)) regex regex (token :: tail) := by
  have hstring : token.kind.isString = true := hregex.2.1
  apply conducts_cons
  intro htoken
  have hstep : Standing.step token.kind (.level 0) = some (.level 0) := by
    cases hkind : token.kind with
    | string value => rfl
    | _ => simp [hkind, Token.Kind.isString] at hstring
  have htext : quotedText (token.shift frame.shift) = quotedText token := rfl
  cases hsplit : Regex.split? (quotedText token) with
  | some found =>
    apply conducts_advance_bind (.level 0) hstep
    rw [htext, hsplit]
    refine conducts_pure (.inr rfl) (by simp [Expr.reline])
      ⟨⟨Nat.le_refl _, .regex htoken hstring hsplit⟩, fun _ => ⟨[first, token], [], rfl, ?_, by simp, by simp⟩⟩ rfl
    rw [Expr.spelling, Literal.spelling]
    refine ⟨first, token, rfl, hfirst, hregex, ?_⟩
    rw [String.toList_ofList, String.toList_ofList]
    exact eq_append_of_split? hsplit
  | none =>
    apply (conducts_advance_failAt .badRegex hstep (.inr rfl)).congr
    · simp [regex, Bind.bind, advance, hsplit]
    · intro more stop _ _
      simp [regex, Bind.bind, advance, htext, hsplit]

omit h in
/-- A string follows without a gap wherever the two tokens are. -/
theorem conducts_behindName {name : String} (hkind : token.kind = .identifier name)
    (hname : Named frame.source ⟨name, token.line⟩) :
    Conducts frame (.level 0) 0 (fun _ => 0) (frame.At 17 (token :: tokens))
      (do
        let next ← peek
        if name = "r" && next.kind.isString && next.start = token.stop then regex
        else return .variable ⟨name, token.line⟩)
      (do
        let next ← peek
        if name = "r" && next.kind.isString && next.start = (token.shift frame.shift).stop then regex
        else return .variable ⟨name, (token.shift frame.shift).line⟩) tokens := by
  apply conducts_peek_bind
  have hplain : token.kind.isPlain = true := by
    rw [hkind]
    rfl
  have hgap : ∀ next : Token, (next.kind.isString && (next.shift frame.shift).start = (token.shift frame.shift).stop) =
      (next.kind.isString && next.start = token.stop) := by
    intro next
    cases hkind : next.kind with
    | string value => simp [Token.start_shift_eq_stop_iff frame.shift hplain, hkind, Token.Kind.isPlain]
    | _ => rfl
  simp only [Bool.and_assoc, hgap, Token.kind_shift]
  split
  · rename_i hregex
    simp only [Bool.and_eq_true, decide_eq_true_eq] at hregex
    obtain ⟨rfl, hstring, hstart⟩ := hregex
    cases tokens with
    | nil =>
      rw [List.headD_nil, frame.stop.2] at hstring
      cases hstring
    | cons next tail => exact (conducts_regex hkind ⟨rfl, hstring, hstart⟩).forget
  · refine conducts_pure (.inr rfl) (by simp [Expr.reline, Ident.reline]) ⟨⟨Nat.le_refl _, .variable hname⟩, ?_⟩ rfl
    rw [Expr.spelling_variable]
    exact Frame.spells_single ⟨hkind, rfl⟩

omit h in
theorem step_of_literal? {value : Literal} (h : literal? kind = some value) :
    Standing.step kind (.level 0) = some (.level 0) := by
  unfold literal? at h
  split at h
  all_goals first
    | rfl
    | cases h

theorem conducts_primary (hlength : tokens.length ≤ n) :
    Steady frame (frame.At 17 tokens) (primary inner) (primary inner') tokens := by
  apply conducts_peek_bind
  cases tokens with
  | nil =>
    rw [List.headD_nil, Token.kind_shift, frame.stop.2]
    exact conducts_failAt (.inr rfl)
  | cons token tail =>
    have htail : tail.length < n := hlength
    have hfail : ∀ fault, Steady frame (frame.At 17 (token :: tail)) (failAt token fault)
        (failAt (token.shift frame.shift) fault) (token :: tail) :=
      fun _ => conducts_failAt (.inr rfl)
    rw [List.headD_cons, Token.kind_shift]
    apply conducts_cons
    intro htoken
    split
    · rename_i hvalue
      apply conducts_advance_bind (.level 0) (step_of_literal? hvalue)
      refine conducts_pure (.inr rfl) (by simp [Expr.reline]) ⟨⟨Nat.le_refl _, .literal htoken hvalue⟩, fun _ => ?_⟩ rfl
      rw [Expr.spelling]
      exact closes_literal hvalue
    · split
      · rename_i hkind
        exact conducts_advance_bind (.level 0) (by rw [hkind]; rfl)
          (conducts_behindName hkind ⟨token, htoken, hkind, rfl⟩)
      · rename_i hkind
        exact conducts_advance_bind .enclosed (by rw [hkind]; rfl)
          (conducts_grouping h (Frame.spells_single hkind) htail).forget
      · rename_i hkind
        exact conducts_advance_bind .enclosed (by rw [hkind]; rfl)
          (conducts_arrayLiteral h (Frame.spells_single hkind) htail).forget
      · rename_i hkind
        exact conducts_advance_bind .enclosed (by rw [hkind]; rfl)
          (conducts_dictionaryLiteral h (Frame.spells_single hkind) htail).forget
      · rename_i hkind
        exact conducts_advance_bind (.level 0) (by rw [hkind]; rfl)
          (conducts_lambda h (Frame.spells_one.mul (Frame.spells_single hkind)) htail).forget
      · rename_i hkind
        apply conducts_advance_bind (.level 0) (by rw [hkind]; rfl)
        exact conducts_expect_bind (.level 0) (by simp) rfl (.inr rfl) fun _ _ hlambda =>
          (conducts_lambda h (.mul (Frame.spells_single hkind) hlambda) (by omega)).forget
      · exact hfail _
      · exact hfail _
      · exact hfail _

/-! ## Calls, members and subscripts -/

theorem conducts_argument (hlength : tokens.length < n) :
    Enclosed frame (frame.Spelled (fun e => layout * e.spelling * layout) (Held frame.source frame.given) tokens)
      (argument inner) (argument inner') tokens := by
  apply conducts_skipLayout_bind
  intro rest _ hlayout
  apply (h.expression (by omega)).enclose.bindEnclosed
  rintro value _ _ ⟨hvalue, hwords⟩
  apply conducts_skipLayout_bind
  intro _ _ hlayout'
  exact conducts_pure (.inl rfl) rfl ⟨hvalue, (hlayout.mul hwords).mul hlayout'⟩ rfl

theorem conducts_argumentAfter (hlength : tokens.length < n) :
    Conducts frame .enclosed 0 perItem (fun found rest => Until (Held frame.source frame.given) (fun _ => True) found rest ∧
        frame.Spells (found.elim 1 fun e => tokenOf Symbol.comma * (layout * e.spelling * layout)) tokens rest)
      (afterToken Symbol.comma (argument inner)) (afterToken Symbol.comma (argument inner')) tokens := by
  refine conducts_accept_bind .enclosed (by simp) rfl (fun _ _ hcomma => ?_)
    fun _ => conducts_pure (.inl rfl) rfl ⟨⟨by simp, by simp⟩, Frame.spells_one⟩ rfl
  apply (conducts_argument h (by omega)).bindEnclosed
  rintro value _ _ ⟨hvalue, hwords⟩
  exact conducts_pure (.inl rfl) rfl ⟨⟨by simpa using hvalue, by simp⟩, hcomma.mul hwords⟩ rfl

theorem conducts_arguments {front : List Token} (hopen : frame.Spells (tokenOf Symbol.leftParen) front tokens)
    (hlength : tokens.length < n) :
    Enclosed frame (frame.Spelled (fun values => argumentWords (Expr.spellings values))
      (∀ e ∈ ·, Held frame.source frame.given e) front) (arguments inner) (arguments inner') tokens := by
  have hclose : ∀ (values : List Expr) (rest : List Token), (∀ e ∈ values, Held frame.source frame.given e) →
      (∀ left, frame.Spells (layout * tokenOf Symbol.rightParen) rest left →
        frame.Spells (argumentWords (Expr.spellings values)) front left) →
      Enclosed frame (frame.Spelled (fun values => argumentWords (Expr.spellings values))
        (∀ e ∈ ·, Held frame.source frame.given e) front)
        (do skipLayout; expect Symbol.rightParen (.notClosed .arguments); return values)
        (do skipLayout; expect Symbol.rightParen (.notClosed .arguments); return reline frame.shift.line values)
        rest := by
    intro values rest hvalues hwords
    apply conducts_skipLayout_bind
    intro _ _ hlayout
    exact conducts_closed rfl fun left hparen => ⟨hvalues, hwords left (hlayout.mul hparen)⟩
  apply conducts_skipLayout_bind
  intro rest _ hlayout
  have hfront := hopen.mul hlayout
  apply conducts_check_bind
  split
  · refine hclose [] rest (by simp) fun left hend => ?_
    simpa only [argumentWords, Expr.spellings, sepBy, mul_one, mul_assoc] using hfront.mul hend
  · apply (conducts_argument h (by omega)).bindEnclosed
    rintro first rest' _ ⟨hfirst, hspelled⟩
    apply (conducts_many (.inl rfl) (fun _ _ => conducts_argumentAfter h (by omega)) trivial (h.enough (by omega))).bindEnclosed
    rintro others _ _ ⟨⟨hothers, hmore⟩, _⟩
    refine (hclose (first :: others) _ (List.forall_mem_cons.2 ⟨hfirst, hothers⟩) fun left hend => ?_).forget
    rw [argumentWords_cons]
    exact (hfront.mul (hspelled.mul hmore)).mul hend

theorem conducts_bound {terminator : Symbol} (hlength : tokens.length < n) :
    Conducts frame .enclosed 0 (fun _ => 0)
      (frame.Spelled (Expr.spelling? 1) (∀ e ∈ ·, Derives frame.source frame.given e) tokens) (bound inner terminator)
      (bound inner' terminator) tokens := by
  apply conducts_check_bind
  split
  · refine conducts_pure (.inl rfl) rfl ⟨by simp, ?_⟩ rfl
    rw [Expr.spelling?]
    exact Frame.spells_one
  · apply (h.expression hlength).enclose.bindEnclosed
    rintro value _ _ ⟨hvalue, hwords⟩
    refine conducts_pure (.inl rfl) rfl ⟨by simpa using hvalue.derives, ?_⟩ rfl
    rwa [Expr.spelling?, one_mul]

/-- Where the first bound is left out, a colon follows at once. -/
theorem conducts_subscriptTail {object : Expr} (start : Option Expr) {front middle : List Token}
    (hstart : ∀ e ∈ start, Derives frame.source frame.given e)
    (hopen : frame.Spells (tokenOf Symbol.leftBracket * Expr.spelling? 1 start) middle tokens)
    (hcolon : start = none → nextKind tokens = .symbol .colon) (hlength : tokens.length < n) :
    Enclosed frame (fun e rest => frame.At 16 front object middle → frame.At 16 front e rest)
      (subscriptTail inner object start)
      (subscriptTail inner' (reline frame.shift.line object) (reline frame.shift.line start)) tokens := by
  refine conducts_accept_bind .enclosed (by simp) rfl (fun tail _ hsign => ?_) fun hnext => ?_
  · apply (conducts_bound h (by omega)).bindEnclosed
    rintro last _ _ ⟨hlast, hwords⟩
    refine Conducts.forget (conducts_closed (by simp [Expr.reline]) fun _ hclose hobject =>
      ⟨⟨Nat.le_refl _, .subscript hobject.1.level_le hobject.1.derives hstart hlast (by simp)⟩, ?_⟩)
    rw [Expr.spelling, mul_assoc object.spelling]
    exact (((hobject.2.mul hopen).mul hsign).mul hwords).mul hclose
  · have hsome : start.isSome = true := by
      cases start with
      | none => exact absurd (hcolon rfl) hnext
      | some e => rfl
    refine conducts_closed (by simp [Expr.reline]) fun _ hclose hobject => ⟨⟨Nat.le_refl _,
      .subscript hobject.1.level_le hobject.1.derives hstart (by simp) fun _ => ⟨hsome, rfl⟩⟩, ?_⟩
    simpa [Expr.spelling, Expr.spelling?, optional, mul_assoc] using (hobject.2.mul hopen).mul hclose

theorem conducts_subscript (object : Expr) (front : List Token) {middle : List Token}
    (hopen : frame.Spells (tokenOf Symbol.leftBracket) middle tokens) (hlength : tokens.length < n) :
    Enclosed frame (fun e rest => frame.At 16 front object middle → frame.At 16 front e rest) (subscript inner object)
      (subscript inner' (reline frame.shift.line object)) tokens := by
  change Conducts frame _ _ _ _ (bound inner .colon >>= subscriptTail inner object)
    (bound inner' .colon >>= subscriptTail inner' (reline frame.shift.line object)) tokens
  rw [bound, bound, bind_assoc, bind_assoc]
  apply conducts_check_bind
  split
  · rename_i hcolon
    refine conducts_subscriptTail h none (by simp) ?_ (fun _ => by simpa using hcolon) hlength
    rwa [Expr.spelling?, mul_one]
  · rw [bind_assoc, bind_assoc]
    apply (h.expression hlength).enclose.bindEnclosed
    rintro value _ _ ⟨hvalue, hwords⟩
    refine (conducts_subscriptTail h (some value) (by simpa using hvalue.derives) ?_ (by simp) (by omega)).forget
    rw [Expr.spelling?, one_mul]
    exact hopen.mul hwords

omit h in
theorem step_of_updateOp? {op : UpdateOp} (h : updateOp? kind = some op) :
    Standing.step kind (.level 0) = some (.level 0) := by
  unfold updateOp? at h
  split at h
  all_goals first
    | rfl
    | cases h

theorem conducts_suffix (object : Expr) (front : List Token) (hlength : tokens.length ≤ n) :
    Conducts frame (.level 0) 0 perItem
      (fun found rest => frame.At 16 front object tokens → frame.At 16 front (found.getD object) rest)
      (suffix inner object) (suffix inner' (reline frame.shift.line object)) tokens := by
  apply conducts_peek_bind
  cases tokens with
  | nil =>
    rw [List.headD_nil, Token.kind_shift, frame.stop.2]
    exact conducts_pure (.inr rfl) rfl id rfl
  | cons token tail =>
    have htail : tail.length < n := hlength
    rw [List.headD_cons, Token.kind_shift]
    split
    · rename_i hkind
      apply conducts_advance_bind .enclosed (by rw [hkind]; rfl)
      apply (conducts_arguments h (Frame.spells_single hkind) htail).bindEnclosed
      rintro values _ _ ⟨hvalues, hwords⟩
      refine conducts_pure (.inl rfl) (by simp [Expr.reline]) (fun ⟨hobject, hspelled⟩ =>
        ⟨⟨Nat.le_refl _, .call hobject.level_le hobject.derives fun e he => (hvalues e he).derives⟩, ?_⟩) rfl
      rw [Option.getD_some, Expr.spelling]
      exact hspelled.mul hwords
    · rename_i hkind
      apply conducts_advance_bind (.level 0) (by rw [hkind]; rfl)
      apply conducts_propertyName.bind
      rintro name _ _ ⟨hname, hwords⟩
      refine conducts_pure (.inr rfl) (by simp [Expr.reline]) (fun ⟨hobject, hspelled⟩ =>
        ⟨⟨Nat.le_refl _, .get hobject.level_le hobject.derives hname⟩, ?_⟩) rfl
      rw [Option.getD_some, Expr.spelling]
      exact (hspelled.mul (Frame.spells_single hkind)).mul hwords
    · rename_i hkind
      apply conducts_advance_bind .enclosed (by rw [hkind]; rfl)
      apply (conducts_subscript h object front (Frame.spells_single hkind) htail).bindEnclosed
      intro value _ _ hvalue
      exact conducts_pure (.inl rfl) rfl hvalue rfl
    · split
      · rename_i hop
        apply conducts_of_suffix
        intro hsource
        apply conducts_advance_bind (.level 0) (step_of_updateOp? hop)
        apply (conducts_checkUpdatable ⟨tail, hsource, Nat.le_refl _⟩).bind
        rintro _ _ _ ⟨hrest, hupdatable⟩
        subst hrest
        refine conducts_pure (.inr rfl) (by simp [Expr.reline]) (fun ⟨hobject, hspelled⟩ =>
          ⟨⟨Nat.le_refl _, .updateAfter hobject.level_le hobject.derives hupdatable⟩, ?_⟩) rfl
        rw [Option.getD_some, Expr.spelling]
        exact hspelled.mul (Frame.spells_single (token_of_updateOp? hop))
      · exact conducts_pure (.inr rfl) rfl id rfl

theorem conducts_call (hlength : tokens.length ≤ n) :
    Steady frame (frame.At 16 tokens) (call inner) (call inner') tokens := by
  apply (conducts_primary h hlength).bind
  intro object rest hrest hobject
  exact conducts_iterate (.inr rfl)
    (fun value rest' _ hvalue => (conducts_suffix h value tokens (by omega)).imp fun _ _ hfound => hfound hvalue)
    (h.enough (by omega)) object ⟨hobject.1.mono (by omega), hobject.2⟩

/-! ## Operators -/

/-- The same words are operators, and what stands behind them conducts itself. -/
theorem conducts_wordOp? (word : Keyword) : (wordOp? inner word = none ∧ wordOp? inner' word = none) ∨
    ∃ op operand operand', wordOp? inner word = some (op, operand) ∧ wordOp? inner' word = some (op, operand') ∧
      word = op.word ∧ ∀ {tokens : List Token}, tokens.length < n →
        Steady frame (frame.At op.operandLevel tokens) operand operand' tokens := by
  have hunary : ∀ {tokens : List Token}, tokens.length < n →
      Steady frame (frame.At 14 tokens) inner.unary inner'.unary tokens := fun hlength =>
    (h.unary hlength).imp fun _ _ he => ⟨he.1.toDerivesAt, he.2⟩
  unfold wordOp?
  split
  · exact .inr ⟨_, _, _, rfl, rfl, rfl, h.worded⟩
  · exact .inr ⟨_, _, _, rfl, rfl, rfl, hunary⟩
  · exact .inr ⟨_, _, _, rfl, rfl, rfl, hunary⟩
  · exact .inr ⟨_, _, _, rfl, rfl, rfl, hunary⟩
  · exact .inr ⟨_, _, _, rfl, rfl, rfl, hunary⟩
  · exact .inl ⟨rfl, rfl⟩

theorem conducts_worded (hlength : tokens.length ≤ n) :
    Steady frame (frame.At 15 tokens) (worded inner) (worded inner') tokens := by
  have hcall : Steady frame (frame.At 15 tokens) (call inner) (call inner') tokens :=
    (conducts_call h hlength).loosen (by omega)
  apply conducts_peek_bind
  cases tokens with
  | nil =>
    rw [List.headD_nil, Token.kind_shift, frame.stop.2]
    exact hcall
  | cons token tail =>
    rw [List.headD_cons, Token.kind_shift]
    split
    · rename_i word hkind
      rcases conducts_wordOp? h word with ⟨hop, hop'⟩ | ⟨op, operand, operand', hop, hop', rfl, hoperand⟩
      · rw [hop, hop']
        exact hcall
      · rw [hop, hop']
        apply conducts_advance_bind (.level 0) (by rw [hkind]; rfl)
        apply (hoperand hlength).bind
        rintro value _ _ ⟨hvalue, hwords⟩
        refine conducts_pure (.inr rfl) (by simp [Expr.reline])
          ⟨⟨Nat.le_refl _, .worded hvalue.level_le hvalue.derives⟩, ?_⟩ rfl
        rw [Expr.spelling]
        exact (Frame.spells_single hkind).mul hwords
    · exact hcall

omit h in
theorem step_of_unaryOp? {op : UnaryOp} (h : unaryOp? kind = some op) :
    Standing.step kind (.level 0) = some (.level 0) := by
  unfold unaryOp? at h
  split at h
  all_goals first
    | rfl
    | cases h

omit h in
theorem spells_unaryOp? {op : UnaryOp} {tail : List Token} (h : unaryOp? token.kind = some op) :
    frame.Spells op.spelling (token :: tail) tail := by
  unfold unaryOp? at h
  split at h <;> cases h
  · exact Frame.Spells.inl (Frame.spells_single ‹_›)
  · exact Frame.Spells.inr (Frame.spells_single ‹_›)
  · exact Frame.spells_single ‹_›
  · exact Frame.spells_single ‹_›

theorem conducts_unary (hlength : tokens.length ≤ n) :
    Steady frame (frame.At 14 tokens) (unary inner) (unary inner') tokens := by
  have hworded : Steady frame (frame.At 14 tokens) (worded inner) (worded inner') tokens :=
    (conducts_worded h hlength).loosen (by omega)
  apply conducts_peek_bind
  cases tokens with
  | nil =>
    rw [List.headD_nil, Token.kind_shift, frame.stop.2]
    exact hworded
  | cons token tail =>
    have htail : tail.length < n := hlength
    rw [List.headD_cons, Token.kind_shift]
    split
    · rename_i hop
      apply conducts_advance_bind (.level 0) (step_of_unaryOp? hop)
      apply (h.unary htail).bind
      rintro operand _ _ ⟨hoperand, hwords⟩
      refine conducts_pure (.inr rfl) (by simp [Expr.reline])
        ⟨⟨Nat.le_refl _, .unary hoperand.level_le hoperand.derives⟩, ?_⟩ rfl
      rw [Expr.spelling]
      exact (spells_unaryOp? hop).mul hwords
    · split
      · rename_i hop
        apply conducts_of_suffix
        intro hsource
        apply conducts_advance_bind (.level 0) (step_of_updateOp? hop)
        apply (h.unary htail).bind
        rintro target _ hrest ⟨htarget, hwords⟩
        apply (conducts_checkUpdatable ⟨tail, hsource, by omega⟩).bind
        rintro _ _ _ ⟨hsame, hupdatable⟩
        subst hsame
        refine conducts_pure (.inr rfl) (by simp [Expr.reline])
          ⟨⟨Nat.le_refl _, .updateBefore htarget.level_le htarget.derives hupdatable⟩, ?_⟩ rfl
        rw [Expr.spelling]
        exact Frame.Spells.mul (Frame.spells_single (token_of_updateOp? hop)) hwords
      · exact hworded

theorem conducts_exponent (hlength : tokens.length ≤ n) :
    Steady frame (frame.At 13 tokens) (exponent inner) (exponent inner') tokens := by
  apply (conducts_unary h hlength).bind
  rintro base rest hrest ⟨hbase, hspelled⟩
  refine conducts_ifAccept (.level 0) (by simp) rfl (fun tail htail hsign => ?_)
    fun _ => conducts_pure (.inr rfl) rfl ⟨hbase.mono (by omega), hspelled⟩ rfl
  apply (h.exponent (by omega)).bind
  rintro power _ _ ⟨hpower, hwords⟩
  refine conducts_pure (.inr rfl) (by simp [Expr.reline])
    ⟨⟨Nat.le_refl _, .binary hbase.level_le hbase.derives hpower.level_le hpower.derives⟩, ?_⟩ rfl
  rw [Expr.spelling]
  exact (hspelled.mul hsign).mul hwords

/-- The operators of a chain are not layout, and what they join keeps its lines and is of the level. -/
structure JoinsAt (level operand : Nat) (operator? : Token.Kind → Option (Expr → Expr → Expr)) : Prop where
  eof : operator? .eof = none
  step : ∀ kind join, operator? kind = some join → Standing.step kind (.level 0) = some (.level 0)
  lines : ∀ kind join, operator? kind = some join →
    ∀ g left right, join (reline g left) (reline g right) = reline g (join left right)
  spelling : ∀ kind join, operator? kind = some join →
    ∀ left right, (join left right).spelling = left.spelling * tokenOf kind * right.spelling
  derives : ∀ kind join, operator? kind = some join → ∀ {source quiet left right},
    DerivesAt source quiet level left → DerivesAt source quiet operand right →
      DerivesAt source quiet level (join left right)

omit h in
theorem joins_of_mem_chainLevels {first operand : Nat}
    (hmem : (level, first, operand, operator?) ∈ chainLevels) : level ≤ first ∧ JoinsAt level operand operator? := by
  simp only [chainLevels, List.mem_cons, List.not_mem_nil, Prod.mk.injEq, or_false] at hmem
  rcases hmem with ⟨rfl, rfl, rfl, rfl⟩ | ⟨rfl, rfl, rfl, rfl⟩ | ⟨rfl, rfl, rfl, rfl⟩ | ⟨rfl, rfl, rfl, rfl⟩ |
    ⟨rfl, rfl, rfl, rfl⟩ | ⟨rfl, rfl, rfl, rfl⟩ | ⟨rfl, rfl, rfl, rfl⟩ | ⟨rfl, rfl, rfl, rfl⟩ |
    ⟨rfl, rfl, rfl, rfl⟩ | ⟨rfl, rfl, rfl, rfl⟩
  all_goals
    refine ⟨by omega, rfl, ?_, ?_, ?_, ?_⟩
    all_goals
      intro kind join hjoin
      simp only [multiplicativeOp?, additiveOp?, shiftOp?, bitAndOp?, bitOrOp?, comparisonOp?, equalityOp?,
        membershipOp?, conjunctionOp?, disjunctionOp?] at hjoin
      split at hjoin
    all_goals cases hjoin
  all_goals first
    | rfl
    | exact fun g left right => by simp [Expr.reline]
    | exact fun left right => by rw [Expr.spelling]; rfl
    | exact fun hleft hright =>
      ⟨Nat.le_refl _, .binary hleft.level_le hleft.derives hright.level_le hright.derives⟩
    | exact fun hleft hright =>
      ⟨Nat.le_refl _, .logical hleft.level_le hleft.derives hright.level_le hright.derives⟩

/-- A chain of operators, told that its operands conduct themselves. -/
theorem conducts_chain {k : Nat}
    (hmem : (level, m, k, operator?) ∈ chainLevels) {first first' operand operand' : Parser Expr}
    (hlength : tokens.length ≤ n) (hfirst : Steady frame (frame.At m tokens) first first' tokens)
    (hoperand : ∀ {tokens : List Token}, tokens.length ≤ n → Steady frame (frame.At k tokens) operand operand' tokens) :
    Steady frame (frame.At level tokens) (chain inner.rounds operator? first operand)
      (chain inner'.rounds operator? first' operand') tokens := by
  obtain ⟨hle, hjoins⟩ := joins_of_mem_chainLevels hmem
  apply hfirst.bind
  intro left rest hrest hleft
  refine conducts_iterate (.inr rfl) (fun left rest' hrest' hleft => ?_) (h.enough (by omega)) left
    ⟨hleft.1.mono hle, hleft.2⟩
  apply conducts_peek_bind
  cases rest' with
  | nil =>
    rw [List.headD_nil, Token.kind_shift, frame.stop.2, hjoins.eof]
    exact conducts_pure (.inr rfl) rfl hleft rfl
  | cons token tail =>
    rw [List.headD_cons, Token.kind_shift]
    split
    · exact conducts_pure (.inr rfl) rfl hleft rfl
    · rename_i join hjoin
      apply conducts_advance_bind (.level 0) (hjoins.step _ _ hjoin)
      rw [List.length_cons] at hrest'
      apply (hoperand (by omega)).bind
      rintro right _ _ ⟨hright, hwords⟩
      refine conducts_pure (.inr rfl) (congrArg some (hjoins.lines _ _ hjoin _ left right))
        ⟨hjoins.derives _ _ hjoin hleft.1 hright, ?_⟩ rfl
      have hsign : frame.Spells (tokenOf token.kind) (token :: tail) tail := Frame.spells_single rfl
      rw [Option.getD_some, hjoins.spelling _ _ hjoin]
      exact (hleft.2.mul hsign).mul hwords

omit h in
theorem conducts_ternary (hequality : ∀ {tokens : List Token}, tokens.length ≤ n →
      Steady frame (frame.At 6 tokens) (equality inner) (equality inner') tokens)
    (hlength : tokens.length ≤ n) : Steady frame (frame.At 5 tokens) (ternary inner) (ternary inner') tokens := by
  apply (hequality hlength).bind
  rintro condition rest _ ⟨hcondition, hspelled⟩
  refine conducts_ifAccept (.level 0) (by simp) rfl (fun tail _ hthen => ?_)
    fun _ => conducts_pure (.inr rfl) rfl ⟨hcondition.mono (by omega), hspelled⟩ rfl
  apply (hequality (by omega)).bind
  rintro yes tail' _ ⟨hyes, hwords⟩
  apply (conducts_afterToken (.level 0) (by simp) rfl fun _ _ => hequality (by omega)).bind
  rintro no _ _ ⟨hno, hwords'⟩
  refine conducts_pure (.inr rfl) (by simp [Expr.reline]) ⟨⟨Nat.le_refl _, .ternary hcondition.level_le
    hcondition.derives hyes.level_le hyes.derives ?_ ?_⟩, ?_⟩ (by omega)
  · exact fun e he => (hno e he).level_le
  · exact fun e he => (hno e he).derives
  · rw [Expr.spelling, spelling?_eq_elim]
    exact ((hspelled.mul hthen).mul hwords).mul hwords'

theorem conducts_operators {p : Inner → Parser Expr} (hmem : (level, p) ∈ operatorLevels)
    (hlength : tokens.length ≤ n) : Steady frame (frame.At level tokens) (p inner) (p inner') tokens :=
  forall_operatorLevels
    (Q := fun level p => ∀ {tokens : List Token}, tokens.length ≤ n →
      Steady frame (frame.At level tokens) (p inner) (p inner') tokens)
    (conducts_exponent h) (fun hmem hfirst hoperand _ hlength => conducts_chain h hmem hlength (hfirst hlength) hoperand)
    (fun hequality _ hlength => conducts_ternary hequality hlength) hmem hlength

omit h in
theorem assignment?_reline (g : Nat → Nat) (target value : Expr) :
    assignment? (reline g target) (reline g value) = reline g (assignment? target value) := by
  cases target <;> simp [Expr.reline, assignment?]

omit h in
theorem Derives.assignment {source : List Token} {quiet : Prop} {target value result : Expr}
    (htarget : Derives source quiet target) (hvalue : Derives source quiet value)
    (hresult : assignment? target value = some result) : Derives source quiet result := by
  unfold assignment? at hresult
  split at hresult <;> cases hresult
  · cases htarget with
    | «variable» hname => exact .assign hname hvalue
  · cases htarget with
    | get hlevel hobject hname => exact .set hlevel hobject hname hvalue
  · cases htarget with
    | subscript hlevel hobject hstart hstop hcolon =>
      exact .assignSubscript hlevel hobject hstart hstop hcolon hvalue

theorem conducts_expression (hlength : tokens.length ≤ n) :
    Steady frame (frame.Expression tokens) (expression inner) (expression inner') tokens := by
  apply (conducts_operators h disjunction_mem hlength).bind
  rintro target rest _ ⟨htarget, hspelled⟩
  apply conducts_peek_bind
  cases rest with
  | nil =>
    exact conducts_ifAccept (.level 0) (by simp) rfl (by simp) fun _ =>
      conducts_pure (.inr rfl) rfl ⟨htarget.derives, hspelled⟩ rfl
  | cons sign tail =>
    apply conducts_of_suffix
    intro hsource
    refine conducts_ifAccept (.level 0) (by simp) rfl (fun rest hrest hsign => ?_)
      fun _ => conducts_pure (.inr rfl) rfl ⟨htarget.derives, hspelled⟩ rfl
    apply (h.expression (by omega)).bind
    rintro value _ hafter ⟨hvalue, hwords⟩
    rw [assignment?_reline]
    cases hresult : assignment? target value with
    | some result =>
      refine conducts_pure (.inr rfl) rfl ⟨htarget.derives.assignment hvalue.derives hresult, ?_⟩ rfl
      rw [assignment?_spelling hresult]
      exact (hspelled.mul hsign).mul hwords
    | none =>
      rw [List.length_cons] at hrest
      apply (conducts_note (.inr rfl) (by simp [lateFaults]) ⟨tail, hsource, by omega⟩).bind
      intro _ _ _ hnote
      exact conducts_pure (.inr rfl) rfl ⟨htarget.derives, fun hquiet => absurd hquiet hnote.2⟩ rfl

theorem conducts_value (hlength : tokens.length ≤ n) :
    Steady frame (frame.Value tokens) (expression inner) (expression inner') tokens :=
  ((conducts_expression h hlength).imp fun _ _ he => ⟨⟨Nat.zero_le _, he.1⟩, he.2⟩).givenAt h hlength

end

end Offside.Grammar
