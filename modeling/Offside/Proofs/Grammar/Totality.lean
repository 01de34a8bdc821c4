import Mathlib.Data.List.TakeWhile
import Offside.Proofs.Grammar.StatementConduct

/-!
# Parsing ends

The parsers of the grammar are tied together as deep as there are tokens, and each repetition has as many rounds.  The
main result says that neither bound is ever felt: whatever stands below the last tie, and however many more rounds there
are, the parse is the same.  It also says where a run stands on its way: every parser leaves an end of the tokens it was
given, and every round of a repetition that goes round again has taken a token.
-/

namespace Offside.Grammar

open Offside.Grammar.Parser

variable {α : Type}

/-! ## The parsers of the grammar -/

/-- The parsers that a run can stand in, told the parsers for what stands inside. -/
inductive Routine : {α : Type} → (Inner → Parser α) → Prop
  | propertyName : Routine fun _ => propertyName
  | parameter : Routine parameter
  | parameterList : Routine fun inner => parameterList inner inner.rounds
  | parameters (terminator : Token.Kind) : Routine (parameters · terminator)
  | elements : Routine fun inner => series .rightBracket inner.expression inner.rounds
  | arrayLiteral : Routine arrayLiteral
  | dictionaryEntry : Routine dictionaryEntry
  | entries : Routine fun inner => series .rightBrace (dictionaryEntry inner) inner.rounds
  | dictionaryLiteral : Routine dictionaryLiteral
  | lambda (isAsync : Bool) : Routine (lambda · isAsync)
  | regex : Routine fun _ => regex
  | variableOrRegex (name : String) : Routine fun _ => variableOrRegex name
  | grouping : Routine grouping
  | primary : Routine primary
  | argument : Routine argument
  | arguments : Routine arguments
  | bound (terminator : Symbol) : Routine (bound · terminator)
  | subscript (object : Expr) : Routine (subscript · object)
  | suffix (object : Expr) : Routine (suffix · object)
  | call : Routine call
  | worded : Routine worded
  | unary : Routine unary
  | exponent : Routine exponent
  | multiplicative : Routine multiplicative
  | additive : Routine additive
  | shift : Routine shift
  | bitAnd : Routine bitAnd
  | bitOr : Routine bitOr
  | comparison : Routine comparison
  | equality : Routine equality
  | ternary : Routine ternary
  | membership : Routine membership
  | conjunction : Routine conjunction
  | disjunction : Routine disjunction
  | expression : Routine expression
  | block : Routine block
  | body (heading : Heading) : Routine (body · heading)
  | variableDeclaration (binding : Binding) : Routine (variableDeclaration · binding)
  | parameterClause : Routine parameterClause
  | functionDeclaration (isAsync : Bool) : Routine (functionDeclaration · isAsync)
  | method : Routine method
  | methods : Routine fun inner => blockOf (method inner) inner.rounds
  | superclass : Routine superclass
  | classDeclaration : Routine classDeclaration
  | clause (heading : Heading) : Routine (clause · heading)
  | branch : Routine branch
  | forLoop : Routine forLoop
  | whileLoop : Routine whileLoop
  | doLoop : Routine doLoop
  | cases (seenDefault : Bool) : Routine fun inner =>
    casesOf (clause inner .caseValue) (body inner .defaultWord) inner.rounds seenDefault
  | switch : Routine switch
  | handler : Routine handler
  | tryBlock : Routine tryBlock
  | raw : Routine fun _ => raw
  | optionalValue (ending : Ending) : Routine (optionalValue · ending)
  | expressionStatement : Routine expressionStatement
  | declaration : Routine declaration

theorem rest_regex (stop : Token) (tokens : List Token) : (regex stop tokens).rest = tokens.tail := by
  simp only [regex, Bind.bind, advance]
  cases Regex.split? (quotedText (tokens.headD stop)) <;> rfl

theorem rest_variableOrRegex (name : String) (stop : Token) (tokens : List Token) :
    (variableOrRegex name stop tokens).rest <:+ tokens := by
  simp only [variableOrRegex, Bind.bind, advance, peek]
  split
  · rw [rest_regex]
    exact (List.tail_suffix _).trans (List.tail_suffix tokens)
  · exact List.tail_suffix tokens

/-- No parser goes back, and none depends on its bounds on less than `n` tokens. -/
theorem Routine.forward {p : Inner → Parser α} (hp : Routine p) {n : Nat} {inner inner' : Inner} (h : inner.Tied n)
    (h' : inner'.Tied n) (stop : Eof) {tokens : List Token} (hlength : tokens.length < n) :
    (p inner stop.1 tokens).rest <:+ tokens ∧ p inner' stop.1 tokens = p inner stop.1 tokens := by
  have horder := h.orderly_alone h' stop tokens
  have hsteady := horder.toSteady
  have hle : tokens.length ≤ n := Nat.le_of_lt hlength
  have hrounds := hsteady.enough hlength
  have hnoisy : ∀ words, (Frame.alone stop tokens).Spells words tokens tokens := fun _ => False.elim
  have hgoes : ∀ {β : Type} [Lined β] {q q' : Parser β} {ground : Standing} {gain : Nat} {takes : β → Nat}
      {P : β → List Token → Prop}, Conducts (.alone stop tokens) ground gain takes P q q' tokens →
        (q stop.1 tokens).rest <:+ tokens ∧ q' stop.1 tokens = q stop.1 tokens :=
    fun hq => ⟨hq.suffix, hq.same⟩
  have hobject : ∀ e : Expr, reline (Frame.alone stop tokens).shift.line e = e := Lined.reline_id
  have hoperators : ∀ {q : Inner → Parser Expr}, q ∈ operatorLevels.map Prod.snd →
      (q inner stop.1 tokens).rest <:+ tokens ∧ q inner' stop.1 tokens = q inner stop.1 tokens := by
    intro q hq
    obtain ⟨level, hmem, rfl⟩ := List.mem_map.1 hq
    exact hgoes (conducts_operators hsteady hmem hle)
  cases hp with
  | propertyName => exact hgoes conducts_propertyName
  | parameter => exact hgoes (conducts_parameter hsteady hle)
  | parameterList => exact hgoes (conducts_parameterList hsteady hle (Nat.ne_zero_of_lt (Nat.lt_of_lt_of_le hlength h.le_rounds)) hrounds)
  | parameters => exact hgoes (conducts_parameters hsteady hlength)
  | elements => exact hgoes (conducts_series (fun _ _ => (hsteady.expression (by omega)).enclose) hrounds)
  | arrayLiteral => exact hgoes (conducts_arrayLiteral hsteady (hnoisy _) hlength)
  | dictionaryEntry => exact hgoes (conducts_dictionaryEntry hsteady hlength)
  | entries => exact hgoes (conducts_series (fun _ _ => conducts_dictionaryEntry hsteady (by omega)) hrounds)
  | dictionaryLiteral => exact hgoes (conducts_dictionaryLiteral hsteady (hnoisy _) hlength)
  | lambda => exact hgoes (conducts_lambda hsteady (hnoisy _) hlength)
  | regex => exact ⟨by rw [rest_regex]; exact List.tail_suffix tokens, rfl⟩
  | variableOrRegex name => exact ⟨rest_variableOrRegex name stop.1 tokens, rfl⟩
  | grouping => exact hgoes (conducts_grouping hsteady (hnoisy _) hlength)
  | primary => exact hgoes (conducts_primary hsteady hle)
  | argument => exact hgoes (conducts_argument hsteady hlength)
  | arguments => exact hgoes (conducts_arguments hsteady (hnoisy _) hlength)
  | bound => exact hgoes (conducts_bound hsteady hlength)
  | subscript object =>
    have hsubscript := conducts_subscript hsteady object tokens (hnoisy _) hlength
    rw [hobject object] at hsubscript
    exact hgoes hsubscript
  | suffix object =>
    have hsuffix := conducts_suffix hsteady object tokens hle
    rw [hobject object] at hsuffix
    exact hgoes hsuffix
  | call => exact hgoes (conducts_call hsteady hle)
  | worded => exact hgoes (conducts_worded hsteady hle)
  | unary => exact hgoes (conducts_unary hsteady hle)
  | exponent | multiplicative | additive | shift | bitAnd | bitOr | comparison | equality | ternary | membership
  | conjunction | disjunction => exact hoperators (by simp [operatorLevels])
  | expression => exact hgoes (conducts_expression hsteady hle)
  | block => exact hgoes (conducts_block horder hlength)
  | body => exact hgoes (conducts_body horder hle)
  | variableDeclaration => exact hgoes (conducts_variableDeclaration horder (hnoisy _) hle)
  | parameterClause => exact hgoes (conducts_parameterClause horder hle)
  | functionDeclaration => exact hgoes (conducts_functionDeclaration horder (hnoisy _) hle)
  | method => exact hgoes (conducts_method horder hle)
  | methods => exact hgoes (conducts_blockOf (fun _ _ => conducts_method horder (by omega)) hrounds)
  | superclass => exact hgoes (conducts_superclass horder hle)
  | classDeclaration => exact hgoes (conducts_classDeclaration horder (hnoisy _) hle)
  | clause => exact hgoes (conducts_clause horder hle)
  | branch => exact hgoes (conducts_branch horder (hnoisy _) hle)
  | forLoop => exact hgoes (conducts_forLoop horder (hnoisy _) hle)
  | whileLoop => exact hgoes (conducts_whileLoop horder (hnoisy _) hle)
  | doLoop => exact hgoes (conducts_doLoop horder (hnoisy _) hle)
  | cases seenDefault => exact hgoes (conducts_cases horder hlength seenDefault)
  | switch => exact hgoes (conducts_switch horder (hnoisy _) hle False.elim)
  | handler => exact hgoes (conducts_handler horder hle)
  | tryBlock => exact hgoes (conducts_tryBlock horder (hnoisy _) hle)
  | raw => exact hgoes (conducts_raw (hnoisy _))
  | optionalValue => exact hgoes (conducts_optionalValue horder hle)
  | expressionStatement => exact hgoes (conducts_expressionStatement horder hle)
  | declaration => exact hgoes (conducts_declaration horder hle)

/-- One round of each repetition of items, and whether its value makes the repetition go round again. -/
inductive Round : {α : Type} → (Inner → Parser α) → (α → Bool) → Prop
  | statements : Round (fun inner => topItem inner.declaration) Option.isSome
  | block : Round (fun inner => blockItem inner.declaration) Option.isSome
  | methods : Round (fun inner => blockItem (method inner)) Option.isSome
  | cases (seenDefault : Bool) :
      Round (fun inner => casesRound (clause inner .caseValue) (body inner .defaultWord) seenDefault) Option.isSome
  | arguments : Round (fun inner => afterToken Symbol.comma (argument inner)) Option.isSome
  | elements : Round (fun inner => seriesRound .rightBracket inner.expression) Prod.snd
  | entries : Round (fun inner => seriesRound .rightBrace (dictionaryEntry inner)) Prod.snd

theorem Round.length_lt {p : Inner → Parser α} {again : α → Bool} (hp : Round p again) {n : Nat} {inner : Inner}
    (h : inner.Tied n) {stop : Eof} {tokens : List Token} (hlength : tokens.length < n) {a : α}
    (ha : (p inner stop.1 tokens).outcome = .ok a) (hagain : again a = true) :
    (p inner stop.1 tokens).rest.length < tokens.length := by
  have horder := h.orderly_alone h stop tokens
  have hsteady := horder.toSteady
  -- Each round that gives a value takes a token for it.
  have hitem : ∀ {β : Type} [Lined β] {q q' : Parser (Option β)} {found : Option β} {ground : Standing} {gain : Nat}
      {P : Option β → List Token → Prop}, Conducts (.alone stop tokens) ground gain perItem P q q' tokens →
        (q stop.1 tokens).outcome = .ok found → found.isSome = true →
          (q stop.1 tokens).rest.length < tokens.length := by
    intro β _ q q' found ground gain P hq hfound hsome
    have htaken := hq.length_add_le hfound
    cases found with
    | none => cases hsome
    | some b => exact htaken
  have hseries : ∀ {β : Type} [Lined β] {q q' : Parser (List β × Bool)} {round : List β × Bool} {ground : Standing}
      {gain : Nat} {P : List β × Bool → List Token → Prop},
      Conducts (.alone stop tokens) ground gain (fun round => round.2.toNat) P q q' tokens →
        (q stop.1 tokens).outcome = .ok round → round.2 = true → (q stop.1 tokens).rest.length < tokens.length := by
    intro β _ q q' round ground gain P hq hround htrue
    have htaken := hq.length_add_le hround
    rw [htrue] at htaken
    exact htaken
  cases hp with
  | statements => exact hitem (conducts_topItem (horder.declaration hlength).enclose) ha hagain
  | block => exact hitem (conducts_blockItem (horder.declaration hlength) (.inr rfl)) ha hagain
  | methods => exact hitem (conducts_blockItem (conducts_method horder (Nat.le_of_lt hlength)) (.inr rfl)) ha hagain
  | cases seenDefault =>
    exact hitem (conducts_casesRound (fun _ _ => conducts_clause horder (by omega))
      (fun _ _ => conducts_body horder (by omega)) seenDefault) ha hagain
  | arguments => exact hitem (conducts_argumentAfter hsteady hlength) ha hagain
  | elements => exact hseries (conducts_seriesRound (hsteady.expression hlength).enclose) ha hagain
  | entries => exact hseries (conducts_seriesRound (conducts_dictionaryEntry hsteady hlength)) ha hagain

namespace Parse

/-! ## Runs -/

/-- The tokens as a parser goes through them, with an `eof` at the end. -/
def vector (tokens : List Token) : List Token :=
  if tokens.getLast?.any (·.kind = .eof) then tokens else tokens ++ [missingEof tokens]

/-- A parse with the given parsers, in the given number of rounds. -/
def within (inner : Inner) (rounds : Nat) (stop : Token) (tokens : List Token) : Parse :=
  let reply := many (topItem inner.declaration) rounds stop tokens
  match reply.outcome with
  | .ok statements => ⟨statements.filterMap id, reply.notes⟩
  | .error diagnostic => ⟨[], reply.notes ++ [diagnostic]⟩

theorem within_eq_ofBody {inner : Inner} {rounds : Nat} {stop : Eof} {tokens : List Token}
    (h : inner.Tied (tokens.length + 1)) (hrounds : tokens.length < rounds) :
    within inner rounds stop.1 tokens = ofBody stop.1 tokens := by
  have hinner := h.orderly_alone (Inner.tied_ofDepth (tokens.length + 1)) stop tokens
  have hsame := (conducts_many (.inl rfl) (fun _ hrest => conducts_topItem
    (hinner.declaration (Nat.lt_succ_of_le hrest)).enclose) rfl (.inl ⟨hrounds, Nat.lt_succ_self tokens.length⟩)).same
  rw [within, ← hsame]
  rfl

/-- What holds where a run stands in front of `rest`, of the tokens `before` the first `eof`. -/
structure ForwardAt (vector before : List Token) (stop : Eof) (inner : Inner) (rest : List Token) : Prop where
  /-- The next token is read from the place that the run stands at. -/
  read : vector[before.length - rest.length]? = some (rest.headD stop.1)
  /-- The second token is read from the place behind it. -/
  readSecond : rest ≠ [] → vector[before.length - rest.length + 1]? = some (rest.tail.headD stop.1)
  /-- No parser goes back or passes the first `eof`, and none depends on a bound. -/
  routine : ∀ {α : Type} {p : Inner → Parser α}, Routine p → (p inner stop.1 rest).rest <:+ rest ∧
    p inner stop.1 rest = p (Inner.ofDepth (before.length + 1)) stop.1 rest
  /-- A repetition that goes round again has taken a token. -/
  round : ∀ {α : Type} {p : Inner → Parser α} {again : α → Bool}, Round p again →
    ∀ a, (p inner stop.1 rest).outcome = .ok a → again a = true → (p inner stop.1 rest).rest.length < rest.length
  /-- A token is taken with every statement, whether it fails or not. -/
  recovering : rest ≠ [] → (recovering inner.declaration stop.1 rest).rest.length < rest.length

theorem forwardAt {vector before after rest : List Token} {stop : Eof} {inner : Inner}
    (hvector : vector = before ++ stop.1 :: after) (h : inner.Tied (before.length + 1)) (hrest : rest <:+ before) :
    ForwardAt vector before stop inner rest := by
  obtain ⟨gone, rfl⟩ := hrest
  have hlength : rest.length < (gone ++ rest).length + 1 := by
    rw [List.length_append]
    omega
  have hplace : (gone ++ rest).length - rest.length = gone.length := by
    rw [List.length_append]
    omega
  refine ⟨?_, fun hne => ?_, fun hp => ?_, fun hp a => hp.length_lt h hlength, fun hne => ?_⟩
  · rw [hplace, hvector, List.append_assoc, List.getElem?_append_right (Nat.le_refl _), Nat.sub_self]
    cases rest <;> rfl
  · rw [hplace, hvector, List.append_assoc, List.getElem?_append_right (Nat.le_succ _), Nat.succ_sub (Nat.le_refl _),
      Nat.sub_self]
    cases rest with
    | nil => exact absurd rfl hne
    | cons token rest => cases rest <;> rfl
  · obtain ⟨hsuffix, hsame⟩ := hp.forward h (Inner.tied_ofDepth _) stop hlength
    exact ⟨hsuffix, hsame.symm⟩
  · obtain ⟨found, hfound⟩ := exists_outcome_recovering inner.declaration stop.1 rest
    have hdecl := (h.orderly_alone h stop rest).declaration hlength
    exact (conducts_recovering hdecl.enclose hne (.inl rfl)).length_add_le hfound

theorem exists_vector_eq (tokens : List Token) :
    ∃ after, vector tokens = tokens.takeWhile (fun token => token.kind ≠ .eof) ++ (firstEof tokens).1 :: after := by
  have hsplit : tokens.takeWhile (fun token => token.kind ≠ .eof) ++ tokens.dropWhile (fun token => token.kind ≠ .eof) =
      tokens := List.takeWhile_append_dropWhile
  cases hdrop : tokens.dropWhile fun token => decide (token.kind ≠ .eof) with
  | nil =>
    have hstop : (firstEof tokens).1 = missingEof tokens := by
      simp only [firstEof, hdrop, List.headD_nil]
    have hlast : ¬ tokens.getLast?.any (·.kind = .eof) = true := by
      intro hany
      obtain ⟨last, hsome, hkind⟩ := (Option.any_eq_true _ _).1 hany
      have hbody := List.dropWhile_eq_nil_iff.1 hdrop last (List.mem_of_getLast? hsome)
      simp_all
    rw [hdrop, List.append_nil] at hsplit
    rw [hstop, vector, if_neg hlast, hsplit]
    exact ⟨[], rfl⟩
  | cons stop after =>
    have hstop : (firstEof tokens).1 = stop := by
      simp only [firstEof, hdrop, List.headD_cons]
    rw [hdrop] at hsplit
    rw [hstop, vector]
    split
    · exact ⟨after, hsplit.symm⟩
    · exact ⟨after ++ [missingEof tokens], by rw [← List.cons_append, ← List.append_assoc, hsplit]⟩

/-- Behind the first `eof` nothing is looked at. -/
theorem ofTokens_append {before : List Token} (hbefore : ∀ token ∈ before, token.kind ≠ .eof) (stop : Eof)
    (later : List Token) : ofTokens (before ++ stop.1 :: later) = ofBody stop.1 before := by
  have hkind : decide (stop.1.kind ≠ .eof) = false := by simp [stop.2]
  have hall : ∀ token ∈ before, decide (token.kind ≠ .eof) = true := by simpa using hbefore
  rw [ofTokens]
  simp only [List.takeWhile_append_of_pos hall, List.dropWhile_append_of_pos hall, List.takeWhile_cons,
    List.dropWhile_cons, hkind]
  simp

end Parse

end Offside.Grammar
