import Offside.Proofs.Grammar.ExpressionConduct
import Offside.Token.Layout

/-!
# How the parsers of statements go

A statement takes the `dedent` of every `indent` that it takes, and after a failure inside of a block parsing goes on in
that block.  There is one exception: a `switch` that fails behind its `indent` leaves its block open.  Whatever is
skipped on the way, the statements that parsers give are those of the grammar.
-/

namespace Offside.Grammar

open Offside.Grammar.Parser

variable {α β : Type} {P : α → Prop} {words : α → Language Token} {words' : β → Language Token} {default' : Parser β}
  {heading : Heading} {n : Nat} {inner inner' : Inner}

/-- The statements of the grammar that the source of a frame has, spelled from some tokens on. -/
abbrev Frame.Statement (frame : Frame) : List Token → Stmt → List Token → Prop :=
  frame.Spelled Stmt.spelling (StmtDerives frame.source frame.given)

/-- The statements of a body. -/
abbrev Frame.Content (frame : Frame) (content : List Stmt) : Prop :=
  ∀ s ∈ content, StmtDerives frame.source frame.given s

abbrev Frame.Body (frame : Frame) : List Token → List Stmt → List Token → Prop :=
  frame.Spelled (fun content => bodyWords (Stmt.spellings content)) frame.Content

abbrev Frame.Function (frame : Frame) : List Token → Function Stmt → List Token → Prop :=
  frame.Spelled Stmt.functionSpelling fun decl => HeadDerives frame.source frame.given decl ∧ frame.Content decl.body

/-- An expression and a body. -/
abbrev Frame.Clause (frame : Frame) (found : Expr × List Stmt) : Prop :=
  Held frame.source frame.given found.1 ∧ frame.Content found.2

/-- The words of a clause behind its word. -/
def clauseWords (found : Expr × List Stmt) : Language Token := found.1.spelling * bodyWords (Stmt.spellings found.2)

/-- If the parser fails, it took no `indent`. -/
def FailsOutside (p : Parser α) (stop : Eof) (tokens : List Token) : Prop :=
  ∀ d, (p stop.1 tokens).outcome = .error d → ∀ taken, tokens = taken ++ (p stop.1 tokens).rest →
    ∀ token ∈ taken, token.kind ≠ .indent

/-- What goes on with an `if` behind its body. -/
def branchEnd (inner : Inner) : Parser (List (Expr × List Stmt) × Option (List Stmt)) := do
  let elifs ← many (afterToken Keyword.kwElif (clause inner .elifCondition)) inner.rounds
  let otherwise ← afterToken Keyword.kwElse (body inner .elseWord)
  return (elifs, otherwise)

/-- The parsers for what stands inside conduct themselves on less than `n` tokens, where no `switch` fails inside of its
block if blocks are not to be left. -/
structure Inner.Orderly (frame : Frame) (n : Nat) (inner inner' : Inner) : Prop extends inner.Steady frame n inner' where
  declaration : ∀ {tokens : List Token}, tokens.length < n →
    Grammar.Steady frame (frame.Statement tokens) inner.declaration inner'.declaration tokens
  switches : frame.sealed → ∀ {word tail}, word :: tail <:+ frame.source → word.kind = .keyword .kwSwitch →
    tail.length < n → FailsOutside (switch inner) frame.stop tail

/-- One round of the cases of a `switch`: a case, a default, or nothing at the end of the block. -/
def casesRound (case : Parser α) (default : Parser β) (seenDefault : Bool) : Parser (Option (α ⊕ β)) := do
  if ← atBlockEnd then return none
  else if ← accept Keyword.kwCase then return some (.inl (← case))
  else
    let word ← peek
    if ← accept Keyword.kwDefault then
      let content ← default
      if seenDefault then note word .secondDefault
      return some (.inr content)
    else fail .noCase

theorem casesOf_succ (case : Parser α) (default : Parser β) (rounds : Nat) (seenDefault : Bool) :
    casesOf case default (rounds + 1) seenDefault = do
      match ← casesRound case default seenDefault with
      | none => return ([], none)
      | some (.inl first) =>
        let others ← casesOf case default rounds seenDefault
        return (first :: others.1, others.2)
      | some (.inr content) =>
        let others ← casesOf case default rounds true
        return (others.1, some (others.2.getD content)) := by
  rw [casesOf, casesRound]
  simp only [bind_assoc]
  congr 1
  funext ended
  split
  · rfl
  · simp only [bind_assoc]
    congr 1
    funext accepted
    split
    · simp only [bind_assoc]
      rfl
    · simp only [bind_assoc]
      congr 1
      funext word
      congr 1
      funext accepted
      split
      · simp only [bind_assoc]
        congr 1
        funext content
        split
        · simp only [bind_assoc]
          rfl
        · rfl
      · rfl

section
variable {frame : Frame} {n : Nat} {inner inner' : Inner} {tokens : List Token}

/-! ## Cases -/

/-- The words of a case or of the default with the word in front. -/
def roundSpelling (caseWords : α → Language Token) (defaultWords : β → Language Token) : α ⊕ β → Language Token :=
  Sum.elim (tokenOf Keyword.kwCase * caseWords ·) (tokenOf Keyword.kwDefault * defaultWords ·)

/-- A second default is a fault. -/
theorem conducts_casesRound [Lined α] [Lined β] {Q : β → Prop} {case case' : Parser α} {default : Parser β}
    (hcase : ∀ rest, rest.length < tokens.length → Steady frame (frame.Spelled words P rest) case case' rest)
    (hdefault : ∀ rest, rest.length < tokens.length → Steady frame (frame.Spelled words' Q rest) default default' rest)
    (seenDefault : Bool) : Conducts frame (.level 0) 0 perItem
      (fun found rest => Until (Sum.elim P Q) BlockEnd found rest ∧
        frame.Spells (found.elim 1 (roundSpelling words words')) tokens rest ∧
          (frame.quiet → seenDefault = true → ∀ b, found ≠ some (.inr b)))
      (casesRound case default seenDefault) (casesRound case' default' seenDefault) tokens := by
  apply conducts_atBlockEnd_bind
  split
  · rename_i hend
    exact conducts_pure (.inr rfl) rfl
      ⟨⟨by simp, fun _ => by simpa [BlockEnd] using hend⟩, Frame.spells_one, by simp⟩ rfl
  · refine conducts_ifAccept (.level 0) (by simp) rfl (fun rest hrest hword => ?_) fun _ => ?_
    · apply (hcase rest hrest).bind
      rintro first _ _ ⟨hfirst, hwords⟩
      exact conducts_pure (.inr rfl) rfl ⟨⟨by simpa using hfirst, by simp⟩, hword.mul hwords, by simp⟩ rfl
    · apply conducts_peek_bind
      cases tokens with
      | nil => exact conducts_ifAccept (.level 0) (by simp) rfl (by simp) fun _ => conducts_fail (.inr rfl)
      | cons word tail =>
        apply conducts_of_suffix
        intro hsource
        refine conducts_ifAccept (.level 0) (by simp) rfl (fun rest hrest hword => ?_)
          fun _ => conducts_fail (.inr rfl)
        apply (hdefault rest hrest).bind
        rintro content _ hafter ⟨hcontent, hwords⟩
        rw [List.length_cons] at hrest
        split
        · apply (conducts_note (.inr rfl) (by simp [lateFaults]) ⟨tail, hsource, by omega⟩).bind
          rintro _ _ _ ⟨hsame, hnoisy⟩
          subst hsame
          exact conducts_pure (.inr rfl) rfl
            ⟨⟨by simpa using hcontent, by simp⟩, hword.mul hwords, fun hquiet => absurd hquiet hnoisy⟩ rfl
        · rename_i hseen
          exact conducts_pure (.inr rfl) rfl
            ⟨⟨by simpa using hcontent, by simp⟩, hword.mul hwords, fun _ hseen' => absurd hseen' hseen⟩ rfl

/-- What the cases of a `switch` come to: no default behind another one, and the words of the cases. -/
def Frame.Cases (frame : Frame) (words : α → Language Token) (words' : β → Language Token) (P : α → Prop)
    (Q : β → Prop) (seenDefault : Bool) (tokens : List Token) (found : List α × Option β) (rest : List Token) : Prop :=
  ((∀ a ∈ found.1, P a) ∧ ∀ b ∈ found.2, Q b) ∧ (frame.quiet → seenDefault = true → found.2 = none) ∧
    frame.Spells (caseWords (found.1.map (tokenOf Keyword.kwCase * words ·))
      (found.2.map (tokenOf Keyword.kwDefault * words' ·))) tokens rest

/-- Cases end with their block. -/
theorem conducts_casesOf [Lined α] [Lined β] {Q : β → Prop} {case case' : Parser α} {default : Parser β}
    (hcase : ∀ rest, rest.length < tokens.length → Steady frame (frame.Spelled words P rest) case case' rest)
    (hdefault : ∀ rest, rest.length < tokens.length → Steady frame (frame.Spelled words' Q rest) default default' rest)
    {rounds rounds' : Nat} (hrounds : Enough tokens rounds rounds') (seenDefault : Bool) :
    Conducts frame (.level 0) 0 (fun _ => 0)
      (fun found rest => frame.Cases words words' P Q seenDefault tokens found rest ∧ BlockEnd rest)
      (casesOf case default rounds seenDefault) (casesOf case' default' rounds' seenDefault) tokens := by
  induction rounds generalizing rounds' tokens seenDefault with
  | zero =>
    obtain ⟨rfl, rfl⟩ := hrounds.eq_nil
    exact conducts_pure (.inr rfl) rfl ⟨⟨by simp, by simp, Frame.spells_one⟩, .inr rfl⟩ rfl
  | succ rounds ih =>
    obtain ⟨rounds', rfl⟩ := hrounds.exists_succ
    rw [casesOf_succ, casesOf_succ]
    apply (conducts_casesRound hcase hdefault seenDefault).bind
    rintro round rest hrest ⟨hround, hspelled, hsecond⟩
    cases round with
    | none => exact conducts_pure (.inr rfl) rfl ⟨⟨by simp, by simp, hspelled⟩, hround.2 rfl⟩ rfl
    | some found =>
      have hshorter : rest.length < tokens.length := hrest
      have hothers := fun seen => ih (fun rest' hrest' => hcase rest' (by omega))
        (fun rest' hrest' => hdefault rest' (by omega)) (show Enough rest rounds rounds' by omega) seen
      have hfound : Sum.elim P Q found := hround.1 found rfl
      cases found with
      | inl first =>
        apply (hothers seenDefault).bind
        rintro others _ _ ⟨⟨hothers, hnone, hwords⟩, hend⟩
        exact conducts_pure (.inr rfl) rfl ⟨⟨⟨List.forall_mem_cons.2 ⟨hfound, hothers.1⟩, hothers.2⟩, hnone,
          (hspelled.mul hwords).mono (mem_caseWords_of_mul _ _ _)⟩, hend⟩ rfl
      | inr content =>
        apply (hothers true).bind
        rintro others _ _ ⟨⟨hothers, hnone, hwords⟩, hend⟩
        refine conducts_pure (.inr rfl) (by simp [reline_getD]) ⟨⟨⟨hothers.1, ?_⟩, ?_, fun hquiet => ?_⟩, hend⟩ rfl
        · -- A later default takes the place of this one.
          cases hlater : others.2 with
          | none => simpa using hfound
          | some later => simpa using hothers.2 later hlater
        · exact fun hquiet hseen => absurd rfl (hsecond hquiet hseen content)
        · have hlast := (hspelled.mul hwords) hquiet
          rw [hnone hquiet rfl] at hlast ⊢
          exact hlast.mono (mem_caseWords_of_default _ _)

/-! ## Bodies -/

theorem conducts_endedBy [Lined α] {P : α → List Token → Prop} {ending : Ending} {a b : α}
    (hb : b = reline frame.shift.line a) (ha : ∀ rest, frame.Spells (tokenOf Symbol.semicolon) tokens rest → P a rest) :
    Steady frame P (do expect Symbol.semicolon (.noSemicolon ending); return a)
      (do expect Symbol.semicolon (.noSemicolon ending); return b) tokens :=
  conducts_expect_bind (.level 0) (by simp) rfl (.inr rfl) fun rest _ hend =>
    conducts_pure (.inr rfl) hb (ha rest hend) rfl

theorem conducts_raw {front : List Token} (hfront : frame.Spells (tokenOf Keyword.kwRaw) front tokens) :
    Steady frame (frame.Statement front) raw raw tokens := by
  apply conducts_peek_bind
  rw [Token.kind_shift]
  split
  · rename_i hstring
    cases tokens with
    | nil =>
      rw [List.headD_nil, frame.stop.2] at hstring
      cases hstring
    | cons token tail =>
      have hstep : Standing.step token.kind (.level 0) = some (.level 0) := by
        cases hkind : token.kind with
        | string value => rfl
        | _ => simp [hkind, Token.Kind.isString] at hstring
      apply conducts_cons
      intro htoken
      apply conducts_advance_bind (.level 0) hstep
      refine (conducts_endedBy (by simp [Stmt.reline, quotedText]) fun _ hend => ⟨.raw htoken hstring, ?_⟩).forget
      rw [Stmt.spelling]
      exact (hfront.mul (Frame.spells_single ⟨hstring, String.toList_ofList.symm⟩)).mul hend
  · exact conducts_fail (.inr rfl)

variable (h : inner.Orderly frame n inner')

include h

theorem conducts_block (hlength : tokens.length < n) :
    Conducts frame (.level 1) 0 (fun _ => 0)
      (frame.Spelled (fun content => (Stmt.spellings content).prod * tokenOf .dedent) frame.Content tokens) (block inner)
      (block inner') tokens := by
  simp only [Stmt.spellings_eq_map]
  exact conducts_blockOf (fun rest hrest => h.declaration (by omega)) (h.enough hlength)

theorem conducts_body (hlength : tokens.length ≤ n) :
    Steady frame (frame.Body tokens) (body inner heading) (body inner' heading) tokens := by
  refine conducts_expect_bind (.level 0) (by simp) rfl (.inr rfl) fun rest hrest hcolon => ?_
  refine conducts_ifAccept (.level 1) (by simp) rfl (fun tail htail hindent => ?_) fun _ => ?_
  · refine (conducts_block h (by omega)).imp fun content _ hcontent => ⟨hcontent.1, hcolon.mul (.inl ?_)⟩
    rw [blockWords, mul_assoc]
    exact hindent.mul hcontent.2
  · apply (h.declaration (by omega)).bind
    rintro first tail htail ⟨hfirst, hspelled⟩
    apply (conducts_afterToken (.level 1) (by simp) rfl fun _ _ => conducts_block h (by omega)).bind
    rintro others _ _ ⟨hothers, hwords⟩
    refine conducts_pure (.inr rfl) (by cases others <;> simp) ⟨List.forall_mem_cons.2 ⟨hfirst, fun s hs => ?_⟩,
      hcolon.mul (.inr (hspelled.mul ?_))⟩ (by omega)
    · obtain ⟨content, hcontent, hs⟩ := mem_getD_nil.1 hs
      exact hothers content hcontent s hs
    · cases others with
      | none => exact .inr hwords
      | some others =>
        refine .inl ?_
        rw [blockWords, mul_assoc]
        exact hwords

/-- A body behind a word that may be left out. -/
theorem conducts_bodyAfter {word : Keyword} (hlength : tokens.length ≤ n) :
    Conducts frame (.level 0) 0 perItem
      (frame.Spelled (Stmt.bodySpelling? word) (fun found => ∀ content ∈ found, frame.Content content) tokens)
      (afterToken word (body inner heading)) (afterToken word (body inner' heading)) tokens := by
  refine (conducts_afterToken (.level 0) (by simp) rfl fun _ _ => conducts_body h (by omega)).imp fun found _ hfound =>
    ⟨hfound.1, ?_⟩
  cases found <;> rw [Stmt.bodySpelling?] <;> exact hfound.2

/-! ## Declarations -/

theorem conducts_parent (hlength : tokens.length ≤ n) :
    Steady frame (frame.Spelled Expr.spelling (GivenAt frame.source frame.given call 16) tokens) (call inner)
      (call inner') tokens :=
  (conducts_call h.toSteady hlength).givenAt h.toSteady hlength

theorem conducts_variableDeclaration {binding : Binding} {front : List Token}
    (hfront : frame.Spells (tokenOf binding.word) front tokens) (hlength : tokens.length ≤ n) :
    Steady frame (frame.Statement front) (variableDeclaration inner binding) (variableDeclaration inner' binding) tokens := by
  apply conducts_ident.bind
  rintro name rest _ ⟨hname, hspelled⟩
  apply (conducts_afterToken (.level 0) (by simp) rfl fun _ _ => conducts_value h.toSteady (by omega)).bind
  rintro init _ _ ⟨hinit, hwords⟩
  have hnone : (reline frame.shift.line init).isNone = init.isNone := by cases init <;> rfl
  rw [hnone]
  split
  · exact conducts_fail (.inr rfl)
  · rename_i hneeded
    have hsome : binding = .constant → init.isSome = true := by
      intro hconstant
      cases init with
      | none => simp [hconstant] at hneeded
      | some value => rfl
    refine (conducts_endedBy (by simp [Stmt.reline]) fun _ hend => ⟨.declare hname hinit hsome, ?_⟩).mono
      fun _ => by omega
    rw [Stmt.spelling, spelling?_eq_elim]
    exact ((hfront.mul hspelled).mul hwords).mul hend

theorem conducts_parameterClause (hlength : tokens.length ≤ n) :
    Conducts frame (.level 0) 0 (fun _ => 0)
      (frame.Spelled (fun params => parameterWords (Expr.paramSpellings params)) (ParamsDerive frame.source frame.given)
        tokens) (parameterClause inner) (parameterClause inner') tokens := by
  refine conducts_ifAccept .enclosed (by simp) rfl (fun rest _ hopen => ?_)
    fun _ => conducts_pure (.inr rfl) rfl ⟨paramsDerive_nil, Frame.Spells.inr Frame.spells_one⟩ rfl
  apply (conducts_parameters h.toSteady (by omega)).enclose.bindEnclosed
  rintro params _ _ ⟨hparams, hwords⟩
  exact (conducts_closed rfl fun _ hclose => ⟨hparams, .inl ((hopen.mul hwords).mul hclose)⟩).forget

theorem conducts_functionDeclaration {isAsync : Bool} {front : List Token}
    (hfront : frame.Spells (optional isAsync (tokenOf Keyword.kwAsync) * tokenOf Keyword.kwFunction) front tokens)
    (hlength : tokens.length ≤ n) : Steady frame (frame.Function front) (functionDeclaration inner isAsync)
      (functionDeclaration inner' isAsync) tokens := by
  apply (conducts_accept (by simp) rfl (.inr rfl)).bind
  intro isGenerator rest hrest hstar
  apply conducts_ident.bind
  rintro name rest' hrest' ⟨hname, hspelled⟩
  apply (conducts_parameterClause h (by omega)).bind
  rintro params rest'' hrest'' ⟨hparams, hwords⟩
  apply (conducts_body h (by omega)).bind
  rintro content _ _ ⟨hcontent, hbody⟩
  refine conducts_pure (.inr rfl) (by simp) ⟨⟨⟨hname, hparams⟩, hcontent⟩, ?_⟩ (by omega)
  rw [Stmt.functionSpelling]
  exact (((hfront.mul hstar).mul hspelled).mul hwords).mul hbody

theorem conducts_method (hlength : tokens.length ≤ n) :
    Steady frame (frame.Function tokens) (method inner) (method inner') tokens := by
  apply (conducts_accept (by simp) rfl (.inr rfl)).bind
  intro isAsync rest hrest hasync
  refine conducts_expect_bind (.level 0) (by simp) rfl (.inr rfl) fun rest' hrest' hfunction => ?_
  exact (conducts_functionDeclaration h (hasync.mul hfunction) (by omega)).mono fun _ => by omega

theorem conducts_superclass (hlength : tokens.length ≤ n) :
    Conducts frame (.level 0) 0 (fun _ => 0)
      (frame.Spelled Expr.superclassSpelling (∀ e ∈ ·, GivenAt frame.source frame.given call 16 e) tokens)
      (superclass inner) (superclass inner') tokens := by
  refine conducts_ifAccept .enclosed (by simp) rfl (fun rest _ hopen => ?_) fun _ => ?_
  · apply (conducts_parent h (by omega)).enclose.bindEnclosed
    rintro parent _ _ ⟨hparent, hwords⟩
    exact (conducts_closed rfl fun _ hclose => ⟨by simpa using hparent, .inl ((hopen.mul hwords).mul hclose)⟩).forget
  · refine (conducts_afterToken (.level 0) (by simp) rfl fun _ _ => conducts_parent h (by omega)).forget.imp
      fun found _ hfound => ⟨hfound.1, ?_⟩
    cases found with
    | none => exact hfound.2
    | some parent => exact .inr hfound.2

theorem conducts_classDeclaration {front : List Token} (hfront : frame.Spells (tokenOf Keyword.kwClass) front tokens)
    (hlength : tokens.length ≤ n) :
    Steady frame (frame.Statement front) (classDeclaration inner) (classDeclaration inner') tokens := by
  apply conducts_ident.bind
  rintro name rest hrest ⟨hname, hspelled⟩
  apply (conducts_superclass h (by omega)).bind
  rintro parent rest' hrest' ⟨hparent, hwords⟩
  refine conducts_expect_bind (.level 0) (by simp) rfl (.inr rfl) fun rest'' hrest'' hcolon => ?_
  apply (conducts_afterToken (.level 1) (by simp) rfl fun tail htail =>
    conducts_blockOf (fun item hitem => conducts_method h (by omega)) (h.enough (by omega))).bind
  rintro methods _ _ ⟨hfound, hblock⟩
  have hmethod : ∀ decl ∈ methods.getD [], HeadDerives frame.source frame.given decl ∧ frame.Content decl.body := by
    intro decl hdecl
    obtain ⟨content, hcontent, hdecl⟩ := mem_getD_nil.1 hdecl
    exact hfound content hcontent decl hdecl
  refine conducts_pure (.inr rfl) (by cases methods <;> simp [Stmt.reline]) ⟨.classDecl hname hparent
    (fun decl hdecl => (hmethod decl hdecl).1) fun decl hdecl => (hmethod decl hdecl).2, ?_⟩ (by omega)
  rw [Stmt.spelling, Stmt.functionSpellings_eq_map]
  refine (((hfront.mul hspelled).mul hwords).mul hcolon).mul ?_
  cases methods with
  | none => exact .inr hblock
  | some methods =>
    refine .inl ?_
    rw [blockWords, mul_assoc]
    exact hblock

/-! ## Statements -/

theorem conducts_clause (hlength : tokens.length ≤ n) :
    Steady frame (frame.Spelled clauseWords frame.Clause tokens) (clause inner heading) (clause inner' heading)
      tokens := by
  apply (conducts_value h.toSteady hlength).bind
  rintro condition rest hrest ⟨hcondition, hspelled⟩
  apply (conducts_body h (by omega)).bind
  rintro content _ _ ⟨hcontent, hwords⟩
  exact conducts_pure (.inr rfl) rfl ⟨⟨hcondition, hcontent⟩, hspelled.mul hwords⟩ rfl

omit h in
theorem clauseSpellings_eq_map (word : Keyword) (clauses : List (Expr × List Stmt)) :
    Stmt.clauseSpellings word clauses = clauses.map (tokenOf word * clauseWords ·) := by
  induction clauses with
  | nil => rw [Stmt.clauseSpellings, List.map_nil]
  | cons clause clauses ih => rw [Stmt.clauseSpellings, Stmt.clauseSpelling, ih, List.map_cons, clauseWords, mul_assoc]

omit h in
/-- An `if` is its condition, its body and what goes on with it. -/
theorem branch_eq (inner : Inner) : branch inner = do
    let condition ← expression inner let content ← body inner .ifCondition let found ← branchEnd inner
    return .branch condition content found.1 found.2 := by
  simp only [branch, branchEnd, bind_assoc, pure_bind]

theorem conducts_branchEnd (hlength : tokens.length < n) : Conducts frame (.level 0) 0 (fun _ => 0)
      (frame.Spelled
        (fun found => (Stmt.clauseSpellings .kwElif found.1).prod * Stmt.bodySpelling? .kwElse found.2)
        (fun found => (∀ clause ∈ found.1, frame.Clause clause) ∧ ∀ content ∈ found.2, frame.Content content) tokens)
      (branchEnd inner) (branchEnd inner') tokens := by
  have helif : ∀ rest, rest.length ≤ tokens.length → Conducts frame (.level 0) 0 perItem
        (fun found left => Until frame.Clause (fun _ => True) found left ∧
          frame.Spells (found.elim 1 (tokenOf Keyword.kwElif * clauseWords ·)) rest left)
        (afterToken Keyword.kwElif (clause inner .elifCondition))
        (afterToken Keyword.kwElif (clause inner' .elifCondition)) rest := fun rest hrest =>
    (conducts_afterToken (.level 0) (by simp) rfl fun _ _ => conducts_clause h (by omega)).imp
      fun _ _ hfound => ⟨⟨hfound.1, fun _ => trivial⟩, hfound.2⟩
  apply (conducts_many (.inr rfl) helif trivial (h.enough (by omega))).bind
  rintro elifs rest hrest ⟨⟨helifs, hspelled⟩, _⟩
  apply (conducts_bodyAfter h (by omega)).bind
  rintro otherwise _ _ ⟨hotherwise, hwords⟩
  refine conducts_pure (.inr rfl) rfl ⟨⟨helifs, hotherwise⟩, ?_⟩ (by omega)
  simp only [clauseSpellings_eq_map]
  exact hspelled.mul hwords

theorem conducts_branch {front : List Token} (hfront : frame.Spells (tokenOf Keyword.kwIf) front tokens)
    (hlength : tokens.length ≤ n) : Steady frame (frame.Statement front) (branch inner) (branch inner') tokens := by
  rw [branch_eq, branch_eq]
  apply (conducts_value h.toSteady hlength).bind
  rintro condition rest hrest ⟨hcondition, hspelled⟩
  apply (conducts_body h (by omega)).bind
  rintro content rest' hrest' ⟨hcontent, hbody⟩
  apply (conducts_branchEnd h (by omega)).bind
  rintro found _ _ ⟨hfound, hwords⟩
  refine conducts_pure (.inr rfl) (by simp [Stmt.reline]) ⟨?_, ?_⟩ rfl
  · exact .branch hcondition hcontent (fun clause hclause => (hfound.1 clause hclause).1)
      (fun clause hclause => (hfound.1 clause hclause).2) hfound.2
  · rw [Stmt.spelling, mul_assoc _ (List.prod _)]
    exact ((hfront.mul hspelled).mul hbody).mul hwords

theorem conducts_forLoop {front : List Token} (hfront : frame.Spells (tokenOf Keyword.kwFor) front tokens)
    (hlength : tokens.length ≤ n) : Steady frame (frame.Statement front) (forLoop inner) (forLoop inner') tokens := by
  apply conducts_ident.bind
  rintro name rest hrest ⟨hname, hspelled⟩
  refine conducts_expect_bind (.level 0) (by simp) rfl (.inr rfl) fun rest' hrest' hin => ?_
  apply (conducts_value h.toSteady (by omega)).bind
  rintro iterable rest'' hrest'' ⟨hiterable, hwords⟩
  apply (conducts_body h (by omega)).bind
  rintro content _ _ ⟨hcontent, hbody⟩
  refine conducts_pure (.inr rfl) (by simp [Stmt.reline]) ⟨.forLoop hname hiterable hcontent, ?_⟩ rfl
  rw [Stmt.spelling]
  exact (((hfront.mul hspelled).mul hin).mul hwords).mul hbody

theorem conducts_whileLoop {front : List Token} (hfront : frame.Spells (tokenOf Keyword.kwWhile) front tokens)
    (hlength : tokens.length ≤ n) :
    Steady frame (frame.Statement front) (whileLoop inner) (whileLoop inner') tokens := by
  apply (conducts_value h.toSteady hlength).bind
  rintro condition rest hrest ⟨hcondition, hwords⟩
  apply (conducts_body h (by omega)).bind
  rintro content _ _ ⟨hcontent, hbody⟩
  refine conducts_pure (.inr rfl) (by simp [Stmt.reline]) ⟨.whileLoop hcondition hcontent, ?_⟩ rfl
  rw [Stmt.spelling]
  exact (hfront.mul hwords).mul hbody

theorem conducts_doLoop {front : List Token} (hfront : frame.Spells (tokenOf Keyword.kwDo) front tokens)
    (hlength : tokens.length ≤ n) : Steady frame (frame.Statement front) (doLoop inner) (doLoop inner') tokens := by
  apply (conducts_body h hlength).bind
  rintro content rest hrest ⟨hcontent, hbody⟩
  refine conducts_expect_bind (.level 0) (by simp) rfl (.inr rfl) fun rest' _ hwhile => ?_
  apply (conducts_value h.toSteady (by omega)).bind
  rintro condition _ _ ⟨hcondition, hwords⟩
  refine (conducts_endedBy (by simp [Stmt.reline]) fun _ hend => ⟨.doLoop hcontent hcondition, ?_⟩).forget
  rw [Stmt.spelling]
  exact (((hfront.mul hbody).mul hwhile).mul hwords).mul hend

omit h in
theorem takes_of_expect {kind : Token.Kind} (hkind : kind ≠ .eof) {fault : Fault} {stop : Eof} {rest : List Token}
    {notes : List Diagnostic} (hrun : expect kind fault stop.1 tokens = ⟨.ok (), rest, notes⟩) :
    Takes kind tokens rest := by
  by_cases hnext : nextKind tokens = kind
  · obtain ⟨tail, htakes⟩ := exists_takes_of_nextKind hnext hkind
    have hgives : expect kind fault stop.1 tokens = ⟨.ok (), tail, []⟩ := (gives_expect hkind).2 htakes
    rw [hrun] at hgives
    cases hgives
    exact htakes
  · have haccept : accept kind stop.1 tokens = ⟨.ok false, tokens, []⟩ := gives_accept_false.2 ⟨hnext, rfl⟩
    rw [expect, bind_apply_ok haccept] at hrun
    cases hrun

/-- The cases of a `switch` end with its block. -/
theorem conducts_cases (hlength : tokens.length < n) (seenDefault : Bool) : Conducts frame (.level 0) 0 (fun _ => 0)
      (fun found rest => frame.Cases clauseWords (fun content => bodyWords (Stmt.spellings content)) frame.Clause
        frame.Content seenDefault tokens found rest ∧ BlockEnd rest)
      (casesOf (clause inner .caseValue) (body inner .defaultWord) inner.rounds seenDefault)
      (casesOf (clause inner' .caseValue) (body inner' .defaultWord) inner'.rounds seenDefault) tokens := by
  exact conducts_casesOf (fun _ _ => conducts_clause h (by omega)) (fun _ _ => conducts_body h (by omega))
    (h.enough (by omega)) seenDefault

omit h in
theorem defaultSpelling_eq_map (default : Option (List Stmt)) : Stmt.defaultSpelling default =
    default.map fun content => tokenOf Keyword.kwDefault * bodyWords (Stmt.spellings content) := by
  cases default <;> rw [Stmt.defaultSpelling] <;> rfl

/-- A `switch` that does not fail in its block comes to the end of it. -/
theorem conducts_switch {front : List Token} (hfront : frame.Spells (tokenOf Keyword.kwSwitch) front tokens)
    (hlength : tokens.length ≤ n) (houtside : frame.sealed → FailsOutside (switch inner) frame.stop tokens) :
    Steady frame (frame.Statement front) (switch inner) (switch inner') tokens := by
  refine (conducts_value h.toSteady hlength).bindOn _ (.inr rfl)
    fun value rest _ hvalue hrest hle ⟨hderives, hspelled⟩ => ?_
  refine (conducts_expect 0 (by simp) rfl).bindOn _ (.inr rfl) fun _ rest' _ hcolon hrest' hle' hsign => ?_
  refine (conducts_expect 1 (by simp) rfl).bindOn _ (.inr rfl) fun _ inside _ hindent hinside hle'' hopen => ?_
  refine ((conducts_cases h (by omega) false).deepen fun hs hleft => ?_).bind
    fun found left _ ⟨⟨hfound, _, hwords⟩, hend⟩ => ?_
  · cases hreply : casesOf (clause inner .caseValue) (body inner .defaultWord) inner.rounds false frame.stop.1 inside with
    | mk outcome left notes =>
      cases outcome with
      | ok found => exact ⟨found, rfl⟩
      | error d =>
        -- The `switch` would fail with what is left behind its `indent`.
        rw [hreply] at hleft
        obtain ⟨others, rfl⟩ := hleft
        obtain ⟨indent, rfl, hkind⟩ := takes_of_expect (by simp) hindent
        obtain ⟨gone, rfl⟩ := hrest'.trans hrest
        have hswitch := houtside hs
        rw [FailsOutside, switch, bind_apply_ok hvalue, bind_apply_ok hcolon, bind_apply_ok hindent,
          bind_apply_error hreply] at hswitch
        exact absurd hkind (hswitch d rfl (gone ++ indent :: others) (by simp) indent (by simp))
  · refine conducts_blockEnd hend (by simp [Stmt.reline]) fun _ hdedent => ⟨?_, ?_⟩
    · exact .switch hderives (fun clause hclause => (hfound.1 clause hclause).1)
        (fun clause hclause => (hfound.1 clause hclause).2) hfound.2
    · rw [Stmt.spelling, clauseSpellings_eq_map, defaultSpelling_eq_map]
      exact ((((hfront.mul hspelled).mul hsign).mul hopen).mul hwords).mul hdedent

theorem conducts_handler (hlength : tokens.length ≤ n) :
    Steady frame (frame.Spelled
      (fun caught => Ident.spelling? caught.param * bodyWords (Stmt.spellings caught.body))
      (fun caught => (∀ name ∈ caught.param, Named frame.source name) ∧ frame.Content caught.body) tokens)
      (handler inner) (handler inner') tokens := by
  have hbody : ∀ (param : Option Ident) (rest : List Token), rest.length ≤ n →
      (∀ name ∈ param, Named frame.source name) → frame.Spells (Ident.spelling? param) tokens rest →
      Steady frame (frame.Spelled
        (fun caught => Ident.spelling? caught.param * bodyWords (Stmt.spellings caught.body))
        (fun caught => (∀ name ∈ caught.param, Named frame.source name) ∧ frame.Content caught.body) tokens)
      (do return ⟨param, ← body inner .catchClause⟩ : Parser (Handler Stmt))
      (do return ⟨reline frame.shift.line param, ← body inner' .catchClause⟩) rest := by
    intro param rest hrest hparam hspelled
    apply (conducts_body h hrest).bind
    rintro content _ _ ⟨hcontent, hwords⟩
    exact conducts_pure (.inr rfl) rfl ⟨⟨hparam, hcontent⟩, hspelled.mul hwords⟩ rfl
  apply conducts_peek_bind
  cases tokens with
  | nil =>
    rw [List.headD_nil, Token.kind_shift, frame.stop.2]
    exact hbody none [] hlength (by simp) Frame.spells_one
  | cons token tail =>
    rw [List.headD_cons, Token.kind_shift]
    apply conducts_cons
    intro htoken
    split
    · rename_i name hkind
      apply conducts_advance_bind (.level 0) (by rw [hkind]; rfl)
      exact (hbody (some ⟨name, token.line⟩) tail (Nat.le_of_lt hlength)
        (by simpa using ⟨token, htoken, hkind, rfl⟩) (Frame.spells_single ⟨hkind, rfl⟩)).forget
    · exact hbody none (token :: tail) hlength (by simp) Frame.spells_one

theorem conducts_tryBlock {front : List Token} (hfront : frame.Spells (tokenOf Keyword.kwTry) front tokens)
    (hlength : tokens.length ≤ n) :
    Steady frame (frame.Statement front) (tryBlock inner) (tryBlock inner') tokens := by
  apply (conducts_body h hlength).bind
  rintro content rest hrest ⟨hcontent, hbody⟩
  apply (conducts_afterToken (.level 0) (by simp) rfl fun _ _ => conducts_handler h (by omega)).bind
  rintro caught rest' hrest' ⟨hcaught, hwords⟩
  apply (conducts_bodyAfter h (by omega)).bind
  rintro otherwise rest'' hrest'' ⟨hotherwise, hwords'⟩
  apply (conducts_bodyAfter h (by omega)).bind
  rintro finalizer _ _ ⟨hfinalizer, hwords''⟩
  refine conducts_pure (.inr rfl) (by simp [Stmt.reline]) ⟨?_, ?_⟩ (by omega)
  · exact .tryBlock hcontent (fun handler hhandler => (hcaught handler hhandler).1)
      (fun handler hhandler => (hcaught handler hhandler).2) hotherwise hfinalizer
  · rw [Stmt.spelling]
    refine (((hfront.mul hbody).mul ?_).mul hwords').mul hwords''
    cases caught with
    | none =>
      rw [Stmt.handlerSpelling]
      exact hwords
    | some caught =>
      rw [Stmt.handlerSpelling, mul_assoc]
      exact hwords

theorem conducts_optionalValue {ending : Ending} (hlength : tokens.length ≤ n) :
    Steady frame (frame.Spelled (fun value => Expr.spelling? 1 value * tokenOf Symbol.semicolon)
      (∀ e ∈ ·, Held frame.source frame.given e) tokens) (optionalValue inner ending) (optionalValue inner' ending)
      tokens := by
  apply conducts_check_bind
  split
  · refine conducts_endedBy rfl fun _ hend => ⟨by simp, ?_⟩
    simp only [Expr.spelling?]
    exact Frame.spells_one.mul hend
  · have hvalue : Steady frame (frame.Spelled (Expr.spelling? 1) (∀ e ∈ ·, Held frame.source frame.given e) tokens)
        (some <$> expression inner) (some <$> expression inner') tokens :=
      (conducts_value h.toSteady hlength).map (fun _ => Nat.le_refl _) (fun _ => rfl) fun e _ he =>
        ⟨by simpa using he.1, by rw [Expr.spelling?, one_mul]; exact he.2⟩
    apply hvalue.bind
    rintro value _ _ ⟨hvalue, hwords⟩
    exact (conducts_endedBy rfl fun _ hend => ⟨hvalue, hwords.mul hend⟩).forget

theorem conducts_expressionStatement (hlength : tokens.length ≤ n) :
    Steady frame (frame.Statement tokens) (expressionStatement inner) (expressionStatement inner') tokens := by
  apply (conducts_value h.toSteady hlength).bind
  rintro value _ _ ⟨hvalue, hwords⟩
  refine (conducts_endedBy (by simp [Stmt.reline]) fun _ hend => ⟨.expression hvalue, ?_⟩).forget
  rw [Stmt.spelling]
  exact hwords.mul hend

/-- The same words start statements, and what stands behind them conducts itself. -/
theorem conducts_worded? (word : Keyword) : (worded? inner word = none ∧ worded? inner' word = none) ∨
    ∃ p q, worded? inner word = some p ∧ worded? inner' word = some q ∧ ∀ {front tokens : List Token},
      frame.Spells (tokenOf word) front tokens → tokens.length ≤ n →
        (word = .kwSwitch → frame.sealed → FailsOutside (switch inner) frame.stop tokens) →
          Steady frame (frame.Statement front) p q tokens := by
  unfold worded?
  split
  · exact .inr ⟨_, _, rfl, rfl, fun hfront hlength _ => conducts_branch h hfront hlength⟩
  · exact .inr ⟨_, _, rfl, rfl, fun hfront hlength _ => conducts_forLoop h hfront hlength⟩
  · exact .inr ⟨_, _, rfl, rfl, fun hfront hlength _ => conducts_whileLoop h hfront hlength⟩
  · exact .inr ⟨_, _, rfl, rfl, fun hfront hlength _ => conducts_doLoop h hfront hlength⟩
  · exact .inr ⟨_, _, rfl, rfl, fun hfront hlength houtside => conducts_switch h hfront hlength (houtside rfl)⟩
  · exact .inr ⟨_, _, rfl, rfl, fun hfront hlength _ => conducts_tryBlock h hfront hlength⟩
  · refine .inr ⟨_, _, rfl, rfl, fun hfront hlength _ => (conducts_optionalValue h hlength).map (fun _ => Nat.le_refl _)
      (fun value => by simp [Stmt.reline]) fun _ _ hvalue => ⟨.ret hvalue.1, ?_⟩⟩
    rw [Stmt.spelling, mul_assoc]
    exact hfront.mul hvalue.2
  · refine .inr ⟨_, _, rfl, rfl, fun hfront hlength _ => (conducts_optionalValue h hlength).map (fun _ => Nat.le_refl _)
      (fun value => by simp [Stmt.reline]) fun _ _ hvalue => ⟨.yield hvalue.1, ?_⟩⟩
    rw [Stmt.spelling, mul_assoc]
    exact hfront.mul hvalue.2
  · refine .inr ⟨_, _, rfl, rfl, fun hfront hlength _ => ?_⟩
    apply (conducts_value h.toSteady hlength).bind
    rintro value _ _ ⟨hvalue, hwords⟩
    refine (conducts_endedBy (by simp [Stmt.reline]) fun _ hend => ⟨.throw hvalue, ?_⟩).forget
    rw [Stmt.spelling]
    exact (hfront.mul hwords).mul hend
  · refine .inr ⟨_, _, rfl, rfl, fun hfront _ _ => conducts_endedBy (by simp [Stmt.reline]) fun _ hend =>
      ⟨.breakLoop, ?_⟩⟩
    rw [Stmt.spelling]
    exact hfront.mul hend
  · refine .inr ⟨_, _, rfl, rfl, fun hfront _ _ => conducts_endedBy (by simp [Stmt.reline]) fun _ hend =>
      ⟨.continueLoop, ?_⟩⟩
    rw [Stmt.spelling]
    exact hfront.mul hend
  · exact .inr ⟨_, _, rfl, rfl, fun hfront _ _ => conducts_raw hfront⟩
  · exact .inr ⟨_, _, rfl, rfl, fun hfront hlength _ => conducts_classDeclaration h hfront hlength⟩
  · refine .inr ⟨_, _, rfl, rfl, fun hfront hlength _ => ?_⟩
    have hword : frame.Spells (optional false (tokenOf Keyword.kwAsync) * tokenOf Keyword.kwFunction) _ _ :=
      Frame.spells_one.mul hfront
    refine (conducts_functionDeclaration h hword hlength).map (fun _ => Nat.le_refl _)
      (fun decl => by simp [Stmt.reline]) fun _ _ hdecl => ⟨.function hdecl.1.1 hdecl.1.2, ?_⟩
    rw [Stmt.spelling]
    exact hdecl.2
  · exact .inr ⟨_, _, rfl, rfl, fun hfront hlength _ => conducts_variableDeclaration h hfront hlength⟩
  · exact .inr ⟨_, _, rfl, rfl, fun hfront hlength _ => conducts_variableDeclaration h hfront hlength⟩
  · exact .inr ⟨_, _, rfl, rfl, fun hfront hlength _ => conducts_variableDeclaration h hfront hlength⟩
  · exact .inl ⟨rfl, rfl⟩

omit h in
theorem chain_apply_error {operator? : Token.Kind → Option (Expr → Expr → Expr)} {first operand : Parser Expr}
    {rounds : Nat} {stop : Token} {reply : Diagnostic × List Token}
    (hfirst : first stop tokens = ⟨.error reply.1, reply.2, []⟩) :
    chain rounds operator? first operand stop tokens = ⟨.error reply.1, reply.2, []⟩ := bind_apply_error hfirst

omit h in
/-- Behind a single `async` an expression fails at the end. -/
theorem rest_expressionStatement_async {token : Token} (hkind : token.kind = .keyword .kwAsync) (stop : Eof) :
    (expressionStatement inner stop.1 [token]).rest = [] := by
  -- The failure of the primary expression is that of all levels above.
  obtain ⟨reply, hreply⟩ : ∃ reply : Diagnostic × List Token, reply = (diagnosticAt stop.1 .noLambda, []) := ⟨_, rfl⟩
  have hexpect : expect Keyword.kwLambda .noLambda stop.1 [] = ⟨.error reply.1, reply.2, []⟩ := by
    have haccept : accept Keyword.kwLambda stop.1 [] = ⟨.ok false, [], []⟩ := gives_accept_false.2 ⟨by simp, rfl⟩
    rw [hreply, expect, bind_apply_ok haccept]
    rfl
  have hprimary : primary inner stop.1 [token] = ⟨.error reply.1, reply.2, []⟩ := by
    simp [primary, Bind.bind, peek, advance, hkind, literal?, hexpect]
  have hcall : call inner stop.1 [token] = ⟨.error reply.1, reply.2, []⟩ := bind_apply_error hprimary
  have hunary : unary inner stop.1 [token] = ⟨.error reply.1, reply.2, []⟩ := by
    simp [unary, worded, Bind.bind, peek, hkind, unaryOp?, updateOp?, wordOp?, hcall]
  have hexponent : exponent inner stop.1 [token] = ⟨.error reply.1, reply.2, []⟩ := bind_apply_error hunary
  have hequality : equality inner stop.1 [token] = ⟨.error reply.1, reply.2, []⟩ := by
    refine chain_apply_error (chain_apply_error (chain_apply_error (chain_apply_error (chain_apply_error ?_))))
    exact chain_apply_error (chain_apply_error hexponent)
  have hternary : ternary inner stop.1 [token] = ⟨.error reply.1, reply.2, []⟩ := bind_apply_error hequality
  have hdisjunction : disjunction inner stop.1 [token] = ⟨.error reply.1, reply.2, []⟩ :=
    chain_apply_error (chain_apply_error (chain_apply_error hternary))
  have hexpression : expression inner stop.1 [token] = ⟨.error reply.1, reply.2, []⟩ := by
    rw [expression, bind_apply_error hdisjunction]
  rw [expressionStatement, bind_apply_error hexpression, hreply]

theorem conducts_declaration (hlength : tokens.length ≤ n) :
    Steady frame (frame.Statement tokens) (declaration inner) (declaration inner') tokens := by
  apply conducts_peek_bind
  cases tokens with
  | nil =>
    rw [List.headD_nil, Token.kind_shift, frame.stop.2]
    exact conducts_expressionStatement h hlength
  | cons token tail =>
    have htail : tail.length < n := hlength
    rw [List.headD_cons, Token.kind_shift]
    split
    · rename_i hkind
      apply conducts_checkSecond_bind
      · split
        · rename_i hfunction
          apply conducts_advance_bind (.level 0) (by rw [hkind]; rfl)
          cases tail with
          | nil => simp at hfunction
          | cons word after =>
            have hword : word.kind = Keyword.kwFunction := by simpa using hfunction
            apply conducts_advance_bind (.level 0) (by rw [hword]; rfl)
            rw [List.length_cons] at htail
            have hfront : frame.Spells (optional true (tokenOf Keyword.kwAsync) * tokenOf Keyword.kwFunction)
                (token :: word :: after) after := .mul (Frame.spells_single hkind) (Frame.spells_single hword)
            apply (conducts_functionDeclaration h hfront (by omega)).bind
            rintro decl _ _ ⟨hdecl, hwords⟩
            refine conducts_pure (.inr rfl) (by simp [Stmt.reline]) ⟨.function hdecl.1 hdecl.2, ?_⟩ rfl
            rw [Stmt.spelling]
            exact hwords
        · exact conducts_expressionStatement h hlength
      · rintro (rfl : tail = [])
        rw [if_neg (by simp)]
        exact rest_expressionStatement_async hkind frame.stop
    · rename_i word hword hkind
      rcases conducts_worded? h word with ⟨hp, hq⟩ | ⟨p, q, hp, hq, hworded⟩
      · rw [hp, hq]
        exact conducts_expressionStatement h hlength
      · rw [hp, hq]
        refine conducts_of_suffix fun hsource => ?_
        apply conducts_advance_bind (.level 0) (by rw [hkind]; rfl)
        refine (hworded (Frame.spells_single hkind) (Nat.le_of_lt htail) fun hswitch hs => ?_).forget
        exact h.switches hs hsource (by rw [hkind, hswitch]) htail
    · rename_i hkind
      apply conducts_advance_bind (.level 1) (by rw [hkind]; rfl)
      apply (conducts_block h htail).bind
      rintro content _ _ ⟨hcontent, hwords⟩
      refine conducts_pure (.inr rfl) (by simp [Stmt.reline]) ⟨.block hcontent, ?_⟩ rfl
      rw [Stmt.spelling_block, blockWords, mul_assoc]
      exact Frame.Spells.mul (Frame.spells_single hkind) hwords
    · exact conducts_expressionStatement h hlength

end

/-! ## Any depth -/

theorem Inner.Orderly.tie {frame : Frame} (h : inner.Orderly frame n inner') {rounds rounds' : Nat}
    (henough : ∀ {tokens : List Token}, tokens.length < n + 1 → Enough tokens rounds rounds')
    (htied : frame.given → (inner.tie rounds).Tied (n + 1))
    (hswitches : frame.sealed → ∀ {word tail}, word :: tail <:+ frame.source → word.kind = .keyword .kwSwitch →
      tail.length < n + 1 → FailsOutside (switch (inner.tie rounds)) frame.stop tail) :
    (inner.tie rounds).Orderly frame (n + 1) (inner'.tie rounds') where
  enough := henough
  tied := htied
  expression := fun hlength => conducts_value h.toSteady (Nat.le_of_lt_succ hlength)
  exponent := fun hlength => conducts_exponent h.toSteady (Nat.le_of_lt_succ hlength)
  unary := fun hlength =>
    (conducts_unary h.toSteady (Nat.le_of_lt_succ hlength)).givenAt h.toSteady (Nat.le_of_lt_succ hlength)
  worded := fun hlength => conducts_worded h.toSteady (Nat.le_of_lt_succ hlength)
  declaration := fun hlength => conducts_declaration h (Nat.le_of_lt_succ hlength)
  switches := hswitches

/-- The parsers of the grammar conduct themselves, if no `switch` fails inside of its block. -/
theorem Inner.Tied.orderly {frame : Frame}
    (hswitches : frame.sealed → ∀ {n : Nat} {inner : Inner}, inner.Tied n → ∀ {word tail}, word :: tail <:+ frame.source →
      word.kind = .keyword .kwSwitch → tail.length < n → FailsOutside (switch inner) frame.stop tail)
    (h : inner.Tied n) (h' : inner'.Tied n) : inner.Orderly frame n inner' := by
  induction h generalizing inner' with
  | bottom inner =>
    refine ⟨⟨?_, fun _ => .bottom inner, ?_, ?_, ?_, ?_⟩, ?_, fun hs => hswitches hs (.bottom inner)⟩ <;>
      exact fun hlength => absurd hlength (Nat.not_lt_zero _)
  | tie h hrounds ih =>
    cases h' with
    | tie h' hrounds' =>
      exact (ih h').tie (fun hlength => .inl ⟨by omega, by omega⟩) (fun _ => .tie h hrounds)
        fun hs => hswitches hs (.tie h hrounds)

/-- In a run of its own blocks may be left. -/
theorem Inner.Tied.orderly_alone (h : inner.Tied n) (h' : inner'.Tied n) (stop : Eof)
    (tokens : List Token) : inner.Orderly (.alone stop tokens) n inner' := h.orderly False.elim h'

theorem orderly_quietly (n : Nat) (stop : Eof) (tokens : List Token) :
    (Inner.ofDepth n).Orderly (.quietly stop tokens) n (Inner.ofDepth n) :=
  (Inner.tied_ofDepth n).orderly False.elim (Inner.tied_ofDepth n)

/-- The same depth is enough for one token more, if it does not matter how a run of another depth fails. -/
theorem orderly_ofDepth (frame : Frame) (hsealed : ¬ frame.sealed) (hgiven : ¬ frame.given) (n : Nat) :
    (Inner.ofDepth n).Orderly frame (n + 1) (Inner.ofDepth n) := by
  induction n with
  | zero =>
    refine ⟨⟨fun hlength => .inr ⟨Nat.le_of_lt_succ hlength, rfl⟩, (absurd · hgiven), ?_, ?_, ?_, ?_⟩, ?_,
      (absurd · hsealed)⟩ <;> exact fun _ => conducts_fail (.inr rfl)
  | succ n ih =>
    exact ih.tie (fun hlength => .inr ⟨Nat.le_of_lt_succ hlength, rfl⟩) (absurd · hgiven) (absurd · hsealed)

/-! ## Programs -/

/-- No `switch` of the tokens fails inside of its block. -/
def SwitchesHold (stop : Eof) (source : List Token) : Prop :=
  ∀ word tail, word :: tail <:+ source → word.kind = .keyword .kwSwitch →
    FailsOutside (switch (Inner.ofDepth (tail.length + 1))) stop tail

/-- Whether a `switch` fails inside of its block does not depend on the depth. -/
theorem Inner.Tied.orderly_of_switchesHold {frame : Frame} (h : inner.Tied n)
    (h' : inner'.Tied n) (hswitches : frame.sealed → SwitchesHold frame.stop frame.source) :
    inner.Orderly frame n inner' := by
  refine h.orderly (fun hs m other hother word tail hsource hkind hlength => ?_) h'
  have hinner := (hother.le hlength).orderly_alone (tied_ofDepth (tail.length + 1)) frame.stop tail
  have hfront : (Frame.alone frame.stop tail).Spells (tokenOf Keyword.kwSwitch) tail tail := False.elim
  have hsame := (conducts_switch hinner hfront (Nat.le_succ _) False.elim).same
  have hcanonical := hswitches hs word tail hsource hkind
  rwa [FailsOutside, hsame] at hcanonical

/-- The items of a program. -/
abbrev topItems (tokens : List Token) : Parser (List (Option Stmt)) :=
  many (topItem (Inner.ofDepth (tokens.length + 1)).declaration) (tokens.length + 1)

theorem conducts_topItems (frame : Frame) (hswitches : frame.sealed → SwitchesHold frame.stop frame.source)
    (hhears : frame.Hears (topItems frame.source frame.stop.1 frame.source).notes) :
    Conduct frame .enclosed 0 (fun _ => 0)
      (fun items rest => frame.Spelled (fun items => (items.map (·.elim 1 Stmt.spelling)).prod)
        (fun items => ∀ found ∈ items, ∀ s ∈ found, StmtDerives frame.source frame.given s) frame.source items rest ∧
          rest = []) (topItems frame.source) (topItems frame.source) frame.source := by
  have htied := Inner.tied_ofDepth (frame.source.length + 1)
  have hinner := htied.orderly_of_switchesHold htied hswitches
  refine conducts_many (.inl rfl) (fun rest hrest => conducts_topItem ?_) rfl
    (.inl ⟨Nat.lt_succ_self _, Nat.lt_succ_self _⟩) (List.suffix_refl _) hhears
  exact (hinner.declaration (Nat.lt_succ_of_le hrest)).enclose

/-- A program that is read quietly is spelled by all tokens, but for block ends missing behind them. -/
theorem value_of_gives_topItems {stop : Eof} {items : List (Option Stmt)}
    (h : Gives (topItems tokens) stop tokens items rest) :
    (Frame.quietly stop tokens).Spelled (fun items => (items.map (·.elim 1 Stmt.spelling)).prod)
      (fun items => ∀ found ∈ items, ∀ s ∈ found, StmtDerives tokens True s) tokens items rest ∧ rest = [] :=
  Conducts.value_of_gives (fun _ => conducts_topItems (.quietly stop tokens) False.elim) h

/-- The diagnostics of a program are those of its items. -/
theorem diagnostics_ofBody (stop : Eof) (tokens : List Token) :
    (Parse.ofBody stop.1 tokens).diagnostics = (topItems tokens stop.1 tokens).diagnostics := by
  rw [ofBody_apply rfl, Reply.diagnostics]
  split <;> simp_all

theorem stmtDerives_ofBody (stop : Eof) (tokens : List Token) : ∀ s ∈ (Parse.ofBody stop.1 tokens).program,
    StmtDerives tokens ((Parse.ofBody stop.1 tokens).diagnostics = []) s := by
  cases hreply : topItems tokens stop.1 tokens with
  | mk outcome rest notes =>
    rw [ofBody_apply hreply]
    cases outcome with
    | error diagnostic => simp
    | ok items =>
      have hitems := conducts_topItems ⟨tokens, stop, .still, False, notes = [], notes = [], id⟩ False.elim
        (by rw [hreply]; exact id)
      have hfound := hitems.value items (congrArg Reply.outcome hreply)
      exact forall_mem_filterMap_id hfound.1.1

/-- The tokens that are read. -/
abbrev untilEof (tokens : List Token) : List Token := tokens.takeWhile fun token => token.kind ≠ .eof

/-- What a parse gives is a program of the grammar, and what is incremented in it can be if no fault was recorded. -/
theorem stmtDerives_ofTokens (tokens : List Token) : ∀ s ∈ (Parse.ofTokens tokens).program,
    StmtDerives (untilEof tokens) ((Parse.ofTokens tokens).diagnostics = []) s := by
  obtain ⟨stop, hparse⟩ := exists_ofTokens_eq tokens
  rw [hparse]
  exact stmtDerives_ofBody stop _

/-- No token is lost, invented or moved: the tokens of a program without faults spell it, where ends of blocks may
be missing behind the last token. -/
theorem Parse.append_mem_spelling {tokens : List Token} (h : (Parse.ofTokens tokens).diagnostics = []) :
    ∃ closing : List Token, (∀ token ∈ closing, token.kind = .dedent) ∧
      tokens.takeWhile (fun token => token.kind ≠ .eof) ++ closing ∈
        Program.spelling (Parse.ofTokens tokens).program := by
  obtain ⟨stop, hparse⟩ := exists_ofTokens_eq tokens
  rw [hparse] at h ⊢
  obtain ⟨items, rest, hitems, hprogram⟩ := exists_gives_of_ofBody h
  obtain ⟨⟨-, hwords⟩, rfl⟩ := value_of_gives_topItems hitems
  obtain ⟨used, closing, hused, hword, hdedent, -⟩ := hwords trivial
  rw [List.append_nil] at hused
  refine ⟨closing, hdedent, ?_⟩
  rw [hprogram, hused, Program.spelling, Stmt.spellings_eq_map, prod_map_filterMap_id]
  exact hword

/-- The call takes the end of the block with its layout, so that the block ends with the tokens. -/
theorem Parse.append_mem_spelling_openBlock :
    (Parse.ofTokens (Token.Scan.ofSource "if x:\n    f(\n!a);").tokens).diagnostics = [] ∧
      ∃ closing : List Token, (∀ token ∈ closing, token.kind = .dedent) ∧
        (Token.Scan.ofSource "if x:\n    f(\n!a);").tokens.takeWhile (fun token => token.kind ≠ .eof) ++ closing ∈
          Program.spelling (Parse.ofTokens (Token.Scan.ofSource "if x:\n    f(\n!a);").tokens).program := by
  have h : (Parse.ofTokens (Token.Scan.ofSource "if x:\n    f(\n!a);").tokens).diagnostics = [] := by decide +kernel
  exact ⟨h, Parse.append_mem_spelling h⟩

/-- The statements of a list of tokens at other places. -/
def Parse.reline (g : Nat → Nat) (parse : Parse) : Parse :=
  ⟨Offside.reline g parse.program, parse.diagnostics.map (Diagnostic.reline g)⟩

/-- Parsing does not depend on the places of the tokens but for the numbers of lines. -/
theorem Parse.ofBody_shift (moved : Shift) (stop : Eof) (tokens : List Token) :
    ofBody (stop.1.shift moved) (tokens.map (Token.shift moved)) = (ofBody stop.1 tokens).reline moved.line := by
  have hitems := conducts_topItems ⟨tokens, stop, moved, False, False, False, id⟩ False.elim False.elim
  have hmoved : many (topItem (Inner.ofDepth ((tokens.map (Token.shift moved)).length + 1)).declaration)
      ((tokens.map (Token.shift moved)).length + 1) (stop.1.shift moved) (tokens.map (Token.shift moved)) =
      (many (topItem (Inner.ofDepth (tokens.length + 1)).declaration) (tokens.length + 1) stop.1 tokens).carry moved
        [] := by
    rw [List.length_map, ← hitems.moved [] ⟨stop.1.shift moved, stop.2⟩ (.inr ⟨rfl, rfl⟩), List.append_nil]
  cases hreply : many (topItem (Inner.ofDepth (tokens.length + 1)).declaration) (tokens.length + 1) stop.1 tokens with
  | mk outcome rest notes =>
    rw [ofBody_apply hreply, ofBody_apply hmoved, hreply]
    cases outcome with
    | ok statements => exact congrArg (Parse.mk · _) (reline_filterMap moved.line statements).symm
    | error diagnostic => simp [Reply.carry, Parse.reline]

end Offside.Grammar
