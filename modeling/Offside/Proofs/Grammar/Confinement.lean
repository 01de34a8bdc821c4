import Offside.Proofs.Grammar.Assignment
import Offside.Proofs.Grammar.Concatenation

/-!
# Faults stay in their block

However broken the content of a block is, what stands behind the block is parsed as it would be alone, and every fault
is reported at a token of the block.  The block itself ends at its `dedent`, unless a `switch` in it fails behind its
own `indent`: the block of that `switch` stays open, so that its `dedent` ends the block around it too early.
-/

namespace Offside.Grammar

open Offside.Grammar.Parser

variable {α β : Type} {source part rest more : List Token} {stop stop' : Eof} {p : Parser α} {n : Nat}

/-! ## Blocks with the token that closes them -/

/-- The content of a block without brackets and the `dedent` that closes it. -/
structure Confining (source : List Token) : Prop where
  flat : ∀ token ∈ source, isOpening token.kind = false
  closed : Token.tally .dedent source = Token.tally .indent source + 1
  open_of_suffix : ∀ part, part <:+ source → part ≠ [] → Token.tally .indent part < Token.tally .dedent part

theorem confining_block {content : List Token} {dedent : Token} (hbalanced : Token.Balanced 0 content)
    (hflat : ∀ token ∈ content, isOpening token.kind = false) (hdedent : dedent.kind = .dedent) :
    Confining (content ++ [dedent]) := by
  have hlast : ∀ front, Token.tally .dedent (front ++ [dedent]) = Token.tally .dedent front + 1 ∧
      Token.tally .indent (front ++ [dedent]) = Token.tally .indent front := by
    intro front
    simp [Token.tally, hdedent]
  refine ⟨?_, ?_, ?_⟩
  · simpa [or_imp, forall_and, hdedent, isOpening] using hflat
  · rw [(hlast content).1, (hlast content).2, hbalanced.closed, Nat.zero_add]
  · rintro part hpart hne
    obtain ⟨inside, rfl⟩ : ∃ inside, part = inside ++ [dedent] := by
      rcases List.suffix_concat_iff.1 hpart with rfl | ⟨inside, rfl, -⟩
      · exact absurd rfl hne
      · exact ⟨inside, rfl⟩
    obtain ⟨front, hfront⟩ := hpart
    rw [← List.append_assoc, List.append_left_inj] at hfront
    have hprefix := hbalanced.open_of_prefix front ⟨inside, hfront⟩
    have hclosed := hbalanced.closed
    rw [← hfront] at hclosed
    simp only [Token.tally, List.countP_append] at hprefix hclosed
    rw [(hlast inside).1, (hlast inside).2]
    simp only [Token.tally]
    omega

/-- Without brackets the layout is told by the numbers of its tokens. -/
theorem Standing.tally_of_after {tokens : List Token} (hflat : ∀ token ∈ tokens, isOpening token.kind = false) {k : Nat}
    {standing : Standing} (h : (Standing.level k).after tokens = some standing) :
    ∃ m, standing = .level m ∧ m + Token.tally .dedent tokens = k + Token.tally .indent tokens := by
  induction tokens generalizing k with
  | nil =>
    cases h
    exact ⟨k, rfl, rfl⟩
  | cons token tokens ih =>
    obtain ⟨htoken, hflat⟩ := List.forall_mem_cons.1 hflat
    rw [after] at h
    by_cases hindent : token.kind = .indent
    · rw [Token.tally_cons_self hindent, Token.tally_cons_of_ne (by simp [hindent])]
      rw [hindent] at h
      obtain ⟨m, hm, htally⟩ := ih hflat h
      exact ⟨m, hm, by omega⟩
    · rw [Token.tally_cons_of_ne hindent]
      by_cases hdedent : token.kind = .dedent
      · rw [Token.tally_cons_self hdedent]
        rw [hdedent] at h
        cases k with
        | zero => cases h
        | succ k =>
          obtain ⟨m, hm, htally⟩ := ih hflat h
          exact ⟨m, hm, by omega⟩
      · rw [Token.tally_cons_of_ne hdedent]
        rw [step_other hindent hdedent, htoken] at h
        exact ih hflat h

/-- No run leads over the rest of the block. -/
theorem Confining.after_eq_none (h : Confining source) (hpart : part <:+ source) (hne : part ≠ []) :
    (Standing.level 0).after part = none := by
  cases hafter : (Standing.level 0).after part with
  | none => rfl
  | some standing =>
    obtain ⟨m, -, htally⟩ := Standing.tally_of_after (fun token htoken => h.flat token (hpart.subset htoken)) hafter
    have hless := h.open_of_suffix part hpart hne
    omega

theorem Confining.rest_ne_nil (h : Confining source) (hpart : part <:+ source) (hne : part ≠ []) {frame : Frame}
    {gain : Nat} (hkeeps : frame.Keeps (.level 0) gain part rest) : rest ≠ [] := by
  rintro rfl
  obtain ⟨taken, htaken, hstanding⟩ := hkeeps
  obtain ⟨standing, hafter, -⟩ := hstanding 0
  rw [List.append_nil] at htaken
  subst htaken
  rw [Standing.raise, Nat.add_zero, h.after_eq_none hpart hne] at hafter
  cases hafter

/-- A run that closes the block and leaves none open comes to its end. -/
theorem Confining.rest_eq_nil (h : Confining source) {frame : Frame} (hkeeps : frame.Keeps (.level 1) 0 source rest)
    (hsealed : frame.sealed) : rest = [] := by
  obtain ⟨taken, rfl, hstanding⟩ := hkeeps
  obtain ⟨standing, hafter, hsettles⟩ := hstanding 0
  obtain ⟨m, rfl, htally⟩ :=
    Standing.tally_of_after (fun token htoken => h.flat token (List.mem_append_left rest htoken)) hafter
  rcases hsettles with hrest | ⟨-, hm⟩
  · exact hrest
  · by_contra hne
    have hless := h.open_of_suffix rest (List.suffix_append taken rest) hne
    have hclosed := h.closed
    have hzero := hm hsealed
    simp only [Token.tally, List.countP_append] at hless hclosed htally
    omega

/-! ## Runs inside of a block -/

/-- A diagnostic is at one of the tokens. -/
def IsAt (tokens : List Token) (d : Diagnostic) : Prop := ∃ token ∈ tokens, ∃ fault, d = diagnosticAt token fault

/-- A run in a block that is not left by failures, unless a `switch` does. -/
def Frame.inside (stop : Eof) (source : List Token) : Frame :=
  ⟨source, stop, .still, SwitchesHold stop source, False, False, id⟩

theorem orderly_inside (stop : Eof) (source : List Token) (n : Nat) :
    (Inner.ofDepth n).Orderly (.inside stop source) n (Inner.ofDepth n) :=
  (Inner.tied_ofDepth n).orderly_of_switchesHold (Inner.tied_ofDepth n) id

/-- A run inside of a block ends inside of it, and does not see what stands behind. -/
structure Stays (source part : List Token) (p : Parser α) (outcome : Except Diagnostic α) (rest : List Token)
    (notes : List Diagnostic) : Prop where
  suffix : rest <:+ part
  isAt : ∀ d ∈ (Reply.mk outcome rest notes).diagnostics, IsAt source d
  apply : ∀ (more : List Token) (stop : Eof), p stop.1 (part ++ more) = ⟨outcome, rest ++ more, notes⟩

theorem exists_stays [Lined α] (hsource : Confining source) (hpart : part <:+ source) (hne : part ≠ [])
    {takes : α → Nat} {P : α → List Token → Prop} (hp : Conducts (.inside stop source) (.level 0) 0 takes P p p part) :
    ∃ outcome rest notes, p stop.1 part = ⟨outcome, rest, notes⟩ ∧ rest ≠ [] ∧ Stays source part p outcome rest notes := by
  obtain ⟨hlayout, hlocated, -, -, -, hmoved⟩ := hp hpart False.elim
  have hrest := hsource.rest_ne_nil hpart hne hlayout
  refine ⟨_, _, _, rfl, hrest, hlayout.suffix, fun d hd => ?_, fun more stop' => ?_⟩
  · obtain ⟨token, fault, hplace, hd⟩ := hlocated d hd
    exact ⟨token, hplace.resolve_right fun h => hrest h.1, fault, hd⟩
  · have hsame := hmoved more stop' (.inl hrest)
    rwa [Frame.inside, Token.map_shift_still, Reply.carry_still] at hsame

/-- After a failure parsing goes on inside of the block as well. -/
theorem synchronize_append (stop : Eof) (hsource : Confining source) (hpart : part <:+ source) (hne : part ≠ []) :
    synchronize 0 part ≠ [] ∧ ∀ more, synchronize 0 (part ++ more) = synchronize 0 part ++ more := by
  have hkeeps : (Frame.inside stop source).Keeps (.level 0) 0 part (synchronize 0 part) := keeps_synchronize 0 part
  have hsync := hsource.rest_ne_nil hpart hne hkeeps
  refine ⟨hsync, fun more => ?_⟩
  have hclear : (Frame.inside stop source).Clear (synchronize 0 part) more stop := .inl hsync
  have hsame := synchronize_map_shift 0 part hclear
  rwa [Frame.inside, Token.map_shift_still, Token.map_shift_still] at hsame

theorem resume_append (stop : Eof) (hsource : Confining source) (hne : part ≠ [])
    (hrest : rest <:+ source) (hleft : rest ≠ []) (more : List Token) :
    resume (part ++ more) (rest ++ more) = resume part rest ++ more := by
  have hclear : (Frame.inside stop source).Clear (synchronize 0 rest) more stop :=
    .inl (synchronize_append stop hsource hrest hleft).1
  have hsame := resume_map_shift hne hclear
  rwa [Frame.inside, Token.map_shift_still, Token.map_shift_still, Token.map_shift_still] at hsame

theorem exists_stays_recovering [Lined α] (hsource : Confining source) (hpart : part <:+ source) (hne : part ≠ [])
    {P : α → List Token → Prop} (hp : Steady (.inside stop source) P p p part) :
    ∃ found rest notes, Stays source part (recovering p) (.ok found) rest notes := by
  obtain ⟨outcome, rest, notes, -, hrest, hsuffix, hat, happly⟩ := exists_stays hsource hpart hne hp
  cases outcome with
  | ok a => exact ⟨some a, rest, notes, hsuffix, hat, fun more stop => by simp only [recovering, happly]⟩
  | error d =>
    refine ⟨none, resume part rest, notes ++ [d], resume_suffix hsuffix, hat, fun more stop => ?_⟩
    simp only [recovering, happly, resume_append stop hsource hne (hsuffix.trans hpart) hrest]

/-- A rest of the block at the top is parsed to some statements, and what stands behind it to the same as alone. -/
theorem Parse.exists_ofBody_part (hsource : Confining source) (stop' : Eof) (more : List Token) (hpart : part <:+ source) :
    ∃ front notes, (part = [] → front = []) ∧ (∀ d ∈ notes, IsAt source d) ∧ ofBody stop'.1 (part ++ more) =
      ⟨front ++ (ofBody stop'.1 more).program, notes ++ (ofBody stop'.1 more).diagnostics⟩ := by
  induction hsize : part.length using Nat.strong_induction_on generalizing part with
  | _ size ih =>
    by_cases hne : part = []
    · subst hne
      exact ⟨[], [], fun _ => rfl, by simp, rfl⟩
    · have htied := Inner.tied_ofDepth ((part ++ more).length + 1)
      have hlength : part.length < (part ++ more).length + 1 := by
        rw [List.length_append]
        omega
      have hdecl := (orderly_inside stop' source _).declaration hlength
      obtain ⟨found, rest, notes, hsuffix, hat, happly⟩ := exists_stays_recovering hsource hpart hne hdecl
      have hshorter := length_lt_of_recovering htied (by simp [hne]) (happly more stop')
      simp only [List.length_append] at hshorter
      obtain ⟨front, notes', -, hat', hothers⟩ := ih rest.length (by omega) (hsuffix.trans hpart) rfl
      refine ⟨found.toList ++ front, notes ++ notes', fun hnil => absurd hnil hne, ?_, ?_⟩
      · exact fun d hd => (List.mem_append.1 hd).elim (hat d) (hat' d)
      · rw [ofBody_step htied (by simp [hne]) (happly more stop'), hothers]
        simp

/-! ## The block -/

/-- The block ends at one of its tokens, which is the last one unless a `switch` fails in it. -/
theorem exists_block (hsource : Confining source) (hne : source ≠ []) (stop : Eof) (hlength : source.length < n) :
    ∃ content rest notes, Stays source source (block (Inner.ofDepth n)) (.ok content) rest notes ∧
      (SwitchesHold stop source → rest = []) := by
  have horder := orderly_inside stop source n
  have hitems := conducts_many (.inr rfl) (fun rest hrest => conducts_blockItem
    (horder.declaration (Nat.lt_of_le_of_lt hrest hlength)) (.inr rfl)) (.inr rfl) (.inl ⟨hlength, hlength⟩)
  obtain ⟨outcome, middle, notes, hrun, hmiddle, hsuffix, hat, happly⟩ :=
    exists_stays hsource (List.suffix_refl _) hne hitems
  obtain ⟨items, hok⟩ := exists_outcome_many (exists_outcome_blockItem (Inner.ofDepth n).declaration stop.1) n source
  rw [hrun] at hok
  subst hok
  -- The items end with the block, and a `dedent` is left there.
  have hend : BlockEnd (many (blockItem (Inner.ofDepth n).declaration) n stop.1 source).rest :=
    ((hitems (List.suffix_refl _) False.elim).value items (congrArg Reply.outcome hrun)).2
  rw [hrun] at hend
  obtain ⟨rest, dedent, rfl, hdedent⟩ := exists_takes_of_nextKind (hend.resolve_right hmiddle) (by simp)
  have hblock : ∀ more (stop : Eof), block (Inner.ofDepth n) stop.1 (source ++ more) =
      ⟨.ok (items.filterMap id), rest ++ more, notes⟩ := by
    intro more stop
    have haccept : accept .dedent stop.1 (dedent :: rest ++ more) = ⟨.ok true, rest ++ more, []⟩ :=
      (gives_accept_true (by simp)).2 ⟨dedent, rfl, hdedent⟩
    have hmany : many (blockItem (Inner.ofDepth n).declaration) n stop.1 (source ++ more) = _ := happly more stop
    rw [block, rounds_ofDepth]
    change (many (blockItem (Inner.ofDepth n).declaration) n >>= _) stop.1 (source ++ more) = _
    rw [bind_apply_ok hmany, bind_apply_ok haccept]
    simp [Pure.pure]
  refine ⟨items.filterMap id, rest, notes, ⟨(List.suffix_cons dedent rest).trans hsuffix, hat, hblock⟩, fun hholds => ?_⟩
  have halone := hblock [] stop
  rw [List.append_nil, List.append_nil] at halone
  have hlayout := (conducts_block horder hlength (List.suffix_refl _) False.elim).layout
  have hreply : block (Inner.ofDepth n) (Frame.inside stop source).stop.1 source = _ := halone
  rw [hreply] at hlayout
  exact hsource.rest_eq_nil hlayout hholds

/-! ## The statement -/

section
variable {inner : Inner} {tokens : List Token} {word colon indent : Token} {name : Token} {text : String}

theorem declaration_if (hword : word.kind = .keyword .kwIf) (stop : Token) :
    declaration inner stop (word :: tokens) = branch inner stop tokens := by
  simp [declaration, Bind.bind, peek, advance, hword, worded?]

theorem body_apply_block {heading : Heading} (hcolon : colon.kind = .symbol .colon) (hindent : indent.kind = .indent)
    (stop : Eof) : body inner heading stop.1 (colon :: indent :: tokens) = block inner stop.1 tokens := by
  have hexpect : expect Symbol.colon (.noColon heading) stop.1 (colon :: indent :: tokens) =
      ⟨.ok (), indent :: tokens, []⟩ := (gives_expect (by simp)).2 ⟨colon, rfl, hcolon⟩
  have haccept : accept .indent stop.1 (indent :: tokens) = ⟨.ok true, tokens, []⟩ :=
    (gives_accept_true (by simp)).2 ⟨indent, rfl, hindent⟩
  rw [body, bind_apply_ok hexpect, bind_apply_ok haccept]
  simp

theorem gives_expression_variable (hname : name.kind = .identifier text) (hcolon : colon.kind = .symbol .colon) :
    Gives (expression inner) stop (name :: colon :: tokens) (.variable ⟨text, name.line⟩) (colon :: tokens) :=
  gives_expression.2 ⟨_, _, gives_disjunction_variable hname (.inr (.inr hcolon)), .inr ⟨by simp [hcolon], rfl, rfl⟩⟩

theorem gives_branchEnd_none (hmore : joins (nextKind more) = false) :
    Gives (branchEnd inner) stop more ([], none) more := by
  have helif : Gives (afterToken Keyword.kwElif (clause inner .elifCondition)) stop more none more :=
    (gives_afterToken (by simp)).2 (.inr ⟨nextKind_ne_of_joins hmore rfl, rfl, rfl⟩)
  have helse : Gives (afterToken Keyword.kwElse (body inner .elseWord)) stop more none more :=
    (gives_afterToken (by simp)).2 (.inr ⟨nextKind_ne_of_joins hmore rfl, rfl, rfl⟩)
  have hmany : Gives (many (afterToken Keyword.kwElif (clause inner .elifCondition)) inner.rounds) stop more [] more := by
    cases inner.rounds with
    | zero => exact .pure
    | succ rounds => exact many_apply_none helif rounds
  exact hmany.bind (helse.bind .pure)

/-- The `if` in front of the block fails or not, and stays inside of the block.  If no `switch` fails in the block, it
has the whole block and no more. -/
theorem exists_branch (hsource : Confining source) (hne : source ≠ []) (stop stop' : Eof)
    (hlength : source.length < n) (hname : name.kind = .identifier text) (hcolon : colon.kind = .symbol .colon)
    (hindent : indent.kind = .indent) (hmore : joins (nextKind more) = false) :
    ∃ outcome rest notes, rest <:+ source ∧ (∀ d ∈ (Reply.mk outcome rest notes).diagnostics, IsAt source d) ∧
      (rest = [] → ∃ s, outcome = .ok s) ∧
      branch (Inner.ofDepth n) stop'.1 (name :: colon :: indent :: (source ++ more)) = ⟨outcome, rest ++ more, notes⟩ ∧
      (SwitchesHold stop source → rest = [] ∧
        ∃ content, outcome = .ok (.branch (.variable ⟨text, name.line⟩) content [] none)) := by
  obtain ⟨content, tail, notes, ⟨htail, hat, hblock⟩, hwhole⟩ := exists_block hsource hne stop hlength
  have hexpression : expression (Inner.ofDepth n) stop'.1 (name :: colon :: indent :: (source ++ more)) =
      ⟨.ok (.variable ⟨text, name.line⟩), colon :: indent :: (source ++ more), []⟩ :=
    gives_expression_variable hname hcolon
  have hbody : body (Inner.ofDepth n) .ifCondition stop'.1 (colon :: indent :: (source ++ more)) =
      ⟨.ok content, tail ++ more, notes⟩ := by
    rw [body_apply_block hcolon hindent, hblock]
  by_cases hend : tail = []
  · subst hend
    have hnone : branchEnd (Inner.ofDepth n) stop'.1 ([] ++ more) = ⟨.ok ([], none), more, []⟩ := gives_branchEnd_none hmore
    refine ⟨.ok (.branch (.variable ⟨text, name.line⟩) content [] none), [], notes, htail, hat, fun _ => ⟨_, rfl⟩, ?_,
      fun _ => ⟨rfl, content, rfl⟩⟩
    rw [branch_eq, bind_apply_ok hexpression, bind_apply_ok hbody, bind_apply_ok hnone]
    simp [Pure.pure]
  · have hless : tail.length < n := Nat.lt_of_le_of_lt htail.length_le hlength
    obtain ⟨outcome, rest, notes', -, hrest, hsuffix, hat', happly⟩ := exists_stays hsource htail hend
      (conducts_branchEnd (orderly_inside stop source n) hless)
    have hall : ∀ d ∈ notes ++ (Reply.mk outcome rest notes').diagnostics, IsAt source d :=
      fun d hd => (List.mem_append.1 hd).elim (hat d) (hat' d)
    cases outcome with
    | ok found =>
      refine ⟨.ok (.branch (.variable ⟨text, name.line⟩) content found.1 found.2), rest, notes ++ notes',
        hsuffix.trans htail, hall, fun hnil => absurd hnil hrest, ?_, fun hholds => absurd (hwhole hholds) hend⟩
      rw [branch_eq, bind_apply_ok hexpression, bind_apply_ok hbody, bind_apply_ok (happly more stop')]
      simp [Pure.pure]
    | error d =>
      refine ⟨.error d, rest, notes ++ notes', hsuffix.trans htail, ?_, fun hnil => absurd hnil hrest, ?_,
        fun hholds => absurd (hwhole hholds) hend⟩
      · simpa [Reply.diagnostics] using hall
      · rw [branch_eq, bind_apply_ok hexpression, bind_apply_ok hbody, bind_apply_error (happly more stop')]
        simp

/-- What is left of the block behind the `if`, with the value of the `if` unless it fails. -/
theorem exists_recovering_branch (hsource : Confining source) (hne : source ≠ []) (stop stop' : Eof)
    (hlength : source.length < n) (hword : word.kind = .keyword .kwIf) (hname : name.kind = .identifier text)
    (hcolon : colon.kind = .symbol .colon) (hindent : indent.kind = .indent) (hmore : joins (nextKind more) = false) :
    ∃ found rest notes, rest <:+ source ∧ (∀ d ∈ notes, IsAt source d) ∧
      recovering (declaration (Inner.ofDepth n)) stop'.1 (word :: name :: colon :: indent :: (source ++ more)) =
        ⟨.ok found, rest ++ more, notes⟩ ∧
      (SwitchesHold stop source → rest = [] ∧
        ∃ content, found = some (.branch (.variable ⟨text, name.line⟩) content [] none)) := by
  obtain ⟨outcome, rest, notes, hrest, hat, hok, hbranch, hwhole⟩ :=
    exists_branch hsource hne stop stop' hlength hname hcolon hindent hmore
  rw [← declaration_if hword] at hbranch
  cases outcome with
  | ok s =>
    refine ⟨some s, rest, notes, hrest, hat, by simp only [recovering, hbranch], fun hholds => ?_⟩
    obtain ⟨hnil, content, hs⟩ := hwhole hholds
    exact ⟨hnil, content, congrArg some (Except.ok.inj hs)⟩
  | error d =>
    have hleft : rest ≠ [] := fun hnil => by
      obtain ⟨s, hs⟩ := hok hnil
      cases hs
    have hsync := (synchronize_append stop hsource hrest hleft).2 more
    have hresume : resume (word :: name :: colon :: indent :: (source ++ more)) (rest ++ more) =
        synchronize 0 rest ++ more := by
      have hle := ((synchronize_suffix 0 rest).trans hrest).length_le
      rw [resume, hsync, if_neg]
      simp only [List.length_append, List.length_cons]
      omega
    refine ⟨none, synchronize 0 rest, notes ++ [d], (synchronize_suffix 0 rest).trans hrest, hat, ?_, fun hholds => ?_⟩
    · simp only [recovering, hbranch, hresume]
    · obtain ⟨-, content, hs⟩ := hwhole hholds
      cases hs

end

/-! ## Programs -/

/-- Whether a parser that fails took no `indent`, told its reply. -/
def failsOutside (tokens : List Token) (reply : Reply α) : Bool :=
  match reply.outcome with
  | .ok _ => true
  | .error _ => (tokens.take (tokens.length - reply.rest.length)).all (·.kind ≠ .indent)

/-- Whether no `switch` of the tokens fails inside of its block. -/
def switchesHold (stop : Eof) : List Token → Bool
  | [] => true
  | word :: tail =>
    (word.kind ≠ .keyword .kwSwitch || failsOutside tail (switch (Inner.ofDepth (tail.length + 1)) stop.1 tail)) &&
      switchesHold stop tail

theorem failsOutside_of_reply {tokens : List Token} (h : failsOutside tokens (p stop.1 tokens) = true) :
    FailsOutside p stop tokens := by
  intro d hd taken htaken token htoken
  rw [failsOutside, hd] at h
  have htake : ∀ left, tokens = taken ++ left → tokens.take (tokens.length - left.length) = taken := by
    rintro left rfl
    simp
  rw [htake _ htaken] at h
  simpa using List.all_eq_true.1 h token htoken

theorem switchesHold_sound {tokens : List Token} (h : switchesHold stop tokens = true) : SwitchesHold stop tokens := by
  induction tokens with
  | nil =>
    intro word tail hsuffix
    cases List.suffix_nil.1 hsuffix
  | cons first tokens ih =>
    obtain ⟨hfirst, htokens⟩ := Bool.and_eq_true_iff.1 h
    intro word tail hsuffix hword
    rcases List.suffix_cons_iff.1 hsuffix with hsame | hsuffix
    · obtain ⟨rfl, rfl⟩ := List.cons.inj hsame
      apply failsOutside_of_reply
      simpa [hword] using hfirst
    · exact ih htokens word tail hsuffix hword

namespace Parse

theorem exists_ofBody_if (hsource : Confining source) (hne : source ≠ []) (stop stop' : Eof)
    {word name colon indent : Token} {text : String} (hword : word.kind = .keyword .kwIf)
    (hname : name.kind = .identifier text) (hcolon : colon.kind = .symbol .colon) (hindent : indent.kind = .indent)
    (hmore : joins (nextKind more) = false) : ∃ front notes, (∀ d ∈ notes, IsAt source d) ∧
      (SwitchesHold stop source → ∃ body, front = [.branch (.variable ⟨text, name.line⟩) body [] none]) ∧
      ofBody stop'.1 (word :: name :: colon :: indent :: (source ++ more)) =
        ⟨front ++ (ofBody stop'.1 more).program, notes ++ (ofBody stop'.1 more).diagnostics⟩ := by
  obtain ⟨n, hn⟩ : ∃ n, n = (word :: name :: colon :: indent :: (source ++ more)).length := ⟨_, rfl⟩
  have hlength : source.length < n := by
    simp only [hn, List.length_cons, List.length_append]
    omega
  obtain ⟨found, rest, notes, hrest, hat, hrun, hwhole⟩ :=
    exists_recovering_branch hsource hne stop stop' hlength hword hname hcolon hindent hmore
  have htied : (Inner.ofDepth (n + 1)).Tied ((word :: name :: colon :: indent :: (source ++ more)).length + 1) :=
    hn ▸ Inner.tied_ofDepth (n + 1)
  obtain ⟨front, notes', hnil, hat', hothers⟩ := exists_ofBody_part hsource stop' more hrest
  refine ⟨found.toList ++ front, notes ++ notes', fun d hd => (List.mem_append.1 hd).elim (hat d) (hat' d),
    fun hholds => ?_, ?_⟩
  · obtain ⟨hend, content, rfl⟩ := hwhole hholds
    exact ⟨content, by rw [hnil hend]; rfl⟩
  · rw [ofBody_step htied (by simp) hrun, hothers]
    simp

/-- Behind an `if` whose block has no brackets all is parsed as it would be alone, however broken the block is, and all
faults are at tokens of the block or at the `dedent` that closes it.  If no `switch` in the block fails behind its own
`indent`, the `if` is one statement with the whole block. -/
theorem ofTokens_if_block {word name colon indent dedent : Token} {text : String} {content later : List Token}
    (hword : word.kind = .keyword .kwIf) (hname : name.kind = .identifier text) (hcolon : colon.kind = .symbol .colon)
    (hindent : indent.kind = .indent) (hdedent : dedent.kind = .dedent) (hbalanced : Token.Balanced 0 content)
    (hflat : ∀ token ∈ content, isOpening token.kind = false) (heof : ∀ token ∈ content, token.kind ≠ .eof)
    (hlater : (ofTokens later).diagnostics = []) (hvar : nextKind later = .keyword .kwVar) :
    let parse := ofTokens (word :: name :: colon :: indent :: (content ++ dedent :: later))
    let source := content ++ [dedent]
    (∃ front, parse.program = front ++ (ofTokens later).program ∧ (switchesHold (firstEof source) source = true →
        ∃ body, front = [.branch (.variable ⟨text, name.line⟩) body [] none])) ∧
      ∀ d ∈ parse.diagnostics, IsAt source d := by
  intro parse source
  have hsource : Confining source := confining_block hbalanced hflat hdedent
  have hfront : ∀ token ∈ word :: name :: colon :: indent :: source, token.kind ≠ .eof := by
    simpa [source, hword, hname, hcolon, hindent, hdedent, or_imp, forall_and] using heof
  have hne : later ≠ [] := by
    rintro rfl
    cases hvar
  have hnext : joins (nextKind (later.takeWhile fun token => decide (token.kind ≠ .eof))) = false := by
    cases later with
    | nil => exact absurd rfl hne
    | cons first later =>
      rw [nextKind_cons] at hvar
      rw [List.takeWhile_cons_of_pos (by simp [hvar]), nextKind_cons, hvar]
      rfl
  obtain ⟨front, notes, hat, hwhole, hbody⟩ := exists_ofBody_if hsource (by simp [source]) (firstEof source)
    (firstEof later) hword hname hcolon hindent hnext
  have hparse : parse = ⟨front ++ (ofTokens later).program, notes ++ (ofTokens later).diagnostics⟩ := by
    have hsplit : word :: name :: colon :: indent :: (content ++ dedent :: later) =
        (word :: name :: colon :: indent :: source) ++ later := by simp [source]
    change ofTokens (word :: name :: colon :: indent :: (content ++ dedent :: later)) = _
    rw [hsplit, ofTokens_eq, firstEof_append hfront hne, List.takeWhile_append_of_pos (by simpa using hfront), ofTokens_eq]
    exact hbody
  rw [hparse, hlater, List.append_nil]
  exact ⟨⟨front, rfl, fun hholds => hwhole (switchesHold_sound hholds)⟩, hat⟩

/-- The block has a `switch` that does not fail, and a statement without its semicolon. -/
theorem ofTokens_if_block_switch :
    let token := Token.empty .start
    let content := [.keyword .kwSwitch, .identifier "a", .symbol .colon, .indent, .keyword .kwCase, .identifier "b",
      .symbol .colon, .identifier "y", .symbol .semicolon, .dedent, .identifier "f", .identifier "g",
      .symbol .semicolon].map token
    let later := [.keyword .kwVar, .identifier "z", .symbol .semicolon, .eof].map token
    let parse := ofTokens (token (.keyword .kwIf) :: token (.identifier "x") :: token (.symbol .colon) ::
      token .indent :: (content ++ token .dedent :: later))
    (∃ body, parse.program = [.branch (.variable ⟨"x", 1⟩) body [] none] ++ (ofTokens later).program) ∧
      parse.diagnostics.length = 1 ∧ ∀ d ∈ parse.diagnostics, IsAt (content ++ [token .dedent]) d := by
  intro token content later parse
  have hbalanced : Token.Balanced 0 content := by
    refine .other (.other (.other (.indent ?_ rfl) ?_ ?_) ?_ ?_) ?_ ?_
    · refine .other (.other (.other (.other (.other (.dedent ?_ rfl) ?_ ?_) ?_ ?_) ?_ ?_) ?_ ?_) ?_ ?_
      · exact .other (.other (.other .nil (by decide) (by decide)) (by decide) (by decide)) (by decide) (by decide)
      all_goals decide
    all_goals decide
  have hword : (token (.keyword .kwIf)).kind = .keyword .kwIf := rfl
  have hname : (token (.identifier "x")).kind = .identifier "x" := rfl
  have hcolon : (token (.symbol .colon)).kind = .symbol .colon := rfl
  have hindent : (token .indent).kind = .indent := rfl
  have hdedent : (token .dedent).kind = .dedent := rfl
  have hlater : (ofTokens later).diagnostics = [] := by decide +kernel
  obtain ⟨⟨front, hprogram, hwhole⟩, hat⟩ := ofTokens_if_block hword hname hcolon hindent hdedent hbalanced
    (by decide) (by decide) hlater rfl
  obtain ⟨body, hfront⟩ := hwhole (by decide +kernel)
  exact ⟨⟨body, hfront ▸ hprogram⟩, by decide +kernel, hat⟩

/-- The `switch` takes its `indent` and fails at the next token.  So the block of the `if` ends in front of its last
statement, and the `dedent` that should close it is a fault. -/
theorem ofTokens_if_block_of_switch_fails :
    let token := Token.empty .start
    let content := [.keyword .kwSwitch, .identifier "a", .symbol .colon, .indent, .identifier "f", .symbol .semicolon,
      .dedent, .identifier "y", .symbol .semicolon].map token
    let later := [.keyword .kwVar, .identifier "z", .symbol .semicolon, .eof].map token
    let parse := ofTokens (token (.keyword .kwIf) :: token (.identifier "x") :: token (.symbol .colon) ::
      token .indent :: (content ++ token .dedent :: later))
    Token.Balanced 0 content ∧ (∀ token ∈ content, isOpening token.kind = false ∧ isClosing token.kind = false) ∧
      (∀ token ∈ content, token.kind ≠ .eof) ∧ (ofTokens later).diagnostics = [] ∧ nextKind later = .keyword .kwVar ∧
        (ofTokens later).program.length = 1 ∧ parse.program.length = 3 ∧ parse.diagnostics.length = 2 := by
  intro token content later parse
  have hbalanced : Token.Balanced 0 content := by
    refine .other (.other (.other (.indent ?_ rfl) ?_ ?_) ?_ ?_) ?_ ?_
    · refine .other (.other (.dedent ?_ rfl) ?_ ?_) ?_ ?_
      · exact .other (.other .nil (by decide) (by decide)) (by decide) (by decide)
      all_goals decide
    all_goals decide
  exact ⟨hbalanced, by decide, by decide, by decide +kernel, rfl, by decide +kernel, by decide +kernel, by decide +kernel⟩

end Parse

end Offside.Grammar
