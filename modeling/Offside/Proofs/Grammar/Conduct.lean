import Offside.Proofs.Grammar.Progress
import Offside.Proofs.Grammar.Words
import Offside.Proofs.Token.Shift
import Offside.Proofs.Tree.Renumbering

/-!
# What a parser sees, takes and reports

Whether it fails or not, a parser keeps to a few rules.  The layout tokens it takes match each other, as long as no
bracket is opened and the parser does not fail inside a block.  What it reports is at one of the tokens it was given,
or at their end when none is left, and comes in the order of the lines but for the faults that are recorded at a token
passed before.  The value that it gives has a property, and often took some token.  And unless it came to the end, it
does the same with anything behind: tokens with other places and more tokens behind them give the same value, up to the
numbers of lines.  So does a parser that differs in its bounds on rounds or on depth only, as long as these are not used
up.  Each combinator gets one rule for parsers that conduct themselves so.
-/

namespace Offside

namespace Grammar

open Offside.Grammar.Parser

variable {α β : Type} {a b : α} {rest more : List Token} {fault : Fault} {notes : List Diagnostic} {kind : Token.Kind}
  {item : Parser (Option α)} {rounds rounds' : Nat}

/-! ## Layout -/

def isOpening : Token.Kind → Bool
  | .symbol .leftParen | .symbol .leftBracket | .symbol .leftBrace => true
  | _ => false

/-- Where the layout stands: a number of blocks is open, or a bracket was opened and layout counts no more. -/
inductive Standing
  | level (depth : Nat)
  | enclosed

namespace Standing

/-- Where the layout stands behind a token.  A `dedent` needs an open block. -/
def step (kind : Token.Kind) : Standing → Option Standing
  | .enclosed => some .enclosed
  | .level depth =>
    match kind with
    | .indent => some (.level (depth + 1))
    | .dedent => if depth = 0 then none else some (.level (depth - 1))
    | kind => some (if isOpening kind then .enclosed else .level depth)

def after (standing : Standing) : List Token → Option Standing
  | [] => some standing
  | token :: tokens => (standing.step token.kind).bind (after · tokens)

/-- The same inside of more blocks. -/
def raise (more : Nat) : Standing → Standing
  | .level depth => .level (more + depth)
  | .enclosed => .enclosed

theorem step_enclosed (kind : Token.Kind) : step kind .enclosed = some .enclosed := rfl

theorem after_enclosed (tokens : List Token) : after .enclosed tokens = some .enclosed := by
  induction tokens with
  | nil => rfl
  | cons token tokens ih => rw [after, step_enclosed, Option.bind_some, ih]

theorem after_append (standing : Standing) (front back : List Token) :
    standing.after (front ++ back) = (standing.after front).bind (·.after back) := by
  induction front generalizing standing with
  | nil => rfl
  | cons token front ih =>
    rw [List.cons_append, after, after, Option.bind_assoc]
    congr 1
    funext next
    exact ih next

theorem step_other {kind : Token.Kind} (hindent : kind ≠ .indent) (hdedent : kind ≠ .dedent) (depth : Nat) :
    step kind (.level depth) = some (if isOpening kind then .enclosed else .level depth) := by
  cases kind with
  | indent => exact absurd rfl hindent
  | dedent => exact absurd rfl hdedent
  | _ => rfl

theorem step_raise {kind : Token.Kind} {standing next : Standing} (h : standing.step kind = some next) (more : Nat) :
    (standing.raise more).step kind = some (next.raise more) := by
  cases standing with
  | enclosed =>
    cases h
    rfl
  | level depth =>
    by_cases hindent : kind = .indent
    · subst hindent
      cases h
      rfl
    · by_cases hdedent : kind = .dedent
      · subst hdedent
        cases depth with
        | zero => cases h
        | succ depth =>
          cases h
          rfl
      · rw [step_other hindent hdedent] at h
        rw [raise, step_other hindent hdedent]
        cases h
        split <;> rfl

end Standing

/-! ## The order of diagnostics -/

/-- The faults that are recorded at a token which was passed before: the sign of an assignment, an increment operator
or the word of a default. -/
def lateFaults : List Fault := [.badAssignment, .badUpdate, .secondDefault]

def IsLate (d : Diagnostic) : Prop := d.message ∈ lateFaults.map Fault.message

/-- Diagnostics from one line to another, each at the line of the one before it or behind it, unless it is late. -/
structure InOrder (first last : Nat) (ds : List Diagnostic) : Prop where
  sorted : ds.Pairwise fun a b => a.line ≤ b.line ∨ IsLate b
  first_le : ∀ d ∈ ds, first ≤ d.line ∨ IsLate d
  le_last : ∀ d ∈ ds, d.line ≤ last

namespace InOrder

variable {first middle last : Nat} {ds es : List Diagnostic}

theorem nil : InOrder first last [] := ⟨.nil, by simp, by simp⟩

theorem singleton {d : Diagnostic} (hfirst : first ≤ d.line ∨ IsLate d) (hlast : d.line ≤ last) :
    InOrder first last [d] := ⟨List.pairwise_singleton _ d, by simpa using hfirst, by simpa using hlast⟩

theorem mono (h : InOrder first last ds) {first' last' : Nat} (hfirst : first' ≤ first) (hlast : last ≤ last') :
    InOrder first' last' ds where
  sorted := h.sorted
  first_le d hd := (h.first_le d hd).imp_left (Nat.le_trans hfirst)
  le_last d hd := Nat.le_trans (h.le_last d hd) hlast

theorem append (h : InOrder first middle ds) (hnext : InOrder middle last es) (hfirst : first ≤ middle)
    (hlast : middle ≤ last) : InOrder first last (ds ++ es) where
  sorted := by
    refine List.pairwise_append.2 ⟨h.sorted, hnext.sorted, fun a ha b hb => ?_⟩
    exact (hnext.first_le b hb).imp_left (Nat.le_trans (h.le_last a ha))
  first_le := List.forall_mem_append.2 ⟨h.first_le, (hnext.mono hfirst (Nat.le_refl _)).first_le⟩
  le_last := List.forall_mem_append.2 ⟨(h.mono (Nat.le_refl _) hlast).le_last, hnext.le_last⟩

end InOrder

/-! ## Runs -/

/-- What a run is seen in: the tokens it is a part of and the token that ends them, other numbers for their places,
whether no block is left by a failure inside of it, whether nothing is recorded, and whether the values of such a run
are known to be given quietly at a depth beyond the tokens. -/
structure Frame where
  source : List Token
  stop : Eof
  shift : Shift
  sealed : Prop
  quiet : Prop
  given : Prop
  quiet_of_given : given → quiet

namespace Frame

variable {token : Token}

/-- A run on tokens alone. -/
def alone (stop : Eof) (tokens : List Token) : Frame := ⟨tokens, stop, .still, False, False, False, id⟩

/-- A run that records nothing. -/
abbrev quietly (stop : Eof) (tokens : List Token) : Frame := ⟨tokens, stop, .still, False, True, True, id⟩

/-- The layout stands where it should, or deeper if blocks are left by failures.  At the end of the tokens it does not
matter. -/
def Settles (frame : Frame) (rest : List Token) (depth : Nat) : Standing → Prop
  | .enclosed => True
  | .level found => rest = [] ∨ depth ≤ found ∧ (frame.sealed → found = depth)

/-- The tokens in front of `rest` lead from one number of open blocks to another, wherever they stand. -/
def Keeps (frame : Frame) (ground : Standing) (gain : Nat) (tokens rest : List Token) : Prop :=
  ∃ taken, tokens = taken ++ rest ∧
    ∀ more, ∃ standing, (ground.raise more).after taken = some standing ∧ frame.Settles rest (more + gain) standing

/-- A diagnostic is at one of the tokens, or at their end if none is left. -/
def Located (frame : Frame) (rest : List Token) (d : Diagnostic) : Prop :=
  ∃ token fault, (token ∈ frame.source ∨ rest = [] ∧ token = frame.stop.1) ∧ d = diagnosticAt token fault

/-- The line of the next token. -/
def line (frame : Frame) (tokens : List Token) : Nat := (tokens.headD frame.stop.1).line

/-- No token is on a line before that of another one in front of it. -/
def LinesGrow (frame : Frame) : Prop := (frame.source ++ [frame.stop.1]).Pairwise fun a b => a.line ≤ b.line

/-- The token stands in front of these. -/
def Passed (frame : Frame) (token : Token) (tokens : List Token) : Prop :=
  ∃ behind, token :: behind <:+ frame.source ∧ tokens.length ≤ behind.length

/-- If nothing is to be recorded, there are no diagnostics. -/
def Hears (frame : Frame) (notes : List Diagnostic) : Prop := frame.quiet → notes = []

/-- If nothing is to be recorded, the tokens up to `rest` are a word of a language but for missing block ends. -/
def Spells (frame : Frame) (words : Language Token) (tokens rest : List Token) : Prop :=
  frame.quiet → Closes words tokens rest

/-- A value with a property, which is spelled from some tokens on. -/
abbrev Spelled (frame : Frame) {α : Type} (words : α → Language Token) (P : α → Prop) (tokens : List Token) (a : α)
    (rest : List Token) : Prop := P a ∧ frame.Spells (words a) tokens rest

/-- What ends the tokens does not matter when some are left; otherwise it is the same. -/
def Clear (frame : Frame) (rest more : List Token) (stop : Eof) : Prop :=
  rest ≠ [] ∨ more = [] ∧ stop.1 = frame.stop.1.shift frame.shift

variable {frame : Frame} {ground : Standing} {tokens middle rest more : List Token} {stop : Eof} {m n : Nat}

theorem Settles.weaken {standing : Standing} {depth fewer : Nat} (h : frame.Settles rest depth standing)
    (hle : fewer ≤ depth) (hsealed : frame.sealed → fewer = depth) : frame.Settles rest fewer standing := by
  cases standing with
  | enclosed => trivial
  | level found =>
    rcases h with h | ⟨hdepth, hfound⟩
    · exact .inl h
    · exact .inr ⟨by omega, fun hs => by rw [hfound hs, hsealed hs]⟩

theorem Keeps.suffix (h : frame.Keeps ground n tokens rest) : rest <:+ tokens := by
  obtain ⟨taken, htokens, -⟩ := h
  exact ⟨taken, htokens.symm⟩

theorem keeps_refl (h : ground = .enclosed ∨ ground = .level n) : frame.Keeps ground n tokens tokens := by
  refine ⟨[], rfl, fun more => ⟨ground.raise more, rfl, ?_⟩⟩
  rcases h with rfl | rfl
  · trivial
  · exact .inr ⟨Nat.le_refl _, fun _ => rfl⟩

theorem keeps_enclosed (h : rest <:+ tokens) : frame.Keeps .enclosed n tokens rest := by
  obtain ⟨taken, htokens⟩ := h
  exact ⟨taken, htokens.symm, fun _ => ⟨.enclosed, Standing.after_enclosed taken, trivial⟩⟩

theorem Keeps.cons {next : Standing} (hstep : ground.step token.kind = some next)
    (h : frame.Keeps next n tokens rest) : frame.Keeps ground n (token :: tokens) rest := by
  obtain ⟨taken, htokens, htaken⟩ := h
  refine ⟨token :: taken, by rw [htokens, List.cons_append], fun more => ?_⟩
  obtain ⟨standing, hstanding, hsettles⟩ := htaken more
  exact ⟨standing, by rw [Standing.after, Standing.step_raise hstep, Option.bind_some, hstanding], hsettles⟩

theorem Keeps.trans (h : frame.Keeps ground m tokens middle) (hnext : frame.Keeps (.level m) n middle rest) :
    frame.Keeps ground n tokens rest := by
  obtain ⟨taken, rfl, htaken⟩ := h
  obtain ⟨others, rfl, hothers⟩ := hnext
  refine ⟨taken ++ others, (List.append_assoc ..).symm, fun more => ?_⟩
  obtain ⟨standing, hstanding, hsettles⟩ := htaken more
  rw [Standing.after_append, hstanding, Option.bind_some]
  cases standing with
  | enclosed => exact ⟨.enclosed, Standing.after_enclosed others, trivial⟩
  | level found =>
    rcases hsettles with hend | ⟨hfound, hsealed⟩
    · obtain ⟨rfl, rfl⟩ := List.append_eq_nil_iff.1 hend
      exact ⟨.level found, rfl, .inl rfl⟩
    · obtain ⟨standing, hstanding, hsettles⟩ := hothers (found - m)
      have hraise : Standing.raise (found - m) (.level m) = .level found := by
        rw [Standing.raise, Nat.sub_add_cancel (by omega)]
      rw [hraise] at hstanding
      refine ⟨standing, hstanding, hsettles.weaken (by omega) fun hs => ?_⟩
      have hfound := hsealed hs
      omega

theorem Located.mono {d : Diagnostic} {fewer : List Token} (h : frame.Located rest d) (hsuffix : fewer <:+ rest) :
    frame.Located fewer d := by
  obtain ⟨token, fault, hplace, hd⟩ := h
  refine ⟨token, fault, hplace.imp_right fun ⟨hrest, hstop⟩ => ⟨?_, hstop⟩, hd⟩
  rw [hrest] at hsuffix
  exact List.suffix_nil.1 hsuffix

theorem line_le_of_cons (hlines : frame.LinesGrow) (hsource : token :: tokens <:+ frame.source)
    (hrest : rest <:+ tokens) : token.line ≤ frame.line rest := by
  have hsuffix : token :: (tokens ++ [frame.stop.1]) <:+ frame.source ++ [frame.stop.1] := by
    obtain ⟨front, hfront⟩ := hsource
    exact ⟨front, by rw [← hfront, List.append_assoc, List.cons_append]⟩
  refine (List.pairwise_cons.1 (hlines.sublist hsuffix.sublist)).1 _ ?_
  cases rest with
  | nil => simp
  | cons next rest => exact List.mem_append_left _ (hrest.subset List.mem_cons_self)

theorem line_le (hlines : frame.LinesGrow) (hsource : tokens <:+ frame.source) (hrest : rest <:+ tokens) :
    frame.line tokens ≤ frame.line rest := by
  cases tokens with
  | nil => rw [List.suffix_nil.1 hrest]
  | cons token tokens =>
    rcases List.suffix_cons_iff.1 hrest with rfl | hrest
    · exact Nat.le_refl _
    · exact line_le_of_cons hlines hsource hrest

theorem Passed.mem (h : frame.Passed token tokens) : token ∈ frame.source := by
  obtain ⟨behind, hsource, -⟩ := h
  exact hsource.subset List.mem_cons_self

theorem Passed.line_le (h : frame.Passed token tokens) (hlines : frame.LinesGrow)
    (htokens : tokens <:+ frame.source) : token.line ≤ frame.line tokens := by
  obtain ⟨behind, hsource, hlength⟩ := h
  exact line_le_of_cons hlines hsource
    (List.suffix_of_suffix_length_le htokens ((List.suffix_cons token behind).trans hsource) hlength)

theorem Hears.of_append {notes more : List Diagnostic} (h : frame.Hears (notes ++ more)) :
    frame.Hears notes ∧ frame.Hears more :=
  ⟨fun hquiet => (List.append_eq_nil_iff.1 (h hquiet)).1, fun hquiet => (List.append_eq_nil_iff.1 (h hquiet)).2⟩

section
variable {first second : Language Token}

theorem Spells.mul (h : frame.Spells first tokens middle) (hnext : frame.Spells second middle rest) :
    frame.Spells (first * second) tokens rest := fun hquiet => (h hquiet).mul (hnext hquiet)

theorem Spells.mono (h : frame.Spells first tokens rest) (hsub : ∀ word ∈ first, word ∈ second) :
    frame.Spells second tokens rest := fun hquiet => (h hquiet).mono hsub

theorem Spells.inl (h : frame.Spells first tokens rest) : frame.Spells (first + second) tokens rest :=
  h.mono fun _ hword => (Language.mem_add _ _ _).2 (.inl hword)

theorem Spells.inr (h : frame.Spells second tokens rest) : frame.Spells (first + second) tokens rest :=
  h.mono fun _ hword => (Language.mem_add _ _ _).2 (.inr hword)

theorem spells_one : frame.Spells 1 tokens tokens := fun _ => closes_one

theorem spells_single {p : Token → Prop} (h : p token) : frame.Spells (single p) (token :: rest) rest :=
  fun _ => closes_single h

end

theorem Clear.mono {fewer : List Token} (h : frame.Clear fewer more stop) (hsuffix : fewer <:+ rest) :
    frame.Clear rest more stop := by
  refine h.imp_left fun hfewer hrest => hfewer ?_
  rw [hrest] at hsuffix
  exact List.suffix_nil.1 hsuffix

end Frame

namespace Reply

/-- All diagnostics of a reply, that of the failure last. -/
def diagnostics (reply : Reply α) : List Diagnostic :=
  match reply.outcome with
  | .ok _ => reply.notes
  | .error d => reply.notes ++ [d]

/-- The number of blocks that a parser leaves open, none when it fails. -/
def gain (gain : Nat) (reply : Reply α) : Nat :=
  match reply.outcome with
  | .ok _ => gain
  | .error _ => 0

/-- The reply at other places, with more tokens behind. -/
def carry [Lined α] (moved : Shift) (more : List Token) (reply : Reply α) : Reply α where
  outcome :=
    match reply.outcome with
    | .ok a => .ok (reline moved.line a)
    | .error d => .error (d.reline moved.line)
  rest := reply.rest.map (Token.shift moved) ++ more
  notes := reply.notes.map (Diagnostic.reline moved.line)

theorem carry_still [Lined α] (more : List Token) (reply : Reply α) :
    reply.carry .still more = ⟨reply.outcome, reply.rest ++ more, reply.notes⟩ := by
  obtain ⟨outcome, rest, notes⟩ := reply
  have hnotes : notes.map (Diagnostic.reline Shift.still.line) = notes := Diagnostic.map_reline_id notes
  simp only [carry, Token.map_shift_still, hnotes]
  cases outcome with
  | ok a => exact congrArg (fun value => Reply.mk (.ok value) (rest ++ more) notes) (Lined.reline_id a)
  | error d => rfl

end Reply

/-- Something was taken for an item, nothing was taken for none. -/
def perItem : Option α → Nat
  | none => 0
  | some _ => 1

/-- How a run of `p` goes, and that `q` does the same at other places.  For a value `a` at least `takes a` tokens are
gone, and it has a property that may depend on what is left. -/
structure Conduct [Lined α] (frame : Frame) (ground : Standing) (gain : Nat) (takes : α → Nat)
    (P : α → List Token → Prop) (p q : Parser α) (tokens : List Token) : Prop where
  layout : frame.Keeps ground ((p frame.stop.1 tokens).gain gain) tokens (p frame.stop.1 tokens).rest
  located : ∀ d ∈ (p frame.stop.1 tokens).diagnostics, frame.Located (p frame.stop.1 tokens).rest d
  inOrder : frame.LinesGrow → InOrder (frame.line tokens) (frame.line (p frame.stop.1 tokens).rest)
    (p frame.stop.1 tokens).diagnostics
  taken : ∀ a, (p frame.stop.1 tokens).outcome = .ok a →
    (p frame.stop.1 tokens).rest.length + takes a ≤ tokens.length
  value : ∀ a, (p frame.stop.1 tokens).outcome = .ok a → P a (p frame.stop.1 tokens).rest
  moved : ∀ more stop, frame.Clear (p frame.stop.1 tokens).rest more stop →
    q stop.1 (tokens.map (Token.shift frame.shift) ++ more) = (p frame.stop.1 tokens).carry frame.shift more

/-- A parser conducts itself in front of tokens that end those of the frame, unless it records what the frame does not
allow. -/
def Conducts [Lined α] (frame : Frame) (ground : Standing) (gain : Nat) (takes : α → Nat)
    (P : α → List Token → Prop) (p q : Parser α) (tokens : List Token) : Prop :=
  tokens <:+ frame.source → frame.Hears (p frame.stop.1 tokens).notes → Conduct frame ground gain takes P p q tokens

/-- The items have a property, and none is given at an end. -/
def Until (P : α → Prop) (E : List Token → Prop) (found : Option α) (rest : List Token) : Prop :=
  (∀ a ∈ found, P a) ∧ (found = none → E rest)

section
variable [Lined α] [Lined β] {frame : Frame} {ground : Standing} {gain gain' : Nat} {takes : α → Nat}
  {counts : β → Nat} {P : α → List Token → Prop} {Q : β → List Token → Prop} {p q : Parser α} {f g : α → Parser β}
  {tokens tail : List Token} {words : α → Language Token}

theorem Conducts.enclose (h : Conducts frame ground gain takes P p q tokens) :
    Conducts frame .enclosed 0 takes P p q tokens := by
  intro hsource hhears
  obtain ⟨hlayout, hlocated, horder, htaken, hvalue, hmoved⟩ := h hsource hhears
  exact ⟨Frame.keeps_enclosed hlayout.suffix, hlocated, horder, htaken, hvalue, hmoved⟩

theorem Conducts.imp {P' : α → List Token → Prop} (h : Conducts frame ground gain takes P p q tokens)
    (hP : ∀ a rest, P a rest → P' a rest) : Conducts frame ground gain takes P' p q tokens := by
  intro hsource hhears
  obtain ⟨hlayout, hlocated, horder, htaken, hvalue, hmoved⟩ := h hsource hhears
  exact ⟨hlayout, hlocated, horder, htaken, fun a ha => hP a _ (hvalue a ha), hmoved⟩

/-- A quiet run gives its value quietly. -/
theorem Conducts.given (h : Conducts frame ground gain takes P p q tokens) : Conducts frame ground gain takes
    (fun a rest => P a rest ∧ (frame.given → tokens <:+ frame.source ∧ Gives p frame.stop tokens a rest)) p q
      tokens := by
  intro hsource hhears
  obtain ⟨hlayout, hlocated, horder, htaken, hvalue, hmoved⟩ := h hsource hhears
  refine ⟨hlayout, hlocated, horder, htaken, fun a ha => ⟨hvalue a ha, fun hgiven => ⟨hsource, ?_⟩⟩, hmoved⟩
  rw [Gives, ← ha, ← hhears (frame.quiet_of_given hgiven)]

theorem Conducts.mono {fewer : α → Nat} (h : Conducts frame ground gain takes P p q tokens)
    (hfewer : ∀ a, fewer a ≤ takes a) : Conducts frame ground gain fewer P p q tokens := by
  intro hsource hhears
  obtain ⟨hlayout, hlocated, horder, htaken, hvalue, hmoved⟩ := h hsource hhears
  exact ⟨hlayout, hlocated, horder, fun a ha => Nat.le_trans (Nat.add_le_add_left (hfewer a) _) (htaken a ha), hvalue,
    hmoved⟩

theorem Conducts.forget (h : Conducts frame ground gain takes P p q tokens) :
    Conducts frame ground gain (fun _ => 0) P p q tokens := h.mono fun _ => Nat.zero_le _

theorem conducts_of_suffix (h : tokens <:+ frame.source → Conducts frame ground gain takes P p q tokens) :
    Conducts frame ground gain takes P p q tokens := fun hsource => h hsource hsource

theorem conducts_cons {token : Token}
    (h : token ∈ frame.source → Conducts frame ground gain takes P p q (token :: tail)) :
    Conducts frame ground gain takes P p q (token :: tail) := fun hsource =>
  h (hsource.subset List.mem_cons_self) hsource

theorem Conducts.suffix {stop : Eof} (h : Conducts (.alone stop tokens) ground gain takes P p q tokens) :
    (p stop.1 tokens).rest <:+ tokens := (h (List.suffix_refl _) False.elim).layout.suffix

theorem Conducts.same {stop : Eof} (h : Conducts (.alone stop tokens) ground gain takes P p q tokens) :
    q stop.1 tokens = p stop.1 tokens := by
  have hmoved := (h (List.suffix_refl _) False.elim).moved [] stop (.inr ⟨rfl, (Token.shift_still stop.1).symm⟩)
  rwa [Frame.alone, Token.map_shift_still, List.append_nil, Reply.carry_still, List.append_nil] at hmoved

/-- A quiet run on all tokens of the frame. -/
theorem Conducts.value_of_gives (h : Conducts frame ground gain takes P p q frame.source)
    (ha : Gives p frame.stop frame.source a rest) : P a rest := by
  have hreply : p frame.stop.1 frame.source = ⟨.ok a, rest, []⟩ := ha
  have hvalue := (h (List.suffix_refl _) fun _ => by rw [hreply]).value a (by rw [hreply])
  rwa [hreply] at hvalue

theorem Conducts.length_add_le_of_gives {stop : Eof}
    (h : Conducts (.quietly stop tokens) ground gain takes P p q tokens) (ha : Gives p stop tokens a rest) :
    rest.length + takes a ≤ tokens.length := by
  have hreply : p stop.1 tokens = ⟨.ok a, rest, []⟩ := ha
  have htaken := (h (List.suffix_refl _) fun _ => by rw [hreply]).taken a (by rw [hreply])
  rwa [hreply] at htaken

theorem Conducts.length_add_le {stop : Eof} (h : Conducts (.alone stop tokens) ground gain takes P p q tokens)
    (ha : (p stop.1 tokens).outcome = .ok a) : (p stop.1 tokens).rest.length + takes a ≤ tokens.length :=
  (h (List.suffix_refl _) False.elim).taken a ha

/-! ## The monad -/

theorem conducts_pure_of_keeps (hkeeps : frame.Keeps ground gain tokens tokens)
    (hb : b = reline frame.shift.line a) (ha : P a tokens) (htakes : takes a = 0) :
    Conducts frame ground gain takes P (pure a) (pure b) tokens :=
  fun _ _ => {
    layout := hkeeps
    located := fun _ hd => by cases hd
    inOrder := fun _ => .nil
    taken := fun _ h => by
      rw [← Except.ok.inj h, htakes]
      exact Nat.le_refl _
    value := fun _ h => Except.ok.inj h ▸ ha
    moved := fun _ _ _ => by
      rw [hb]
      rfl }

theorem conducts_pure (hground : ground = .enclosed ∨ ground = .level gain)
    (hb : b = reline frame.shift.line a) (ha : P a tokens) (htakes : takes a = 0) :
    Conducts frame ground gain takes P (pure a) (pure b) tokens :=
  conducts_pure_of_keeps (Frame.keeps_refl hground) hb ha htakes

theorem conducts_failAt (hground : ground = .enclosed ∨ ground = .level 0) :
    Conducts frame ground gain takes P (failAt (tokens.headD frame.stop.1) fault)
      (failAt ((tokens.headD frame.stop.1).shift frame.shift) fault) tokens := fun hsource _ => {
  layout := Frame.keeps_refl hground
  located := fun _ hd => by
    refine ⟨_, fault, ?_, List.mem_singleton.1 hd⟩
    cases tokens with
    | nil => exact .inr ⟨rfl, rfl⟩
    | cons token tail => exact .inl (hsource.subset List.mem_cons_self)
  inOrder := fun _ => .singleton (.inl (Nat.le_refl _)) (Nat.le_refl _)
  taken := fun _ ha => by cases ha
  value := fun _ ha => by cases ha
  moved := fun _ _ _ => rfl }

/-- A failure at a token that was just taken. -/
theorem conducts_advance_failAt {token : Token} (fault : Fault) {next : Standing}
    (hstep : ground.step token.kind = some next) (hnext : next = .enclosed ∨ next = .level 0) :
    Conducts frame ground gain takes P (advance >>= (failAt · fault)) (advance >>= (failAt · fault)) (token :: tail) :=
  fun hsource _ => {
    layout := (Frame.keeps_refl hnext).cons hstep
    located := fun _ hd => ⟨token, fault, .inl (hsource.subset List.mem_cons_self), List.mem_singleton.1 hd⟩
    inOrder := fun hlines =>
      .singleton (.inl (Nat.le_refl _)) (Frame.line_le_of_cons hlines hsource (List.suffix_refl tail))
    taken := fun _ ha => by cases ha
    value := fun _ ha => by cases ha
    moved := fun _ _ _ => rfl }

/-- A fault at a token that was passed before.  The run is not quiet then. -/
theorem conducts_note {token : Token} (hground : ground = .enclosed ∨ ground = .level 0)
    (hlate : fault ∈ lateFaults) (htoken : frame.Passed token tokens) :
    Conducts frame ground 0 (fun _ => 0) (fun _ rest => rest = tokens ∧ ¬ frame.quiet) (note token fault)
      (note (token.shift frame.shift) fault) tokens := fun hsource hhears => {
    layout := Frame.keeps_refl hground
    located := fun _ hd => ⟨token, fault, .inl htoken.mem, List.mem_singleton.1 hd⟩
    inOrder := fun hlines => .singleton (.inr (List.mem_map_of_mem hlate)) (htoken.line_le hlines hsource)
    taken := fun _ _ => Nat.le_refl _
    value := fun _ _ => ⟨rfl, fun hquiet => by cases hhears hquiet⟩
    moved := fun _ _ _ => rfl }

omit [Lined α] [Lined β] in
theorem bind_apply_error {stop : Token} {diagnostic : Diagnostic}
    (h : p stop tokens = ⟨.error diagnostic, rest, notes⟩) :
    (p >>= f) stop tokens = ⟨.error diagnostic, rest, notes⟩ := by
  simp only [Bind.bind, h]

omit [Lined α] [Lined β] in
theorem bind_apply_ok {stop : Token} (h : p stop tokens = ⟨.ok a, rest, notes⟩) :
    (p >>= f) stop tokens = ⟨(f a stop rest).outcome, (f a stop rest).rest, notes ++ (f a stop rest).notes⟩ := by
  simp only [Bind.bind, h]

omit [Lined α] in
theorem Reply.diagnostics_append (outcome : Except Diagnostic α) (rest : List Token) (notes more : List Diagnostic) :
    (⟨outcome, rest, notes ++ more⟩ : Reply α).diagnostics = notes ++ (⟨outcome, rest, more⟩ : Reply α).diagnostics := by
  cases outcome <;> simp [Reply.diagnostics]

/-- What follows is run where the layout stands then, which does not matter between brackets. -/
theorem Conducts.bindOn (h : Conducts frame ground gain takes P p q tokens) (after : Standing)
    (hafter : ground = .enclosed ∨ after = .level gain)
    (hnext : ∀ a rest notes, p frame.stop.1 tokens = ⟨.ok a, rest, notes⟩ → rest <:+ tokens →
      rest.length + takes a ≤ tokens.length → P a rest →
        Conducts frame after gain' (fun b => counts b - takes a) Q (f a) (g (reline frame.shift.line a)) rest) :
    Conducts frame ground gain' counts Q (p >>= f) (q >>= g) tokens := by
  intro hsource hhears
  cases hreply : p frame.stop.1 tokens with
  | mk outcome rest notes =>
    cases outcome with
    | error diagnostic =>
      have hp : (p >>= f) frame.stop.1 tokens = ⟨.error diagnostic, rest, notes⟩ := bind_apply_error hreply
      rw [hp] at hhears
      obtain ⟨hlayout, hlocated, horder, -, -, hmoved⟩ := h hsource (by rwa [hreply])
      rw [hreply] at hlayout hlocated horder hmoved
      refine ⟨by rwa [hp], by rwa [hp], by rwa [hp], fun b hb => ?_, fun b hb => ?_, fun more stop hclear => ?_⟩
      · rw [hp] at hb
        cases hb
      · rw [hp] at hb
        cases hb
      · rw [hp] at hclear ⊢
        exact bind_apply_error (hmoved more stop hclear)
    | ok a =>
      have hp := bind_apply_ok (f := f) hreply
      rw [hp] at hhears
      obtain ⟨hheard, hhears'⟩ := hhears.of_append
      obtain ⟨hlayout, hlocated, horder, htaken, hvalue, hmoved⟩ := h hsource (by rwa [hreply])
      rw [hreply] at hlayout hlocated horder htaken hvalue hmoved
      have hlength : rest.length + takes a ≤ tokens.length := htaken a rfl
      have hsuffix := hlayout.suffix
      obtain ⟨hlayout', hlocated', horder', htaken', hvalue', hmoved'⟩ :=
        hnext a rest notes hreply hsuffix hlength (hvalue a rfl) (hsuffix.trans hsource) hhears'
      have hsuffix' := hlayout'.suffix
      cases hreply' : f a frame.stop.1 rest with
      | mk outcome' rest' notes' =>
        rw [hreply'] at hp hlayout' hlocated' horder' htaken' hvalue' hmoved' hsuffix'
        refine ⟨?_, fun d hd => ?_, fun hlines => ?_, fun b hb => ?_, by rwa [hp], fun more stop hclear => ?_⟩
        · rw [hp]
          rcases hafter with rfl | rfl
          · exact Frame.keeps_enclosed (hsuffix'.trans hsuffix)
          · exact hlayout.trans hlayout'
        · rw [hp, Reply.diagnostics_append] at hd
          rw [hp]
          rcases List.mem_append.1 hd with hd | hd
          · exact (hlocated d hd).mono hsuffix'
          · exact hlocated' d hd
        · rw [hp, Reply.diagnostics_append]
          exact (horder hlines).append (horder' hlines) (Frame.line_le hlines hsource hsuffix)
            (Frame.line_le hlines (hsuffix.trans hsource) hsuffix')
        · rw [hp] at hb ⊢
          have hb' : rest'.length + (counts b - takes a) ≤ rest.length := htaken' b hb
          change rest'.length + counts b ≤ tokens.length
          omega
        · rw [hp] at hclear ⊢
          have hfirst := hmoved more stop (hclear.mono hsuffix')
          have hsecond := hmoved' more stop hclear
          rw [bind_apply_ok hfirst]
          simp only [Reply.carry, hsecond, List.map_append]

theorem Conducts.bind (h : Conducts frame ground gain takes P p q tokens)
    (hnext : ∀ a rest, rest.length + takes a ≤ tokens.length → P a rest →
      Conducts frame (.level gain) gain' (fun b => counts b - takes a) Q (f a) (g (reline frame.shift.line a)) rest) :
    Conducts frame ground gain' counts Q (p >>= f) (q >>= g) tokens :=
  h.bindOn _ (.inr rfl) fun a rest _ _ _ => hnext a rest

theorem Conducts.bindEnclosed (h : Conducts frame .enclosed gain takes P p q tokens)
    (hnext : ∀ a rest, rest.length + takes a ≤ tokens.length → P a rest →
      Conducts frame .enclosed gain' (fun b => counts b - takes a) Q (f a) (g (reline frame.shift.line a)) rest) :
    Conducts frame .enclosed gain' counts Q (p >>= f) (q >>= g) tokens :=
  h.bindOn .enclosed (.inl rfl) fun a rest _ _ _ => hnext a rest

theorem Conducts.map {h : α → β} (hp : Conducts frame ground gain takes P p q tokens)
    (hcounts : ∀ a, counts (h a) ≤ takes a) (hh : ∀ a, h (reline frame.shift.line a) = reline frame.shift.line (h a))
    (hQ : ∀ a rest, P a rest → Q (h a) rest) : Conducts frame ground gain counts Q (h <$> p) (h <$> q) tokens := by
  apply hp.bind
  intro a rest _ ha
  exact conducts_pure (.inr rfl) (hh a) (hQ a rest ha) (Nat.sub_eq_zero_of_le (hcounts a))

/-! ## Looking at tokens -/

/-- Parsers that do the same as others in front of these tokens, wherever the tokens are. -/
theorem Conducts.congr (h : Conducts frame ground gain takes P p q tokens) {p' q' : Parser α}
    (hp : p' frame.stop.1 tokens = p frame.stop.1 tokens)
    (hq : ∀ more stop, frame.Clear (p frame.stop.1 tokens).rest more stop → frame.Clear tokens more stop →
      q' stop.1 (tokens.map (Token.shift frame.shift) ++ more) = q stop.1 (tokens.map (Token.shift frame.shift) ++ more)) :
    Conducts frame ground gain takes P p' q' tokens := by
  intro hsource hhears
  rw [hp] at hhears
  obtain ⟨hlayout, hlocated, horder, htaken, hvalue, hmoved⟩ := h hsource hhears
  refine ⟨by rwa [hp], by rwa [hp], by rwa [hp], by rwa [hp], by rwa [hp], fun more stop hclear => ?_⟩
  rw [hp] at hclear ⊢
  rw [hq more stop hclear (hclear.mono hlayout.suffix), hmoved more stop hclear]

omit [Lined α] in
theorem headD_map_shift {stop : Eof} (h : frame.Clear tokens more stop) :
    (tokens.map (Token.shift frame.shift) ++ more).headD stop.1 = (tokens.headD frame.stop.1).shift frame.shift := by
  cases tokens with
  | nil =>
    rcases h with h | ⟨rfl, hstop⟩
    · exact absurd rfl h
    · exact hstop
  | cons token tokens => rfl

omit [Lined α] in
theorem isEmpty_map_shift {stop : Eof} (h : frame.Clear tokens more stop) :
    (tokens.map (Token.shift frame.shift) ++ more).isEmpty = tokens.isEmpty := by
  cases tokens with
  | nil =>
    rcases h with h | ⟨rfl, hstop⟩
    · exact absurd rfl h
    · rfl
  | cons token tokens => rfl

theorem conducts_peek_bind {f g : Token → Parser β}
    (h : Conducts frame ground gain counts Q (f (tokens.headD frame.stop.1))
      (g ((tokens.headD frame.stop.1).shift frame.shift)) tokens) :
    Conducts frame ground gain counts Q (peek >>= f) (peek >>= g) tokens := by
  refine h.congr (by rfl) fun more stop _ hclear => ?_
  rw [← headD_map_shift hclear]
  rfl

theorem conducts_atEnd_bind {f g : Bool → Parser β}
    (h : Conducts frame ground gain counts Q (f tokens.isEmpty) (g tokens.isEmpty) tokens) :
    Conducts frame ground gain counts Q (atEnd >>= f) (atEnd >>= g) tokens := by
  refine h.congr (by rfl) fun more stop _ hclear => ?_
  rw [← isEmpty_map_shift hclear]
  rfl

omit [Lined β] in
theorem check_bind_eq (kind : Token.Kind) (f : Bool → Parser β) :
    check kind >>= f = peek >>= fun token => f (token.kind == kind) := by
  simp only [check, bind_assoc, pure_bind]

theorem conducts_check_bind {f g : Bool → Parser β}
    (h : Conducts frame ground gain counts Q (f (nextKind tokens == kind)) (g (nextKind tokens == kind)) tokens) :
    Conducts frame ground gain counts Q (check kind >>= f) (check kind >>= g) tokens := by
  rw [check_bind_eq, check_bind_eq]
  apply conducts_peek_bind
  rw [← kind_headD] at h
  exact h

theorem conducts_atBlockEnd_bind {f g : Bool → Parser β}
    (h : Conducts frame ground gain counts Q (f (nextKind tokens == .dedent || tokens.isEmpty))
      (g (nextKind tokens == .dedent || tokens.isEmpty)) tokens) :
    Conducts frame ground gain counts Q (atBlockEnd >>= f) (atBlockEnd >>= g) tokens := by
  simp only [atBlockEnd, bind_assoc, pure_bind]
  apply conducts_check_bind
  apply conducts_atEnd_bind
  exact h

/-- The second token does not matter to a parser that takes a single one. -/
theorem conducts_checkSecond_bind {f g : Bool → Parser β}
    (h : Conducts frame ground gain counts Q (f (nextKind tokens.tail == kind)) (g (nextKind tokens.tail == kind))
      tokens) (hshort : tokens.tail = [] → (f (nextKind tokens.tail == kind) frame.stop.1 tokens).rest = []) :
    Conducts frame ground gain counts Q (checkSecond kind >>= f) (checkSecond kind >>= g) tokens := by
  apply h.congr
  · rw [← kind_headD]
    rfl
  · intro more stop hrest _
    have hkind : nextKind (tokens.map (Token.shift frame.shift) ++ more).tail = nextKind tokens.tail := by
      match tokens with
      | [] | [token] =>
        rcases hrest with hne | ⟨rfl, -⟩
        · exact absurd (hshort rfl) hne
        · rfl
      | token :: second :: tokens => rfl
    rw [← hkind, ← kind_headD]
    rfl

/-! ## Taking tokens -/

theorem conducts_advance_bind (next : Standing) {token : Token} {f g : Token → Parser β}
    (hstep : ground.step token.kind = some next)
    (h : Conducts frame next gain (fun b => counts b - 1) Q (f token) (g (token.shift frame.shift)) tail) :
    Conducts frame ground gain counts Q (advance >>= f) (advance >>= g) (token :: tail) := by
  intro hsource hhears
  obtain ⟨hlayout, hlocated, horder, htaken, hvalue, hmoved⟩ :=
    h ((List.suffix_cons token tail).trans hsource) hhears
  refine ⟨hlayout.cons hstep, hlocated, fun hlines => ?_, fun b hb => ?_, hvalue,
    fun more stop hclear => hmoved more stop hclear⟩
  · exact (horder hlines).mono (Frame.line_le_of_cons hlines hsource (List.suffix_refl tail)) (Nat.le_refl _)
  · have hb' := htaken b hb
    change (f token frame.stop.1 tail).rest.length + counts b ≤ tail.length + 1
    omega

theorem conducts_skipLayout_bind {f g : Unit → Parser β}
    (h : ∀ rest, rest.length ≤ tokens.length → frame.Spells layout tokens rest →
      Conducts frame .enclosed gain counts Q (f ()) (g ()) rest) :
    Conducts frame .enclosed gain counts Q (skipLayout >>= f) (skipLayout >>= g) tokens := by
  intro hsource hhears
  have hsuffix : tokens.dropWhile (·.kind.isLayout) <:+ tokens := List.dropWhile_suffix _
  obtain ⟨hlayout, hlocated, horder, htaken, hvalue, hmoved⟩ := 
    h _ hsuffix.length_le (fun _ => closes_layout) (hsuffix.trans hsource) hhears
  refine ⟨Frame.keeps_enclosed (hlayout.suffix.trans hsuffix), hlocated, fun hlines => ?_, fun b hb => ?_, hvalue,
    fun more stop hclear => ?_⟩
  · exact (horder hlines).mono (Frame.line_le hlines hsource hsuffix) (Nat.le_refl _)
  · exact Nat.le_trans (htaken b hb) hsuffix.length_le
  refine Eq.trans ?_ (hmoved more stop hclear)
  have hdrop : (tokens.map (Token.shift frame.shift) ++ more).dropWhile (·.kind.isLayout) =
      (tokens.dropWhile (·.kind.isLayout)).map (Token.shift frame.shift) ++ more := by
    rcases hclear.mono hlayout.suffix with hne | ⟨rfl, -⟩
    · clear hsource hhears hsuffix hlayout hlocated horder htaken hvalue hmoved hclear h
      induction tokens with
      | nil => exact absurd rfl hne
      | cons token tokens ih =>
        rw [List.dropWhile_cons] at hne ⊢
        rw [List.map_cons, List.cons_append, List.dropWhile_cons]
        change (if token.kind.isLayout = true then _ else _) = _
        split
        · rename_i hlayout
          rw [if_pos hlayout] at hne
          exact ih hne
        · rfl
    · rw [List.append_nil, List.append_nil, List.dropWhile_map]
      rfl
  rw [← hdrop]
  rfl

omit [Lined β] in
theorem accept_bind_eq (kind : Token.Kind) (f : Bool → Parser β) : accept kind >>= f =
      peek >>= fun token => if token.kind == kind then advance >>= fun _ => f true else f false := by
  simp only [accept, check, bind_assoc, pure_bind]
  congr 1
  funext token
  split <;> simp only [bind_assoc, pure_bind]

/-- The two ways to go on when a token may be taken. -/
theorem conducts_accept_bind (next : Standing) (hkind : kind ≠ .eof)
    (hstep : ground.step kind = some next) {f g : Bool → Parser β}
    (htrue : ∀ rest, rest.length < tokens.length → frame.Spells (tokenOf kind) tokens rest →
      Conducts frame next gain (fun b => counts b - 1) Q (f true) (g true) rest)
    (hfalse : nextKind tokens ≠ kind → Conducts frame ground gain counts Q (f false) (g false) tokens) :
    Conducts frame ground gain counts Q (accept kind >>= f) (accept kind >>= g) tokens := by
  rw [accept_bind_eq, accept_bind_eq]
  apply conducts_peek_bind
  cases tokens with
  | nil =>
    have hstop : (frame.stop.1.kind == kind) = false := by
      rw [frame.stop.2]
      exact beq_false_of_ne hkind.symm
    rw [List.headD_nil, Token.kind_shift, hstop]
    exact hfalse hkind.symm
  | cons token tail =>
    rw [List.headD_cons, Token.kind_shift]
    split
    · rename_i htoken
      rw [← eq_of_beq htoken] at hstep
      exact conducts_advance_bind next hstep
        (htrue tail (Nat.lt_succ_self _) (Frame.spells_single (eq_of_beq htoken)))
    · rename_i htoken
      exact hfalse fun heq => htoken (beq_iff_eq.2 heq)

theorem conducts_fail (hground : ground = .enclosed ∨ ground = .level 0) :
    Conducts frame ground gain takes P (fail fault) (fail fault) tokens :=
  conducts_peek_bind (conducts_failAt hground)

omit [Lined α] [Lined β] in
theorem fail_bind_eq (fault : Fault) (f : α → Parser β) : (fail fault : Parser α) >>= f = fail fault := rfl

theorem conducts_ifAccept (next : Standing) (hkind : kind ≠ .eof)
    (hstep : ground.step kind = some next) {yes yes' no no' : Parser β}
    (hyes : ∀ rest, rest.length < tokens.length → frame.Spells (tokenOf kind) tokens rest →
      Conducts frame next gain (fun b => counts b - 1) Q yes yes' rest)
    (hno : nextKind tokens ≠ kind → Conducts frame ground gain counts Q no no' tokens) :
    Conducts frame ground gain counts Q (do if ← accept kind then yes else no)
      (do if ← accept kind then yes' else no') tokens :=
  conducts_accept_bind next hkind hstep hyes hno

theorem conducts_expect_bind (next : Standing) (hkind : kind ≠ .eof)
    (hstep : ground.step kind = some next) (hground : ground = .enclosed ∨ ground = .level 0) {f g : Unit → Parser β}
    (h : ∀ rest, rest.length < tokens.length → frame.Spells (tokenOf kind) tokens rest →
      Conducts frame next gain (fun b => counts b - 1) Q (f ()) (g ()) rest) :
    Conducts frame ground gain counts Q (expect kind fault >>= f) (expect kind fault >>= g) tokens := by
  have hexpect : ∀ f : Unit → Parser β,
      expect kind fault >>= f = (do if ← accept kind then f () else fail fault) := by
    intro f
    simp only [expect, bind_assoc]
    congr 1
    funext accepted
    split
    · rfl
    · exact fail_bind_eq fault f
  rw [hexpect, hexpect]
  exact conducts_ifAccept next hkind hstep h fun _ => conducts_fail hground

theorem conducts_expect (gain : Nat) (hkind : kind ≠ .eof)
    (hstep : Standing.step kind (.level 0) = some (.level gain)) :
    Conducts frame (.level 0) gain (fun _ => 1) (fun _ rest => frame.Spells (tokenOf kind) tokens rest)
      (expect kind fault) (expect kind fault) tokens := by
  rw [← bind_pure (expect kind fault)]
  exact conducts_expect_bind (.level gain) hkind hstep (.inr rfl) fun _ _ hspells =>
    conducts_pure (.inr rfl) rfl hspells rfl

theorem conducts_accept (hkind : kind ≠ .eof) (hstep : ground.step kind = some ground)
    (hground : ground = .enclosed ∨ ground = .level 0) :
    Conducts frame ground 0 Bool.toNat (fun taken rest => frame.Spells (optional taken (tokenOf kind)) tokens rest)
      (accept kind) (accept kind) tokens := by
  rw [← bind_pure (accept kind)]
  exact conducts_accept_bind ground hkind hstep (fun _ _ hspells => conducts_pure hground rfl hspells rfl)
    fun _ => conducts_pure hground rfl Frame.spells_one rfl

/-- A parser behind a token that may be taken. -/
theorem conducts_afterToken {P : α → Prop} (next : Standing) (hkind : kind ≠ .eof)
    (hstep : Standing.step kind (.level 0) = some next)
    (h : ∀ rest, rest.length < tokens.length → Conducts frame next 0 takes (frame.Spelled words P rest) p q rest) :
    Conducts frame (.level 0) 0 perItem
      (frame.Spelled (·.elim 1 (tokenOf kind * words ·)) (fun found => ∀ a ∈ found, P a) tokens) (afterToken kind p)
      (afterToken kind q) tokens := by
  refine conducts_accept_bind next hkind hstep (fun rest hlength hspells => ?_)
    fun _ => conducts_pure (.inr rfl) rfl ⟨by simp, Frame.spells_one⟩ rfl
  apply (h rest hlength).bind
  rintro a _ _ ⟨ha, hwords⟩
  exact conducts_pure (.inr rfl) rfl ⟨by simpa using ha, hspells.mul hwords⟩ (Nat.zero_sub _)

/-! ## Repetitions -/

/-- A parser behind one that leaves the layout as it was. -/
theorem Conducts.bindFlat (h : Conducts frame ground 0 takes P p q tokens)
    (hground : ground = .enclosed ∨ ground = .level 0)
    (hnext : ∀ a rest, rest.length + takes a ≤ tokens.length → P a rest →
      Conducts frame ground gain (fun b => counts b - takes a) Q (f a) (g (reline frame.shift.line a)) rest) :
    Conducts frame ground gain counts Q (p >>= f) (q >>= g) tokens :=
  h.bindOn ground hground fun a rest _ _ _ => hnext a rest

/-- Bounds on the rounds that are enough for these tokens: they are not used up, or they are the same and used up at the
end only. -/
abbrev Enough (tokens : List Token) (rounds rounds' : Nat) : Prop :=
  tokens.length < rounds ∧ tokens.length < rounds' ∨ tokens.length ≤ rounds ∧ rounds = rounds'

omit [Lined α] in
theorem Enough.eq_nil (h : Enough tokens 0 rounds') : tokens = [] ∧ rounds' = 0 :=
  ⟨List.length_eq_zero_iff.1 (by omega), by omega⟩

omit [Lined α] in
theorem Enough.exists_succ (h : Enough tokens (rounds + 1) rounds') : ∃ k, rounds' = k + 1 :=
  ⟨rounds' - 1, by omega⟩

/-- A repetition ends by itself, if each item takes a token. -/
theorem conducts_many {P : α → Prop} {E : List Token → Prop} {item' : Parser (Option α)}
    (hground : ground = .enclosed ∨ ground = .level 0)
    (hitem : ∀ rest, rest.length ≤ tokens.length → Conducts frame ground 0 perItem
      (fun found left => Until P E found left ∧ frame.Spells (found.elim 1 words) rest left) item item' rest)
    (hE : E []) (hrounds : Enough tokens rounds rounds') :
    Conducts frame ground 0 (fun _ => 0)
      (fun items rest => frame.Spelled (fun items => (items.map words).prod) (∀ a ∈ ·, P a) tokens items rest ∧ E rest)
      (many item rounds) (many item' rounds') tokens := by
  induction rounds generalizing rounds' tokens with
  | zero =>
    obtain ⟨rfl, rfl⟩ := hrounds.eq_nil
    exact conducts_pure hground rfl ⟨⟨by simp, Frame.spells_one⟩, hE⟩ rfl
  | succ rounds ih =>
    obtain ⟨rounds', rfl⟩ := hrounds.exists_succ
    apply (hitem tokens (Nat.le_refl _)).bindFlat hground
    rintro found rest hrest ⟨hfound, hspells⟩
    cases found with
    | none => exact conducts_pure hground rfl ⟨⟨by simp, hspells⟩, hfound.2 rfl⟩ rfl
    | some a =>
      have hshorter : rest.length < tokens.length := hrest
      have hothers := ih (fun rest' hrest' => hitem rest' (by omega)) (show Enough rest rounds rounds' by omega)
      apply hothers.bindFlat hground
      rintro others _ _ ⟨⟨hothers, hwords⟩, hend⟩
      refine conducts_pure hground rfl ⟨⟨List.forall_mem_cons.2 ⟨hfound.1 a rfl, hothers⟩, ?_⟩, hend⟩ rfl
      simpa using hspells.mul hwords

/-- A repetition keeps what each of its steps keeps. -/
theorem conducts_iterate {step step' : α → Parser (Option α)} (hground : ground = .enclosed ∨ ground = .level 0)
    (hstep : ∀ a rest, rest.length ≤ tokens.length → P a rest → Conducts frame ground 0 perItem
      (fun found rest => P (found.getD a) rest) (step a) (step' (reline frame.shift.line a)) rest)
    (hrounds : Enough tokens rounds rounds') (a : α) (ha : P a tokens) :
    Conducts frame ground 0 (fun _ => 0) P (iterate step rounds a)
      (iterate step' rounds' (reline frame.shift.line a)) tokens := by
  induction rounds generalizing rounds' tokens a with
  | zero =>
    obtain ⟨rfl, rfl⟩ := hrounds.eq_nil
    exact conducts_pure hground rfl ha rfl
  | succ rounds ih =>
    obtain ⟨rounds', rfl⟩ := hrounds.exists_succ
    apply (hstep a tokens (Nat.le_refl _) ha).bindFlat hground
    intro found rest hrest hfound
    cases found with
    | none => exact conducts_pure hground rfl hfound rfl
    | some next =>
      have hshorter : rest.length < tokens.length := hrest
      exact ih (fun b rest' hrest' => hstep b rest' (by omega)) (by omega) next hfound

/-! ## Recovery -/

theorem keeps_synchronize (depth : Nat) (tokens : List Token) :
    frame.Keeps (.level depth) 0 tokens (synchronize depth tokens) := by
  fun_induction synchronize depth tokens with
  | case1 depth => exact ⟨[], rfl, fun more => ⟨_, rfl, .inl rfl⟩⟩
  | case2 token rest hkind => exact .cons (by rw [hkind]; rfl) (Frame.keeps_refl (.inr rfl))
  | case3 depth token rest hkind _ ih => exact .cons (by rw [hkind]; rfl) ih
  | case4 depth token rest hkind ih => exact .cons (by rw [hkind]; rfl) ih
  | case5 token rest hkind => exact Frame.keeps_refl (.inr rfl)
  | case6 token rest hkind => exact .cons (by rw [hkind]; rfl) (Frame.keeps_refl (.inr rfl))
  | case7 token rest hkind depth _ ih => exact .cons (by rw [hkind]; rfl) ih
  | case8 depth token rest _ _ _ hstart =>
    simp only [Bool.and_eq_true, decide_eq_true_eq] at hstart
    exact Frame.keeps_refl (.inr (by rw [hstart.1]))
  | case9 depth token rest _ hindent hdedent _ ih =>
    refine .cons (Standing.step_other hindent hdedent _) ?_
    split
    · exact Frame.keeps_enclosed (synchronize_suffix depth rest)
    · exact ih

theorem synchronize_map_shift {stop : Eof} (depth : Nat) (tokens : List Token)
    (h : frame.Clear (synchronize depth tokens) more stop) :
    synchronize depth (tokens.map (Token.shift frame.shift) ++ more) =
      (synchronize depth tokens).map (Token.shift frame.shift) ++ more := by
  fun_induction synchronize depth tokens with
  | case1 depth =>
    rcases h with h | ⟨rfl, -⟩
    · exact absurd rfl h
    · rfl
  | case2 token rest hkind => simp [synchronize, hkind]
  | case3 depth token rest hkind hdepth ih => simp [synchronize, hkind, hdepth, ih h]
  | case4 depth token rest hkind ih => simp [synchronize, hkind, ih h]
  | case5 token rest hkind => simp [synchronize, hkind]
  | case6 token rest hkind => simp [synchronize, hkind]
  | case7 token rest hkind depth hdepth ih => simp [synchronize, hkind, ih h]
  | case8 depth token rest hsemicolon hindent hdedent hstart =>
    simp only [List.map_cons, List.cons_append]
    rw [synchronize.eq_def]
    simp [hstart]
  | case9 depth token rest hsemicolon hindent hdedent hstart ih =>
    simp only [List.map_cons, List.cons_append]
    rw [synchronize.eq_def]
    simp [hstart, ih h]

theorem keeps_resume (h : frame.Keeps (.level 0) 0 tokens rest) (hne : tokens ≠ [])
    (hdedent : nextKind tokens ≠ .dedent) : frame.Keeps (.level 0) 0 tokens (resume tokens rest) := by
  have hnext : frame.Keeps (.level 0) 0 tokens (synchronize 0 rest) := h.trans (keeps_synchronize 0 rest)
  simp only [resume]
  split
  · -- Nothing was taken at all, so that the token in front is one to stop at.
    rename_i hlength
    have hsame : synchronize 0 rest = tokens := hnext.suffix.eq_of_length hlength
    have hrest : rest = tokens := by
      refine h.suffix.eq_of_length (Nat.le_antisymm h.suffix.length_le ?_)
      rw [← hsame]
      exact (synchronize_suffix 0 rest).length_le
    rw [hsame]
    subst hrest
    cases rest with
    | nil => exact absurd rfl hne
    | cons token tail =>
      have hindent : token.kind ≠ .indent := by
        intro hkind
        have hinside : synchronize 0 (token :: tail) = synchronize 1 tail := by simp [synchronize, hkind]
        have hle := (synchronize_suffix 1 tail).length_le
        rw [hinside, List.length_cons] at hlength
        omega
      refine .cons (Standing.step_other hindent hdedent 0) ?_
      split
      · exact Frame.keeps_enclosed (List.suffix_refl _)
      · exact Frame.keeps_refl (.inr rfl)
  · exact hnext

theorem resume_suffix_synchronize (tokens rest : List Token) : resume tokens rest <:+ synchronize 0 rest := by
  simp only [resume]
  split
  · exact List.tail_suffix _
  · exact List.suffix_refl _

theorem resume_map_shift {stop : Eof} (hne : tokens ≠ []) (hclear : frame.Clear (synchronize 0 rest) more stop) :
    resume (tokens.map (Token.shift frame.shift) ++ more) (rest.map (Token.shift frame.shift) ++ more) =
      (resume tokens rest).map (Token.shift frame.shift) ++ more := by
  have hpos := List.length_pos_iff.2 hne
  simp only [resume, synchronize_map_shift 0 rest hclear, List.length_append, List.length_map, Nat.add_right_cancel_iff]
  split
  · rename_i hlength
    cases hnext : synchronize 0 rest with
    | nil =>
      rw [hnext, List.length_nil] at hlength
      omega
    | cons token tail => rfl
  · rfl

/-- After a failure parsing goes on at the same level.  The token that is dropped for it does not end a block. -/
theorem conducts_recovering {P : α → Prop}
    (h : Conducts frame ground 0 (fun _ => 1) (frame.Spelled words P tokens) p q tokens) (hne : tokens ≠ []) (hground : ground = .enclosed ∨ ground = .level 0 ∧ nextKind tokens ≠ .dedent) :
    Conducts frame ground 0 (fun _ => 1) (frame.Spelled (·.elim 1 words) (fun found => ∀ a ∈ found, P a) tokens)
      (recovering p) (recovering q) tokens := by
  intro hsource hhears
  cases hreply : p frame.stop.1 tokens with
  | mk outcome rest notes =>
    cases outcome with
    | ok a =>
      have hp : recovering p frame.stop.1 tokens = ⟨.ok (some a), rest, notes⟩ := by
        simp only [recovering, hreply]
      rw [hp] at hhears
      obtain ⟨hlayout, hlocated, horder, htaken, hvalue, hmoved⟩ := h hsource (by rwa [hreply])
      rw [hreply] at hlayout hlocated horder htaken hvalue hmoved
      refine ⟨by rwa [hp], by rwa [hp], by rwa [hp], fun found _ => ?_, fun found hfound => ?_,
        fun more stop hclear => ?_⟩
      · rw [hp]
        exact htaken a rfl
      · rw [hp] at hfound ⊢
        cases hfound
        exact ⟨by simpa using (hvalue a rfl).1, (hvalue a rfl).2⟩
      · rw [hp] at hclear ⊢
        simp only [recovering, hmoved more stop hclear]
        rfl
    | error diagnostic =>
      have hp : recovering p frame.stop.1 tokens = ⟨.ok none, resume tokens rest, notes ++ [diagnostic]⟩ := by
        simp only [recovering, hreply]
      rw [hp] at hhears
      obtain ⟨hlayout, hlocated, horder, -, -, hmoved⟩ := h hsource (by rw [hreply]; exact hhears.of_append.1)
      rw [hreply] at hlayout hlocated horder hmoved
      have hresume : resume tokens rest <:+ rest :=
        (resume_suffix_synchronize tokens rest).trans (synchronize_suffix 0 rest)
      refine ⟨?_, fun d hd => ?_, fun hlines => ?_, fun found _ => ?_, fun found hfound => ?_,
        fun more stop hclear => ?_⟩
      · rw [hp]
        rcases hground with rfl | ⟨rfl, hdedent⟩
        · exact Frame.keeps_enclosed (resume_suffix hlayout.suffix)
        · exact keeps_resume hlayout hne hdedent
      · rw [hp] at hd ⊢
        exact (hlocated d hd).mono hresume
      · rw [hp]
        exact (horder hlines).mono (Nat.le_refl _)
          (Frame.line_le hlines (hlayout.suffix.trans hsource) hresume)
      · rw [hp]
        exact length_resume_lt hlayout.suffix hne
      · rw [hp] at hfound
        cases hfound
        exact ⟨by simp, fun hquiet => absurd (hhears hquiet) (by simp)⟩
      · rw [hp] at hclear ⊢
        have hfailed := hmoved more stop (hclear.mono hresume)
        have hnext := hclear.mono (resume_suffix_synchronize tokens rest)
        simp only [recovering, hfailed, Reply.carry, resume_map_shift hne hnext, List.map_append, List.map_cons,
          List.map_nil, reline_none]

theorem conducts_blockItem {P : α → Prop}
    (h : Conducts frame ground 0 (fun _ => 1) (frame.Spelled words P tokens) p q tokens)
    (hground : ground = .enclosed ∨ ground = .level 0) :
    Conducts frame ground 0 perItem (fun found rest => Until (fun found => ∀ a ∈ found, P a) BlockEnd found rest ∧
      frame.Spells (found.elim 1 (·.elim 1 words)) tokens rest) (blockItem p) (blockItem q) tokens := by
  apply conducts_atBlockEnd_bind
  split
  · rename_i hend
    exact conducts_pure hground rfl ⟨⟨by simp, fun _ => by simpa [BlockEnd] using hend⟩, Frame.spells_one⟩ rfl
  · rename_i hend
    simp only [Bool.or_eq_true, beq_iff_eq, List.isEmpty_iff, not_or] at hend
    apply (conducts_recovering h hend.2 (hground.imp_right fun hground => ⟨hground, hend.1⟩)).bindFlat hground
    rintro found _ _ ⟨hfound, hspells⟩
    exact conducts_pure hground rfl ⟨⟨by simpa using hfound, by simp⟩, hspells⟩ rfl

/-- At the top a `dedent` may be dropped. -/
theorem conducts_topItem {P : α → Prop}
    (h : Conducts frame .enclosed 0 (fun _ => 1) (frame.Spelled words P tokens) p q tokens) :
    Conducts frame .enclosed 0 perItem (fun found rest => Until (fun found => ∀ a ∈ found, P a) (· = []) found rest ∧
      frame.Spells (found.elim 1 (·.elim 1 words)) tokens rest) (topItem p) (topItem q) tokens := by
  apply conducts_atEnd_bind
  split
  · rename_i hend
    exact conducts_pure (.inl rfl) rfl ⟨⟨by simp, fun _ => by simpa using hend⟩, Frame.spells_one⟩ rfl
  · rename_i hend
    apply (conducts_recovering h (by simpa using hend) (.inl rfl)).bindEnclosed
    rintro found _ _ ⟨hfound, hspells⟩
    exact conducts_pure (.inl rfl) rfl ⟨⟨by simpa using hfound, by simp⟩, hspells⟩ rfl

/-! ## Blocks -/

/-- What keeps the layout keeps it inside of a block as well, where it must not fail if blocks are not to be left. -/
theorem Conducts.deepen (h : Conducts frame (.level 0) 0 takes P p q tokens)
    (hok : frame.sealed → (p frame.stop.1 tokens).rest <:+ tokens → ∃ a, (p frame.stop.1 tokens).outcome = .ok a) :
    Conducts frame (.level 1) 1 takes P p q tokens := by
  intro hsource hhears
  obtain ⟨⟨front, htokens, hfront⟩, hlocated, horder, htaken, hvalue, hmoved⟩ := h hsource hhears
  refine ⟨⟨front, htokens, fun more => ?_⟩, hlocated, horder, htaken, hvalue, hmoved⟩
  obtain ⟨standing, hstanding, hsettles⟩ := hfront (more + 1)
  refine ⟨standing, hstanding, ?_⟩
  cases houtcome : (p frame.stop.1 tokens).outcome with
  | ok a =>
    simp only [Reply.gain, houtcome] at hsettles ⊢
    exact hsettles
  | error diagnostic =>
    simp only [Reply.gain, houtcome] at hsettles ⊢
    refine hsettles.weaken (by omega) fun hs => ?_
    obtain ⟨a, ha⟩ := hok hs ⟨front, htokens.symm⟩
    rw [houtcome] at ha
    cases ha

omit [Lined α] in
theorem many_apply_none {stop : Token} (h : item stop tokens = ⟨.ok none, rest, notes⟩) (rounds : Nat) :
    many item (rounds + 1) stop tokens = ⟨.ok [], rest, notes⟩ := by
  rw [many, bind_apply_ok h]
  exact congrArg (Reply.mk _ rest) (List.append_nil notes)

omit [Lined α] in
theorem many_apply_some {stop : Token} (h : item stop tokens = ⟨.ok (some a), rest, notes⟩) (rounds : Nat) :
    many item (rounds + 1) stop tokens =
      ⟨(many item rounds stop rest).outcome.map (a :: ·), (many item rounds stop rest).rest,
        notes ++ (many item rounds stop rest).notes⟩ := by
  simp only [many, Bind.bind, h]
  cases many item rounds stop rest with
  | mk outcome rest notes => cases outcome <;> simp [Pure.pure, Except.map]

omit [Lined α] in
/-- A repetition of what never fails does not fail. -/
theorem exists_outcome_many {stop : Token}
    (hitem : ∀ rest, ∃ found, (item stop rest).outcome = .ok found) (rounds : Nat) (tokens : List Token) :
    ∃ as, (many item rounds stop tokens).outcome = .ok as := by
  induction rounds generalizing tokens with
  | zero => exact ⟨[], rfl⟩
  | succ rounds ih =>
    obtain ⟨found, hfound⟩ := hitem tokens
    cases hreply : item stop tokens with
    | mk outcome rest notes =>
      rw [hreply] at hfound
      subst hfound
      cases found with
      | none => exact ⟨[], by rw [many_apply_none hreply]⟩
      | some a =>
        obtain ⟨others, hothers⟩ := ih rest
        exact ⟨a :: others, by rw [many_apply_some hreply, hothers]; rfl⟩

omit [Lined α] in
theorem exists_outcome_blockItem (p : Parser α) (stop : Token) (tokens : List Token) :
    ∃ found, (blockItem p stop tokens).outcome = .ok found := by
  obtain ⟨found, hfound⟩ := exists_outcome_recovering p stop tokens
  obtain ⟨ended, hended⟩ : ∃ ended, atBlockEnd stop tokens = ⟨.ok ended, tokens, []⟩ := ⟨_, rfl⟩
  rw [blockItem, bind_apply_ok hended]
  cases ended with
  | true => exact ⟨none, rfl⟩
  | false =>
    cases hreply : recovering p stop tokens with
    | mk outcome rest notes =>
      rw [hreply] at hfound
      subst hfound
      exact ⟨some found, by rw [if_neg (by simp), bind_apply_ok hreply]; rfl⟩

theorem reline_filterMap (g : Nat → Nat) (items : List (Option α)) :
    reline g (items.filterMap id) = (reline g items).filterMap id := by
  induction items with
  | nil => rfl
  | cons item items ih =>
    cases item with
    | none => exact ih
    | some a => exact congrArg (reline g a :: ·) ih

/-- The end of a block, which its content came to. -/
theorem conducts_blockEnd (hend : BlockEnd tokens) (hb : b = reline frame.shift.line a)
    (ha : ∀ rest, frame.Spells (tokenOf .dedent) tokens rest → P a rest) :
    Conducts frame (.level 1) 0 (fun _ => 0) P (do let _ ← accept .dedent; return a)
      (do let _ ← accept .dedent; return b) tokens := by
  refine conducts_accept_bind (.level 0) (by simp) rfl
    (fun rest _ hspells => conducts_pure (.inr rfl) hb (ha rest hspells) rfl) fun hnext => ?_
  obtain rfl : tokens = [] := hend.resolve_left hnext
  exact conducts_pure_of_keeps ⟨[], rfl, fun more => ⟨_, rfl, .inl rfl⟩⟩ hb (ha [] fun _ => closes_dedent_nil) rfl

omit [Lined α] in
theorem forall_mem_filterMap_id {P : α → Prop} {items : List (Option α)} (h : ∀ found ∈ items, ∀ a ∈ found, P a) :
    ∀ a ∈ items.filterMap id, P a := by
  intro a ha
  obtain ⟨found, hfound, rfl⟩ := List.mem_filterMap.1 ha
  exact h _ hfound a rfl

omit [Lined α] in
theorem prod_map_filterMap_id (items : List (Option α)) :
    ((items.filterMap id).map words).prod = (items.map (·.elim 1 words)).prod := by
  induction items with
  | nil => rfl
  | cons item items ih =>
    cases item with
    | none => rwa [List.map_cons, List.prod_cons, Option.elim_none, one_mul]
    | some a => exact congrArg (words a * ·) ih

/-- Items up to the `dedent` of their block. -/
theorem conducts_blockOf {P : α → Prop} (h : ∀ rest, rest.length ≤ tokens.length →
      Conducts frame (.level 0) 0 (fun _ => 1) (frame.Spelled words P rest) p q rest)
    (hrounds : Enough tokens rounds rounds') :
    Conducts frame (.level 1) 0 (fun _ => 0)
      (frame.Spelled (fun items => (items.map words).prod * tokenOf .dedent) (∀ a ∈ ·, P a) tokens) (blockOf p rounds)
      (blockOf q rounds') tokens := by
  have hitems := (conducts_many (.inr rfl) (fun rest hrest => conducts_blockItem (h rest hrest) (.inr rfl)) (.inr rfl)
    hrounds).deepen fun _ _ => exists_outcome_many (exists_outcome_blockItem p frame.stop.1) rounds tokens
  apply hitems.bind
  rintro items rest _ ⟨⟨hfound, hspells⟩, hend⟩
  refine conducts_blockEnd hend (reline_filterMap frame.shift.line items).symm fun _ hdedent =>
    ⟨forall_mem_filterMap_id hfound, .mul ?_ hdedent⟩
  rwa [prod_map_filterMap_id]

end

end Grammar

end Offside
