import Offside.Proofs.Grammar.Blocks
import Offside.Proofs.Grammar.Totality
import Offside.Proofs.Token.Balance

/-!
# Statements behind statements

Tokens that parse without a fault give the same statements in front of any others, unless one of them leaves a block
open or the others go on with the last statement.  A run that does not come to the end of its tokens does not see what
follows them.  One that does stands at their end behind a whole statement or inside of a block, and the layout tells
which of the two.
-/

namespace Offside.Grammar

open Offside.Grammar.Parser

variable {α β : Type} {tokens rest middle : List Token} {kind : Token.Kind} {a : α} {fault : Fault} {stop : Eof}
  {ending : Ending} {inner : Inner} {heading : Heading}

/-! ## Blocks without an end -/

/-- These tokens stand in a block that goes on behind them: to close it takes more `dedent`s. -/
def Unclosed (tokens : List Token) : Prop :=
  ∃ closing, closing ≠ [] ∧ (∀ token ∈ closing, token.kind = .dedent) ∧ behindBlock 0 0 (tokens ++ closing) = some []

/-- One of the blocks is opened and not closed. -/
def LeavesOpen (tokens : List Token) : Prop :=
  ∃ front indent back, tokens = front ++ indent :: back ∧ indent.kind = .indent ∧ Unclosed back

theorem LeavesOpen.of_suffix (h : LeavesOpen rest) (hsuffix : rest <:+ tokens) : LeavesOpen tokens := by
  obtain ⟨front, indent, back, rfl, hindent, hback⟩ := h
  obtain ⟨taken, rfl⟩ := hsuffix
  exact ⟨taken ++ front, indent, back, by simp, hindent, hback⟩

theorem Takes.leavesOpen (h : Takes .indent tokens rest) (hrest : Unclosed rest) : LeavesOpen tokens := by
  obtain ⟨indent, rfl, hindent⟩ := h
  exact ⟨[], indent, rest, rfl, hindent, hrest⟩

theorem Takes.suffix (h : Takes kind tokens rest) : rest <:+ tokens := by
  obtain ⟨token, rfl, -⟩ := h
  exact List.suffix_cons token rest

theorem Takes.append (h : Takes kind tokens rest) (more : List Token) : Takes kind (tokens ++ more) (rest ++ more) := by
  obtain ⟨token, rfl, hkind⟩ := h
  exact ⟨token, rfl, hkind⟩

/-- The content of a block that came to the end of the tokens. -/
theorem unclosed_of_closes {words : Language Token} (h : Closes words tokens []) (hmoves : Moves 0 0 0 0 words) :
    Unclosed tokens := by
  obtain ⟨used, closing, rfl, hword, hdedent, -⟩ := h
  obtain ⟨last, hlast⟩ : ∃ token : Token, token.kind = .dedent := ⟨⟨.dedent, "", 0, 0, 0⟩, rfl⟩
  refine ⟨closing ++ [last], by simp, ?_, ?_⟩
  · simpa [or_imp, forall_and, hlast] using hdedent
  · rw [List.append_nil, ← List.append_assoc, (hmoves _ hword).2]
    simp [behindBlock, hlast, isOpening, isClosing]

/-! ## Layout that matches -/

/-- The tokens up to the partner of a bracket that stands in front of them, told the number of brackets opened in
between. -/
def upToPartner (opened : Nat) : List Token → Option (List Token)
  | [] => none
  | token :: rest =>
    if isOpening token.kind then (upToPartner (opened + 1) rest).map (token :: ·)
    else if isClosing token.kind then
      if opened = 0 then some [] else (upToPartner (opened - 1) rest).map (token :: ·)
    else (upToPartner opened rest).map (token :: ·)

/-- No layout token stands between a bracket and its partner. -/
def flatBrackets : List Token → Bool
  | [] => true
  | token :: rest =>
    (!isOpening token.kind || (upToPartner 0 rest).all (·.all (!·.kind.isLayout))) && flatBrackets rest

theorem flatBrackets_cons {token : Token} : flatBrackets (token :: tokens) = true ↔
    (isOpening token.kind = true → ∀ inside, upToPartner 0 tokens = some inside →
      ∀ found ∈ inside, found.kind.isLayout = false) ∧ flatBrackets tokens = true := by
  rw [flatBrackets]
  cases isOpening token.kind <;> cases upToPartner 0 tokens <;> simp

theorem flatBrackets_of_suffix (h : rest <:+ tokens) (hflat : flatBrackets tokens = true) :
    flatBrackets rest = true := by
  obtain ⟨front, rfl⟩ := h
  induction front with
  | nil => exact hflat
  | cons token front ih =>
    exact ih (flatBrackets_cons.1 hflat).2

/-- Inside of a bracket no `dedent` ends the block. -/
theorem behindBlock_dedents {closing : List Token} (hclosing : ∀ token ∈ closing, token.kind = .dedent) (b d : Nat) :
    behindBlock (b + 1) d closing = none := by
  induction closing with
  | nil => rfl
  | cons token closing ih =>
    obtain ⟨htoken, hclosing⟩ := List.forall_mem_cons.1 hclosing
    simp [behindBlock, htoken, isOpening, isClosing, ih hclosing]

/-- A bracket without a partner hides the end of the block. -/
theorem behindBlock_of_upToPartner {closing : List Token} (hclosing : ∀ token ∈ closing, token.kind = .dedent)
    {b : Nat} (d : Nat) (h : upToPartner b tokens = none) : behindBlock (b + 1) d (tokens ++ closing) = none := by
  induction tokens generalizing b with
  | nil => exact behindBlock_dedents hclosing b d
  | cons token tokens ih =>
    rw [upToPartner] at h
    rw [List.cons_append, behindBlock]
    split at h
    · rename_i hopening
      rw [if_pos hopening]
      exact ih (Option.map_eq_none_iff.1 h)
    · rename_i hopening
      rw [if_neg hopening]
      split at h
      · rename_i hclose
        rw [if_pos hclose]
        cases b with
        | zero => cases h
        | succ b => exact ih (Option.map_eq_none_iff.1 h)
      · rename_i hclose
        rw [if_neg hclose, if_pos (Nat.succ_ne_zero b)]
        exact ih (Option.map_eq_none_iff.1 h)

theorem length_of_behindBlock {closing : List Token} (hclosing : ∀ token ∈ closing, token.kind = .dedent) {d : Nat}
    (h : behindBlock 0 d closing = some []) : closing.length = d + 1 := by
  induction closing generalizing d with
  | nil => cases h
  | cons token closing ih =>
    obtain ⟨htoken, hclosing⟩ := List.forall_mem_cons.1 hclosing
    cases d with
    | zero =>
      have hlast : some closing = some [] := by simpa [behindBlock, htoken, isOpening, isClosing] using h
      rw [Option.some.inj hlast]
      rfl
    | succ d =>
      have hrest : behindBlock 0 d closing = some [] := by
        simpa [behindBlock, htoken, isOpening, isClosing] using h
      rw [List.length_cons, ih hclosing hrest]

theorem isLayout_of_isBracket (h : isOpening kind = true ∨ isClosing kind = true) : kind.isLayout = false := by
  cases kind with
  | symbol => rfl
  | _ => simp [isOpening, isClosing] at h

theorem tally_cons_of_isLayout {token : Token} (tokens : List Token) (h : token.kind.isLayout = false) :
    Token.tally .dedent (token :: tokens) = Token.tally .dedent tokens ∧
      Token.tally .indent (token :: tokens) = Token.tally .indent tokens :=
  ⟨Token.tally_cons_of_ne (by rintro hkind; rw [hkind] at h; cases h),
    Token.tally_cons_of_ne (by rintro hkind; rw [hkind] at h; cases h)⟩

/-- Where no layout stands between brackets, a block lacks as many `dedent`s as it takes to close it. -/
theorem tally_of_behindBlock {closing : List Token} (hclosing : ∀ token ∈ closing, token.kind = .dedent)
    (hne : closing ≠ []) {b d : Nat} (hflat : flatBrackets tokens = true)
    (hinside : b ≠ 0 → ∀ inside, upToPartner (b - 1) tokens = some inside → ∀ found ∈ inside, found.kind.isLayout = false)
    (h : behindBlock b d (tokens ++ closing) = some []) :
    Token.tally .dedent tokens + closing.length = d + 1 + Token.tally .indent tokens := by
  induction tokens generalizing b d with
  | nil =>
    cases b with
    | zero => simpa [Token.tally] using length_of_behindBlock hclosing h
    | succ b =>
      rw [List.nil_append, behindBlock_dedents hclosing] at h
      cases h
  | cons token tokens ih =>
    obtain ⟨hhead, hflat⟩ := flatBrackets_cons.1 hflat
    simp only [upToPartner] at hinside
    rw [List.cons_append, behindBlock] at h
    by_cases hopening : isOpening token.kind = true
    · obtain ⟨hdedents, hindents⟩ := tally_cons_of_isLayout tokens (isLayout_of_isBracket (.inl hopening))
      rw [hdedents, hindents]
      rw [if_pos hopening] at h
      simp only [if_pos hopening] at hinside
      refine ih hflat (fun _ inside hfound => ?_) h
      cases b with
      | zero => exact hhead hopening inside hfound
      | succ b =>
        have hall := hinside (Nat.succ_ne_zero b) (token :: inside)
        rw [Nat.succ_sub_one] at hall hfound
        exact (List.forall_mem_cons.1 (hall (by rw [hfound]; rfl))).2
    rw [if_neg hopening] at h
    simp only [if_neg hopening] at hinside
    by_cases hclose : isClosing token.kind = true
    · obtain ⟨hdedents, hindents⟩ := tally_cons_of_isLayout tokens (isLayout_of_isBracket (.inr hclose))
      rw [hdedents, hindents]
      rw [if_pos hclose] at h
      simp only [if_pos hclose] at hinside
      refine ih hflat (fun hb inside hfound => ?_) h
      have hall := hinside (by omega) (token :: inside)
      rw [if_neg hb, hfound] at hall
      exact (List.forall_mem_cons.1 (hall rfl)).2
    rw [if_neg hclose] at h
    simp only [if_neg hclose] at hinside
    by_cases hb : b = 0
    · subst hb
      rw [if_neg (not_not.2 rfl)] at h
      by_cases hindent : token.kind = .indent
      · rw [if_pos hindent] at h
        rw [Token.tally_cons_self hindent, Token.tally_cons_of_ne (by simp [hindent]),
          ih hflat (fun hb => absurd rfl hb) h]
        omega
      · rw [if_neg hindent] at h
        rw [Token.tally_cons_of_ne hindent]
        by_cases hdedent : token.kind = .dedent
        · rw [if_neg (not_not.2 hdedent)] at h
          rw [Token.tally_cons_self hdedent]
          by_cases hd : d = 0
          · rw [if_pos hd] at h
            simp [hne] at h
          · rw [if_neg hd] at h
            have hlacks := ih hflat (fun hb => absurd rfl hb) h
            omega
        · rw [if_pos hdedent] at h
          rw [Token.tally_cons_of_ne hdedent]
          exact ih hflat (fun hb => absurd rfl hb) h
    · rw [if_pos hb] at h
      -- The bracket at hand has a partner, or nothing would close the block.
      obtain ⟨inside, hfound⟩ : ∃ inside, upToPartner (b - 1) tokens = some inside := by
        rw [← Option.ne_none_iff_exists']
        intro hnone
        have hend := behindBlock_of_upToPartner hclosing d hnone
        rw [Nat.sub_add_cancel (Nat.pos_of_ne_zero hb), h] at hend
        cases hend
      obtain ⟨hlayout, hothers⟩ := List.forall_mem_cons.1 (hinside hb (token :: inside) (by rw [hfound]; rfl))
      obtain ⟨hdedents, hindents⟩ := tally_cons_of_isLayout tokens hlayout
      rw [hdedents, hindents]
      refine ih hflat (fun _ inside' hfound' => ?_) h
      rw [hfound] at hfound'
      exact Option.some.inj hfound' ▸ hothers

/-- A balanced list of tokens leaves no block open. -/
theorem not_leavesOpen (hbalanced : Token.Balanced 0 tokens) (hflat : flatBrackets tokens = true) :
    ¬ LeavesOpen tokens := by
  rintro ⟨front, indent, back, rfl, hindent, closing, hne, hclosing, hback⟩
  have hlacks := tally_of_behindBlock hclosing hne
    (flatBrackets_of_suffix ⟨front ++ [indent], by simp⟩ hflat) (fun hb => absurd rfl hb) hback
  have hprefix := hbalanced.open_of_prefix front ⟨indent :: back, rfl⟩
  have hclosed := hbalanced.closed
  have hpos := List.length_pos_iff.2 hne
  simp only [Token.tally, List.countP_append, List.countP_cons, hindent] at hclosed hprefix hlacks
  simp at hclosed
  omega

/-! ## Runs in front of more tokens -/

/-- The tokens `more` are put behind others, and end with another token than they did. -/
structure Seam where
  stop : Eof
  more : List Token
  stop' : Eof

/-- A quiet run on these tokens is the same in front of more of them, but for some runs. -/
def ExtendsAt (seam : Seam) (But : List Token → List Token → Prop) (p : Parser α) (tokens : List Token) : Prop :=
  ∀ ⦃a rest⦄, Gives p seam.stop tokens a rest → rest <:+ tokens ∧
    (Gives p seam.stop' (tokens ++ seam.more) a (rest ++ seam.more) ∨ But tokens rest)

/-- So is every quiet run on fewer tokens than the bound. -/
def ExtendsBut (seam : Seam) (But : List Token → List Token → Prop) (bound : Nat) (p : Parser α) : Prop :=
  ∀ ⦃tokens⦄, tokens.length < bound → ExtendsAt seam But p tokens

/-- A quiet run is the same in front of more tokens, unless it leaves a block open. -/
abbrev Extends (seam : Seam) : Nat → Parser α → Prop := ExtendsBut seam fun tokens _ => LeavesOpen tokens

/-- A run inside of a block is the same in front of more tokens, unless the block is not closed. -/
abbrev ExtendsInside (seam : Seam) : Nat → Parser α → Prop := ExtendsBut seam fun tokens _ => Unclosed tokens

/-- A run is the same in front of more tokens, unless it comes to the end. -/
abbrev ExtendsShort (seam : Seam) : Nat → Parser α → Prop := ExtendsBut seam fun _ rest => rest = []

theorem nextKind_append_ne {more : List Token} (hrest : nextKind rest ≠ kind)
    (hmore : nextKind more ≠ kind) : nextKind (rest ++ more) ≠ kind := by
  cases rest with
  | nil => exact hmore
  | cons token rest => exact hrest

section
variable {seam : Seam} {But : List Token → List Token → Prop} {p : Parser α} {f : α → Parser β} {bound : Nat}

theorem extendsShort_of_conducts [Lined α] {ground : Standing} {gain : Nat} {takes : α → Nat}
    {P : List Token → α → List Token → Prop} (hp : ∀ tokens, tokens.length < bound →
      Conducts (.quietly seam.stop tokens) ground gain takes (P tokens) p p tokens) : ExtendsShort seam bound p := by
  intro tokens hlength a rest h
  have hreply : p seam.stop.1 tokens = ⟨.ok a, rest, []⟩ := h
  have hconduct := hp tokens hlength (List.suffix_refl _) fun _ => by rw [hreply]
  have hsuffix := hconduct.layout.suffix
  have hmoved := hconduct.moved seam.more seam.stop'
  simp only [Token.map_shift_still, Reply.carry_still] at hmoved
  rw [hreply] at hsuffix hmoved
  exact ⟨hsuffix, or_iff_not_imp_right.2 fun hrest => hmoved (.inl hrest)⟩

/-! ### The monad -/

theorem ExtendsBut.fewer (h : ExtendsBut seam But (bound + 1) p) : ExtendsBut seam But bound p :=
  fun _ hlength => h (Nat.lt_succ_of_lt hlength)

theorem extends_pure : Extends seam bound (pure a) := by
  intro tokens _ b rest h
  obtain ⟨rfl, rfl⟩ := gives_pure.1 h
  exact ⟨List.suffix_refl _, .inl .pure⟩

theorem extends_fail : Extends seam bound (fail fault : Parser α) :=
  fun _ _ _ _ h => absurd h not_gives_fail

theorem ExtendsBut.map {h : α → β} (hp : ExtendsBut seam But bound p) : ExtendsBut seam But bound (h <$> p) := by
  intro tokens hlength b rest hb
  obtain ⟨a, ha, rfl⟩ := gives_map.1 hb
  exact (hp hlength ha).imp_right fun hsame => hsame.imp_left fun ha' => gives_map.2 ⟨a, ha', rfl⟩

theorem ExtendsBut.bind (h : Extends seam bound p) (hnext : ∀ a, Extends seam bound (f a)) :
    Extends seam bound (p >>= f) := by
  intro tokens hlength b rest hb
  obtain ⟨a, middle, ha, hb⟩ := gives_bind.1 hb
  obtain ⟨hmiddle, ha'⟩ := h hlength ha
  obtain ⟨hrest, hb'⟩ := hnext a (Nat.lt_of_le_of_lt hmiddle.length_le hlength) hb
  refine ⟨hrest.trans hmiddle, ?_⟩
  rcases ha' with ha' | hopen
  · exact hb'.imp ha'.bind fun hopen => hopen.of_suffix hmiddle
  · exact .inr hopen

/-- A parser that needs a token behind it does not come to the end. -/
theorem ExtendsBut.before (hp : ExtendsShort seam bound p) (hnil : ∀ a b rest, ¬ Gives (f a) seam.stop [] b rest)
    (hnext : ∀ a, Extends seam bound (f a)) : Extends seam bound (p >>= f) := by
  intro tokens hlength b rest hb
  obtain ⟨a, middle, ha, hb⟩ := gives_bind.1 hb
  obtain ⟨hmiddle, ha'⟩ := hp hlength ha
  have hne : middle ≠ [] := by
    rintro rfl
    exact hnil a b rest hb
  obtain ⟨hrest, hb'⟩ := hnext a (Nat.lt_of_le_of_lt hmiddle.length_le hlength) hb
  exact ⟨hrest.trans hmiddle, hb'.imp (ha'.resolve_right hne).bind fun hopen => hopen.of_suffix hmiddle⟩

theorem ExtendsBut.not_gives_nil (hp : ExtendsShort seam (bound + 1) p)
    (hnil : ∀ a b rest, ¬ Gives (f a) seam.stop [] b rest) {b : β} : ¬ Gives (p >>= f) seam.stop [] b rest := by
  intro hb
  obtain ⟨a, middle, ha, hb⟩ := gives_bind.1 hb
  obtain rfl := List.suffix_nil.1 (@hp [] (Nat.succ_pos bound) _ _ ha).1
  exact hnil a b rest hb

theorem extends_many {item : Parser (Option α)} (hitem : Extends seam bound item) (rounds : Nat) :
    Extends seam bound (many item rounds) := by
  induction rounds with
  | zero => exact extends_pure
  | succ rounds ih =>
    apply hitem.bind
    rintro (_ | a)
    · exact extends_pure
    · exact ih.bind fun _ => extends_pure

/-! ### Taking tokens -/

theorem not_gives_expect_nil (hkind : kind ≠ .eof) {f : Unit → Parser β}
    {b : β} : ¬ Gives (expect kind fault >>= f) stop [] b rest := by
  rw [gives_expect_bind hkind]
  simp

theorem extends_ident {role : Role} : Extends seam bound (ident role) := by
  intro tokens _ name rest h
  obtain ⟨token, rfl, hname⟩ := gives_ident.1 h
  exact ⟨List.suffix_cons token rest, .inl (gives_ident.2 ⟨token, rfl, hname⟩)⟩

theorem ExtendsAt.peek {token : Token} {f : Token → Parser β} (h : ExtendsAt seam But (f token) (token :: tokens)) :
    ExtendsAt seam But (peek >>= f) (token :: tokens) := h

theorem ExtendsAt.check {token : Token} {f : Bool → Parser β}
    (h : ExtendsAt seam But (f (token.kind == kind)) (token :: tokens)) :
    ExtendsAt seam But (check kind >>= f) (token :: tokens) := h

theorem ExtendsAt.checkSecond {token second : Token} {f : Bool → Parser β}
    (h : ExtendsAt seam But (f (second.kind == kind)) (token :: second :: tokens)) :
    ExtendsAt seam But (checkSecond kind >>= f) (token :: second :: tokens) := h

theorem Takes.stays (h : Takes kind tokens rest) (hrest : LeavesOpen rest) : LeavesOpen tokens :=
  hrest.of_suffix h.suffix

section
variable (hbut : ∀ {tokens tail rest}, Takes kind tokens tail → But tail rest → LeavesOpen tokens)
include hbut

theorem ExtendsAt.advance {token : Token} {f : Token → Parser β} (hkind : token.kind = kind)
    (h : ExtendsAt seam But (f token) tokens) :
    ExtendsAt seam (fun tokens _ => LeavesOpen tokens) (advance >>= f) (token :: tokens) := by
  intro b rest hb
  obtain ⟨hrest, hb'⟩ := h hb
  exact ⟨hrest.trans (List.suffix_cons token tokens), hb'.imp_right (hbut ⟨token, rfl, hkind⟩)⟩

theorem extends_expect_bind (hkind : kind ≠ .eof) {f : Unit → Parser β} (h : ExtendsBut seam But bound (f ())) :
    Extends seam (bound + 1) (expect kind fault >>= f) := by
  intro tokens hlength b rest hb
  obtain ⟨middle, htake, hb⟩ := (gives_expect_bind hkind).1 hb
  have htail := htake.length
  obtain ⟨hrest, hb'⟩ := h (by omega) hb
  exact ⟨hrest.trans htake.suffix, hb'.imp (htake.append _).expect_bind (hbut htake)⟩

/-- The tokens behind do not start with the token that would go on. -/
theorem extends_accept_bind (hkind : kind ≠ .eof) (hmore : nextKind seam.more ≠ kind) {f : Bool → Parser β}
    (htrue : ExtendsBut seam But bound (f true)) (hfalse : Extends seam bound (f false)) :
    Extends seam bound (accept kind >>= f) := by
  intro tokens hlength b rest hb
  rcases (gives_accept_bind hkind).1 hb with ⟨tail, htake, hb⟩ | ⟨hnext, hb⟩
  · have htail := htake.length
    obtain ⟨hrest, hb'⟩ := htrue (by omega) hb
    exact ⟨hrest.trans htake.suffix, hb'.imp (htake.append _).accept_bind (hbut htake)⟩
  · obtain ⟨hrest, hb'⟩ := hfalse hlength hb
    exact ⟨hrest, hb'.imp_left (gives_accept_bind_of_ne (nextKind_append_ne hnext hmore))⟩

theorem extends_afterToken (hkind : kind ≠ .eof) (hmore : nextKind seam.more ≠ kind)
    (h : ExtendsBut seam But bound p) : Extends seam bound (afterToken kind p) :=
  extends_accept_bind hbut hkind hmore h.map extends_pure

end

theorem extends_endedBy : Extends seam (bound + 1) (do expect Symbol.semicolon (.noSemicolon ending); return a) :=
  extends_expect_bind Takes.stays (by simp) extends_pure

/-- The content of a block, up to its end. -/
theorem ExtendsBut.closing (hp : ExtendsShort seam bound p) (hwords : ∀ ⦃tokens a rest⦄, tokens.length < bound →
      Gives p seam.stop tokens a rest → BlockEnd rest ∧ ∃ words, Closes words tokens rest ∧ Moves 0 0 0 0 words)
    (f : α → β) : ExtendsInside seam bound (do
      let a ← p
      let _ ← accept .dedent
      return f a) := by
  intro tokens hlength b rest hb
  obtain ⟨a, middle, ha, hb⟩ := gives_bind.1 hb
  obtain ⟨hmiddle, ha'⟩ := hp hlength ha
  rcases (gives_accept_bind (by simp)).1 hb with ⟨tail, htake, hb⟩ | ⟨hnext, hb⟩
  · obtain ⟨rfl, rfl⟩ := gives_pure.1 hb
    have hne : middle ≠ [] := by
      rintro rfl
      exact not_takes_nil htake
    exact ⟨htake.suffix.trans hmiddle, .inl ((ha'.resolve_right hne).bind ((htake.append _).accept_bind .pure))⟩
  · obtain ⟨hend, words, hclosed, hmoves⟩ := hwords hlength ha
    obtain ⟨rfl, rfl⟩ := gives_pure.1 hb
    obtain rfl := hend.resolve_left hnext
    exact ⟨hmiddle, .inr (unclosed_of_closes hclosed hmoves)⟩

theorem extends_blockOf [Lined α] {P : List Token → α → Prop} {item : Parser α} {words : α → Language Token}
    {rounds : Nat} (hmoves : ∀ a, Moves 0 0 0 0 (words a))
    (hsteady : ∀ tokens rest : List Token, rest.length ≤ tokens.length → tokens.length < rounds →
      Steady (.quietly seam.stop tokens) ((Frame.quietly seam.stop tokens).Spelled words (P tokens) rest) item item rest) :
    ExtendsInside seam rounds (blockOf item rounds) := by
  have hconducts := fun (tokens : List Token) (hlength : tokens.length < rounds) => conducts_many (.inr rfl)
    (fun rest hrest => conducts_blockItem (hsteady tokens rest hrest hlength) (.inr rfl)) (.inr rfl)
      (.inl ⟨hlength, hlength⟩)
  refine (extendsShort_of_conducts hconducts).closing (fun tokens items rest hlength hitems => ?_) _
  obtain ⟨⟨-, hwords⟩, hend⟩ := (hconducts tokens hlength).value_of_gives hitems
  refine ⟨hend, _, hwords trivial, moves_prod fun part hpart => ?_⟩
  obtain ⟨found, -, rfl⟩ := List.mem_map.1 hpart
  cases found with
  | none => exact moves_one
  | some a => exact hmoves a

end

/-! ## Statements in front of more tokens -/

/-- The tokens that a statement which could end in front of them takes in. -/
def joins : Token.Kind → Bool
  | .indent => true
  | kind => goesOn kind

theorem nextKind_ne_of_joins (h : joins (nextKind tokens) = false) (hkind : joins kind = true) :
    nextKind tokens ≠ kind := by
  rintro rfl
  rw [h] at hkind
  cases hkind

section
variable {seam : Seam} {n : Nat}

theorem extendsShort_expression : ExtendsShort seam (n + 1) (expression (Inner.ofDepth n)) :=
  extendsShort_of_conducts fun tokens hlength =>
    conducts_expression (orderly_quietly n seam.stop tokens).toSteady (Nat.le_of_lt_succ hlength)

theorem not_gives_body_bind_nil {f : List Stmt → Parser β} {b : β} :
    ¬ Gives (body inner heading >>= f) stop [] b rest := by
  rw [gives_bind]
  rintro ⟨content, middle, hcontent, -⟩
  exact not_gives_expect_nil (by simp) hcontent

/-- An expression and the semicolon behind it. -/
theorem extends_ended {f : Expr → Stmt} : Extends seam (n + 1) (do
      let value ← expression (Inner.ofDepth n)
      expect Symbol.semicolon (.noSemicolon ending)
      return f value) :=
  extendsShort_expression.before (fun _ _ _ => not_gives_expect_nil (by simp)) fun _ => extends_endedBy

theorem extends_optionalValue : Extends seam (n + 1) (optionalValue (Inner.ofDepth n) ending) := by
  have hvalue : ExtendsShort seam (n + 1) (some <$> expression (Inner.ofDepth n)) := extendsShort_expression.map
  have hended : Extends seam (n + 1) (do
      let value ← some <$> expression (Inner.ofDepth n)
      expect Symbol.semicolon (.noSemicolon ending)
      return value) :=
    hvalue.before (fun _ _ _ => not_gives_expect_nil (by simp)) fun _ => extends_endedBy
  rintro (_ | ⟨token, tail⟩) hlength
  · intro value rest h
    rw [optionalValue, gives_check_bind] at h
    dsimp only at h
    rw [if_neg (by simp)] at h
    exact absurd h (hvalue.not_gives_nil fun _ _ _ => not_gives_expect_nil (by simp))
  · apply ExtendsAt.check
    split
    · exact extends_endedBy hlength
    · dsimp only
      exact hended hlength

theorem extends_raw : Extends seam (n + 1) raw := by
  rintro (_ | ⟨token, tail⟩) hlength
  · intro s rest h
    have hkind : seam.stop.1.kind = .eof := seam.stop.2
    simp [raw, gives_peek_bind, hkind, Token.Kind.isString] at h
  · apply ExtendsAt.peek
    split
    · exact .advance Takes.stays rfl (extends_endedBy (Nat.lt_of_succ_lt hlength))
    · exact extends_fail hlength

theorem extends_variableDeclaration {binding : Binding} :
    Extends seam (n + 1) (variableDeclaration (Inner.ofDepth n) binding) := by
  apply extends_ident.bind
  intro name
  have hinit : ExtendsShort seam (n + 1) (afterToken Symbol.equal (expression (Inner.ofDepth n))) :=
    extendsShort_of_conducts fun tokens _ => conducts_afterToken (.level 0) (by simp) rfl fun _ _ =>
      conducts_expression (orderly_quietly n seam.stop tokens).toSteady (by omega)
  refine hinit.before (fun init b last => ?_) fun init => ?_
  · split
    · exact not_gives_fail
    · exact not_gives_expect_nil (by simp)
  · split
    · exact extends_fail
    · exact extends_endedBy

theorem extends_block : ExtendsInside seam n (block (Inner.ofDepth n)) := by
  rw [block, rounds_ofDepth]
  exact extends_blockOf (fun s => moves_stmt s 0) fun tokens rest _ _ =>
    (orderly_quietly n seam.stop tokens).declaration (by omega)

/-- Everything in a `switch` stands in front of its block or inside of it. -/
theorem extends_switch : Extends seam (n + 1) (switch (Inner.ofDepth n)) := by
  refine extendsShort_expression.before (fun _ _ _ => not_gives_expect_nil (by simp)) fun value => ?_
  have hcases : ExtendsShort seam n (casesOf (clause (Inner.ofDepth n) .caseValue) (body (Inner.ofDepth n) .defaultWord)
      (Inner.ofDepth n).rounds false) :=
    extendsShort_of_conducts fun tokens _ => conducts_cases (orderly_quietly n seam.stop tokens) (by omega) false
  refine (extends_expect_bind Takes.stays (by simp) (extends_expect_bind Takes.leavesOpen (by simp)
    (hcases.closing (fun tokens found rest hlength hfound => ?_) _))).fewer
  obtain ⟨⟨-, -, hwords⟩, hend⟩ :=
    (conducts_cases (orderly_quietly n seam.stop tokens) hlength false).value_of_gives hfound
  rw [← clauseSpellings_eq_map, ← defaultSpelling_eq_map] at hwords
  exact ⟨hend, _, hwords trivial,
    moves_caseWords (moves_clauseSpellings found.1 .kwCase 0) (moves_defaultSpelling found.2 0)⟩

variable (hdecl : Extends seam n (Inner.ofDepth n).declaration) (hmore : joins (nextKind seam.more) = false)

include hmore in
theorem extends_blockAfter {p : Parser α} (hp : ExtendsInside seam n p) : Extends seam n (afterToken .indent p) :=
  extends_afterToken Takes.leavesOpen (by simp) (nextKind_ne_of_joins hmore rfl) hp

include hmore in
/-- What stands behind a word that may be left out. -/
theorem extends_afterWord {p : Parser α} {word : Keyword} (hword : joins word = true) (hp : Extends seam n p) :
    Extends seam n (afterToken word p) :=
  extends_afterToken Takes.stays (by simp) (nextKind_ne_of_joins hmore hword) hp

include hmore in
theorem extends_classDeclaration : Extends seam (n + 1) (classDeclaration (Inner.ofDepth n)) := by
  apply extends_ident.bind
  intro name
  have hparent : ExtendsShort seam (n + 1) (superclass (Inner.ofDepth n)) :=
    extendsShort_of_conducts fun tokens _ => conducts_superclass (orderly_quietly n seam.stop tokens) (by omega)
  refine hparent.before (fun _ _ _ => not_gives_expect_nil (by simp)) fun parent => ?_
  have hmethods : ExtendsInside seam n (blockOf (method (Inner.ofDepth n)) (Inner.ofDepth n).rounds) := by
    rw [rounds_ofDepth]
    exact extends_blockOf (fun decl => moves_functionSpelling decl 0)
      fun tokens _ _ _ => conducts_method (orderly_quietly n seam.stop tokens) (by omega)
  exact extends_expect_bind Takes.stays (by simp) ((extends_blockAfter hmore hmethods).bind fun _ => extends_pure)

include hdecl hmore

theorem extends_body : Extends seam (n + 1) (body (Inner.ofDepth n) heading) := by
  refine extends_expect_bind Takes.stays (by simp) ?_
  refine extends_accept_bind Takes.leavesOpen (by simp) (nextKind_ne_of_joins hmore rfl) extends_block ?_
  exact hdecl.bind fun _ => (extends_blockAfter hmore extends_block).bind fun _ => extends_pure

theorem extends_headed {f : Expr → List Stmt → Parser β}
    (hnext : ∀ value content, Extends seam (n + 1) (f value content)) : Extends seam (n + 1) (do
      let value ← expression (Inner.ofDepth n)
      let content ← body (Inner.ofDepth n) heading
      f value content) :=
  extendsShort_expression.before (fun _ _ _ => not_gives_body_bind_nil) fun value =>
    (extends_body hdecl hmore).bind (hnext value)

theorem extends_clause : Extends seam (n + 1) (clause (Inner.ofDepth n) heading) :=
  extends_headed hdecl hmore fun _ _ => extends_pure

theorem extends_branch : Extends seam (n + 1) (branch (Inner.ofDepth n)) := by
  refine extends_headed hdecl hmore fun condition content => ?_
  apply (extends_many (extends_afterWord hmore rfl (extends_clause hdecl hmore)) _).bind
  intro elifs
  apply (extends_afterWord hmore rfl (extends_body hdecl hmore)).bind
  intro otherwise
  exact extends_pure

theorem extends_forLoop : Extends seam (n + 1) (forLoop (Inner.ofDepth n)) := by
  apply extends_ident.bind
  intro name
  apply ExtendsBut.fewer
  apply extends_expect_bind Takes.stays (by simp)
  exact extends_headed hdecl hmore fun _ _ => extends_pure

theorem extends_doLoop : Extends seam (n + 1) (doLoop (Inner.ofDepth n)) := by
  apply (extends_body hdecl hmore).bind
  intro content
  apply ExtendsBut.fewer
  exact extends_expect_bind Takes.stays (by simp) extends_ended

theorem extends_handler : Extends seam (n + 1) (handler (Inner.ofDepth n)) := by
  have hcontent (param : Option Ident) : Extends seam (n + 1) (do
      let content ← body (Inner.ofDepth n) .catchClause
      return (⟨param, content⟩ : Handler Stmt)) :=
    (extends_body hdecl hmore).bind fun _ => extends_pure
  rintro (_ | ⟨token, tail⟩) hlength
  · intro caught rest h
    simp only [handler, gives_peek_bind, kind_headD, nextKind_nil] at h
    exact absurd h not_gives_body_bind_nil
  · apply ExtendsAt.peek
    split
    · exact .advance Takes.stays rfl (hcontent _ (Nat.lt_of_succ_lt hlength))
    · exact hcontent none hlength

theorem extends_tryBlock : Extends seam (n + 1) (tryBlock (Inner.ofDepth n)) := by
  apply (extends_body hdecl hmore).bind
  intro content
  apply (extends_afterWord hmore rfl (extends_handler hdecl hmore)).bind
  intro caught
  apply (extends_afterWord hmore rfl (extends_body hdecl hmore)).bind
  intro otherwise
  apply (extends_afterWord hmore rfl (extends_body hdecl hmore)).bind
  intro finalizer
  exact extends_pure

theorem extends_functionDeclaration {isAsync : Bool} :
    Extends seam (n + 1) (functionDeclaration (Inner.ofDepth n) isAsync) := by
  have hstar : ExtendsShort seam (n + 1) (accept Symbol.star) :=
    extendsShort_of_conducts fun _ _ => conducts_accept (by simp) rfl (.inr rfl)
  refine hstar.before (fun isGenerator decl last h => ?_) fun isGenerator => ?_
  · obtain ⟨name, middle, hname, -⟩ := gives_bind.1 h
    obtain ⟨token, hnil, -⟩ := gives_ident.1 hname
    cases hnil
  apply extends_ident.bind
  intro name
  have hparams : ExtendsShort seam (n + 1) (parameterClause (Inner.ofDepth n)) :=
    extendsShort_of_conducts fun tokens _ => conducts_parameterClause (orderly_quietly n seam.stop tokens) (by omega)
  refine hparams.before (fun _ _ _ => not_gives_body_bind_nil) fun params => ?_
  exact (extends_body hdecl hmore).bind fun _ => extends_pure

theorem extends_worded? {word : Keyword} {p : Parser Stmt} (hp : worded? (Inner.ofDepth n) word = some p) :
    Extends seam (n + 1) p := by
  unfold worded? at hp
  split at hp
  case h_18 => cases hp
  all_goals obtain rfl := Option.some.inj hp
  · exact extends_branch hdecl hmore
  · exact extends_forLoop hdecl hmore
  · exact extends_headed hdecl hmore fun _ _ => extends_pure
  · exact extends_doLoop hdecl hmore
  · exact extends_switch
  · exact extends_tryBlock hdecl hmore
  · exact extends_optionalValue.map
  · exact extends_optionalValue.map
  · exact extends_ended
  · exact extends_endedBy
  · exact extends_endedBy
  · exact extends_raw
  · exact extends_classDeclaration hmore
  · exact (extends_functionDeclaration hdecl hmore).map
  · exact extends_variableDeclaration
  · exact extends_variableDeclaration
  · exact extends_variableDeclaration

theorem extends_declaration : Extends seam (n + 1) (declaration (Inner.ofDepth n)) := by
  have hexpression : Extends seam (n + 1) (expressionStatement (Inner.ofDepth n)) := extends_ended
  rintro (_ | ⟨token, tail⟩) hlength
  · intro s rest h
    simp only [declaration, gives_peek_bind, kind_headD, nextKind_nil] at h
    exact absurd h (extendsShort_expression.not_gives_nil fun _ _ _ => not_gives_expect_nil (by simp))
  · have hbehind : tail.length < n + 1 := Nat.lt_of_succ_lt hlength
    apply ExtendsAt.peek
    split
    · rename_i hasync
      cases tail with
      | nil =>
        intro s rest h
        obtain ⟨e, middle, he, h⟩ := gives_bind.1 (gives_checkSecond_bind.1 h)
        obtain ⟨last, ⟨semicolon, rfl, hkind⟩, -⟩ := (gives_expect_bind (by simp)).1 h
        -- A single `async` is no semicolon.
        have hsame : semicolon :: last = [token] := (extendsShort_expression hlength he).1.eq_of_length_le (by simp)
        obtain ⟨rfl, -⟩ := List.cons.inj hsame
        cases hkind.symm.trans hasync
      | cons second tail =>
        apply ExtendsAt.checkSecond
        split
        · exact .advance Takes.stays rfl (.advance Takes.stays rfl
            ((extends_functionDeclaration hdecl hmore).map (Nat.lt_of_succ_lt hbehind)))
        · exact hexpression hlength
    · split
      · rename_i hp
        exact .advance Takes.stays rfl (extends_worded? hdecl hmore hp hbehind)
      · exact hexpression hlength
    · rename_i hkind
      exact .advance Takes.leavesOpen hkind (extends_block.map (Nat.lt_of_succ_lt_succ hlength))
    · exact hexpression hlength

end

/-- Every statement goes on, whatever follows it. -/
theorem extends_ofDepth (seam : Seam) (hmore : joins (nextKind seam.more) = false) (n : Nat) :
    Extends seam n (Inner.ofDepth n).declaration := by
  induction n with
  | zero => exact fun _ hlength => absurd hlength (Nat.not_lt_zero _)
  | succ n ih => exact extends_declaration ih hmore

/-! ## Programs behind programs -/

namespace Parse

variable {stop : Eof} {notes : List Diagnostic}

theorem topItem_apply {p : Parser α} {stop : Token} (hne : tokens ≠ []) {found : Option α}
    (h : recovering p stop tokens = ⟨.ok found, rest, notes⟩) :
    topItem p stop tokens = ⟨.ok (some found), rest, notes⟩ := by
  have hend : atEnd stop tokens = ⟨.ok false, tokens, []⟩ := by
    cases tokens with
    | nil => exact absurd rfl hne
    | cons token tokens => rfl
  rw [topItem, bind_apply_ok hend, if_neg Bool.false_ne_true, bind_apply_ok h]
  simp [Pure.pure]

theorem exists_outcome_topItem (p : Parser α) (stop : Eof) (tokens : List Token) :
    ∃ found, (topItem p stop.1 tokens).outcome = .ok found := by
  cases tokens with
  | nil => exact ⟨none, rfl⟩
  | cons token tokens =>
    obtain ⟨found, hfound⟩ := exists_outcome_recovering p stop.1 (token :: tokens)
    cases hreply : recovering p stop.1 (token :: tokens) with
    | mk outcome rest notes =>
      rw [hreply] at hfound
      subst hfound
      exact ⟨some found, by rw [topItem_apply (by simp) hreply]⟩

/-- What a statement at the top takes, also when it fails. -/
theorem length_lt_of_recovering {inner : Inner} (hinner : inner.Tied (tokens.length + 1))
    (hne : tokens ≠ []) {found : Option Stmt}
    (h : recovering inner.declaration stop.1 tokens = ⟨.ok found, rest, notes⟩) : rest.length < tokens.length := by
  have hdecl := (hinner.orderly_alone hinner stop tokens).declaration (Nat.lt_succ_self _)
  have htaken := (conducts_recovering hdecl.enclose hne (.inl rfl)).length_add_le (congrArg Reply.outcome h)
  rwa [h] at htaken

/-- A program is its first statement, if that does not fail, and what follows it. -/
theorem ofBody_step {inner : Inner} (hinner : inner.Tied (tokens.length + 1)) (hne : tokens ≠ []) {found : Option Stmt}
    (h : recovering inner.declaration stop.1 tokens = ⟨.ok found, rest, notes⟩) : ofBody stop.1 tokens =
      ⟨found.toList ++ (ofBody stop.1 rest).program, notes ++ (ofBody stop.1 rest).diagnostics⟩ := by
  have hshorter := length_lt_of_recovering hinner hne h
  rw [← within_eq_ofBody hinner (Nat.lt_succ_self _), ← within_eq_ofBody (hinner.le (by omega)) hshorter]
  obtain ⟨others, hothers⟩ := exists_outcome_many (exists_outcome_topItem inner.declaration stop) tokens.length rest
  simp only [within, many_apply_some (topItem_apply hne h), hothers, Except.map]
  cases found <;> simp

/-- Statements without a fault that leave no block open stand in front of any others. -/
theorem ofBody_append {stop' : Eof} {more : List Token} (hmore : joins (nextKind more) = false)
    (hopen : ¬ LeavesOpen tokens) (hquiet : (ofBody stop.1 tokens).diagnostics = []) : ofBody stop'.1 (tokens ++ more) =
      ⟨(ofBody stop.1 tokens).program ++ (ofBody stop'.1 more).program, (ofBody stop'.1 more).diagnostics⟩ := by
  induction hsize : tokens.length using Nat.strong_induction_on generalizing tokens with
  | _ size ih =>
    by_cases hne : tokens = []
    · subst hne
      rfl
    · have htied := Inner.tied_ofDepth ((tokens ++ more).length + 1)
      have hle : tokens.length + 1 ≤ (tokens ++ more).length + 1 := by simp
      obtain ⟨found, hfound⟩ := exists_outcome_recovering
        (Inner.ofDepth ((tokens ++ more).length + 1)).declaration stop.1 tokens
      cases hreply : recovering (Inner.ofDepth ((tokens ++ more).length + 1)).declaration stop.1 tokens with
      | mk outcome rest notes =>
        rw [hreply] at hfound
        subst hfound
        have hstep := ofBody_step (htied.le hle) hne hreply
        rw [hstep, List.append_eq_nil_iff] at hquiet
        obtain ⟨rfl, hquiet⟩ := hquiet
        obtain ⟨s, rfl, hs⟩ := gives_recovering.1 hreply
        obtain ⟨hrest, hs'⟩ := extends_ofDepth ⟨stop, more, stop'⟩ hmore _ (by omega) hs
        have hreply' := gives_recovering.2 ⟨s, rfl, hs'.resolve_right hopen⟩
        rw [ofBody_step htied (by simp [hne]) hreply', hstep,
          ih rest.length (hsize ▸ length_lt_of_recovering (htied.le hle) hne hreply)
            (fun hleft => hopen (hleft.of_suffix hrest)) hquiet rfl]
        simp

theorem ofTokens_eq (tokens : List Token) :
    ofTokens tokens = ofBody (firstEof tokens).1 (tokens.takeWhile fun token => decide (token.kind ≠ .eof)) := rfl

theorem firstEof_append {front back : List Token} (hfront : ∀ token ∈ front, token.kind ≠ .eof) (hback : back ≠ []) :
    firstEof (front ++ back) = firstEof back := by
  apply Subtype.ext
  have hall : ∀ token ∈ front, decide (token.kind ≠ .eof) = true := by simpa using hfront
  simp only [firstEof, missingEof, List.dropWhile_append_of_pos hall, List.getLast?_append_of_ne_nil front hback]

/-- A program without a fault whose layout matches, with no layout between its brackets, may be put in front of any
tokens that do not go on with its last statement: its statements come first, and all faults are those of the
others. -/
theorem ofTokens_append_of_balanced {front back : List Token} (hfront : ∀ token ∈ front, token.kind ≠ .eof)
    (hquiet : (ofTokens front).diagnostics = []) (hbalanced : Token.Balanced 0 front)
    (hflat : flatBrackets front = true) (hback : joins (nextKind back) = false) :
    ofTokens (front ++ back) =
      ⟨(ofTokens front).program ++ (ofTokens back).program, (ofTokens back).diagnostics⟩ := by
  have hall : ∀ token ∈ front, decide (token.kind ≠ .eof) = true := by simpa using hfront
  have hself : front.takeWhile (fun token => decide (token.kind ≠ .eof)) = front := List.takeWhile_eq_self_iff.2 hall
  have hopen := not_leavesOpen hbalanced hflat
  have hmore : joins (nextKind (back.takeWhile fun token => decide (token.kind ≠ .eof))) = false := by
    cases back with
    | nil => rfl
    | cons token back =>
      rw [List.takeWhile_cons]
      split
      · exact hback
      · rfl
  rw [ofTokens_eq front, hself] at hquiet ⊢
  rw [ofTokens_eq (front ++ back), ofTokens_eq back, List.takeWhile_append_of_pos hall, ofBody_append hmore hopen hquiet]
  by_cases hne : back = []
  · subst hne
    rfl
  · rw [firstEof_append hfront hne]

/-- The call of the first program may have brackets, and the second one starts with a fault. -/
theorem ofTokens_append_of_balanced_branch :
    let front : List Token := [⟨.keyword .kwIf, "if", 0, 2, 1⟩, ⟨.identifier "x", "x", 3, 4, 1⟩,
      ⟨.symbol .colon, ":", 4, 5, 1⟩, ⟨.indent, "", 6, 6, 2⟩, ⟨.identifier "f", "f", 7, 8, 2⟩,
      ⟨.symbol .leftParen, "(", 8, 9, 2⟩, ⟨.symbol .rightParen, ")", 9, 10, 2⟩, ⟨.symbol .semicolon, ";", 10, 11, 2⟩,
      ⟨.dedent, "", 12, 12, 3⟩]
    let back : List Token := [⟨.dedent, "", 12, 12, 3⟩, ⟨.keyword .kwBreak, "break", 12, 17, 3⟩,
      ⟨.symbol .semicolon, ";", 17, 18, 3⟩, ⟨.eof, "", 18, 18, 3⟩]
    (ofTokens front).diagnostics = [] ∧ (ofTokens back).diagnostics.length = 1 ∧
      ofTokens (front ++ back) =
        ⟨(ofTokens front).program ++ (ofTokens back).program, (ofTokens back).diagnostics⟩ := by
  intro front back
  have hquiet : (ofTokens front).diagnostics = [] := by decide +kernel
  have hbalanced : Token.Balanced 0 front := by
    refine .other (.other (.other (.indent ?_ rfl) ?_ ?_) ?_ ?_) ?_ ?_
    · refine .other (.other (.other (.other (.dedent .nil rfl) ?_ ?_) ?_ ?_) ?_ ?_) ?_ ?_ <;> decide
    all_goals decide
  exact ⟨hquiet, by decide +kernel, ofTokens_append_of_balanced (by decide) hquiet hbalanced (by decide) (by decide)⟩

end Parse

end Offside.Grammar
