import Offside.Proofs.Token.Lines

/-!
# Balanced layout

Every `indent` stands for a level that is opened and every `dedent` for one that is closed.  The levels open behind a
stretch of tokens are therefore the `indent`s of the stretch less its `dedent`s, and at the end of a source none is
open.  The source may be malformed in any way: the levels change at the start of a measured line only.
-/

namespace Offside.Token

/-- How many tokens are of a kind. -/
def tally (kind : Kind) (tokens : List Token) : Nat := tokens.countP fun token => token.kind = kind

section
variable {kind : Kind} {token : Token} {tokens : List Token}

theorem tally_cons_self (h : token.kind = kind) : tally kind (token :: tokens) = tally kind tokens + 1 :=
  List.countP_cons_of_pos (by simpa using h)

theorem tally_cons_of_ne (h : token.kind ≠ kind) : tally kind (token :: tokens) = tally kind tokens :=
  List.countP_cons_of_neg (by simpa using h)

/-- With the token in front, `before` open levels become `opened`. -/
def Leads (token : Token) (before opened : Nat) : Prop :=
  ∀ front, tally .dedent (token :: front) + (opened + tally .indent front) =
    before + tally .indent (token :: front) + tally .dedent front

theorem leads_other {opened : Nat} (hindent : token.kind ≠ .indent) (hdedent : token.kind ≠ .dedent) :
    Leads token opened opened := by
  intro front
  rw [tally_cons_of_ne hdedent, tally_cons_of_ne hindent]
  omega

theorem leads_indent {opened : Nat} (h : token.kind = .indent) : Leads token opened (opened + 1) := by
  intro front
  have hdedent : token.kind ≠ .dedent := by simp [h]
  rw [tally_cons_of_ne hdedent, tally_cons_self h]
  omega

theorem leads_dedent {opened : Nat} (h : token.kind = .dedent) : Leads token (opened + 1) opened := by
  intro front
  have hindent : token.kind ≠ .indent := by simp [h]
  rw [tally_cons_self h, tally_cons_of_ne hindent]
  omega

end

/-- With `opened` levels open in front, no `dedent` comes too early and no level stays open. -/
structure Balanced (opened : Nat) (tokens : List Token) : Prop where
  open_of_prefix : ∀ front, front <+: tokens → tally .dedent front ≤ opened + tally .indent front
  closed : tally .dedent tokens = opened + tally .indent tokens

namespace Balanced

variable {opened : Nat} {token : Token} {tokens : List Token}

theorem nil : Balanced 0 [] where
  open_of_prefix front hfront := by
    rw [List.prefix_nil.1 hfront]
    exact Nat.zero_le _
  closed := rfl

/-- What holds of the empty front and, behind one more token, of every longer one. -/
theorem forall_prefix_cons {P : List Token → Prop} (hnil : P [])
    (hcons : ∀ front, front <+: tokens → P (token :: front)) : ∀ front, front <+: token :: tokens → P front := by
  intro front hfront
  cases List.prefix_cons_iff.1 hfront with
  | inl hempty =>
    rw [hempty]
    exact hnil
  | inr hsome =>
    obtain ⟨rest, hrest, hprefix⟩ := hsome
    rw [hrest]
    exact hcons rest hprefix

/-- One more token in front changes the levels by what it opens and closes itself. -/
theorem cons_iff {before : Nat} (hleads : Leads token before opened) :
    Balanced before (token :: tokens) ↔ Balanced opened tokens := by
  constructor
  · intro h
    refine ⟨fun front hfront => ?_, ?_⟩
    · have hopen := h.open_of_prefix (token :: front) ((List.prefix_cons_inj token).2 hfront)
      have hfirst := hleads front
      omega
    · have hclosed := h.closed
      have hfirst := hleads tokens
      omega
  · intro h
    refine ⟨forall_prefix_cons (Nat.zero_le _) fun front hfront => ?_, ?_⟩
    · have hopen := h.open_of_prefix front hfront
      have hfirst := hleads front
      omega
    · have hclosed := h.closed
      have hfirst := hleads tokens
      omega

/-- A token that is no layout token opens and closes nothing. -/
theorem other (h : Balanced opened tokens) (hindent : token.kind ≠ .indent) (hdedent : token.kind ≠ .dedent) :
    Balanced opened (token :: tokens) :=
  (cons_iff (leads_other hindent hdedent)).2 h

theorem indent (h : Balanced (opened + 1) tokens) (hindent : token.kind = .indent) :
    Balanced opened (token :: tokens) :=
  (cons_iff (leads_indent hindent)).2 h

theorem dedent (h : Balanced opened tokens) (hdedent : token.kind = .dedent) :
    Balanced (opened + 1) (token :: tokens) :=
  (cons_iff (leads_dedent hdedent)).2 h

/-- A `dedent` for each level of a list closes these levels. -/
theorem dedents (h : Balanced opened tokens) (place : Cursor) (levels : Levels) :
    Balanced (levels.length + opened) (levels.map (fun _ => empty place .dedent) ++ tokens) := by
  induction levels with
  | nil => simpa using h
  | cons level levels ih =>
    rw [List.length_cons, Nat.add_right_comm, List.map_cons, List.cons_append]
    exact ih.dedent rfl

end Balanced

namespace Scan

/-- The start of a line opens or closes levels as its tokens say. -/
theorem balanced_change {levels : Levels} {width : Nat} {tokens : List Token} (place : Cursor)
    (h : Balanced (levels.settle width).length tokens) :
    Balanced levels.length ((levels.change width).map (empty place) ++ tokens) := by
  unfold Levels.settle at h
  unfold Levels.change
  by_cases hopen : levels.top < width
  · rw [if_pos hopen] at h
    rw [if_pos hopen]
    exact h.indent rfl
  · rw [if_neg hopen] at h
    rw [if_neg hopen, List.map_map]
    have hlength : levels.length = (levels.takeWhile (width < ·)).length + (levels.dropWhile (width < ·)).length := by
      rw [← List.length_append, List.takeWhile_append_dropWhile]
    rw [hlength]
    exact h.dedents place _

theorem balanced_ofPieces {pieces : List Piece} (hplain : Plain pieces) (place : Cursor) (levels : Levels) :
    Balanced levels.length (ofPieces place levels pieces).tokens := by
  induction pieces generalizing place levels with
  | nil =>
    have heof : Balanced 0 [empty place .eof] := Balanced.nil.other (by simp [empty]) (by simp [empty])
    exact heof.dedents place levels
  | cons piece pieces ih =>
    rcases piece_cases piece with ⟨text, kind, rfl⟩ | ⟨text, tabbed, width, rfl⟩ |
      ⟨text, content, rfl, htoken, hline⟩
    · have hindent : kind ≠ .indent := by
        rintro rfl
        cases hplain.head
      have hdedent : kind ≠ .dedent := by
        rintro rfl
        cases hplain.head
      exact (ih hplain.cons (place.after text) levels).other hindent hdedent
    · exact balanced_change (place.after text) (ih hplain.cons _ (levels.settle width))
    · rw [tokens_other htoken hline]
      exact ih hplain.cons (place.after text) levels

/-- The layout of every source is balanced, and its last token is its only `eof`. -/
theorem balanced_tokens_ofSource (source : String) :
    (∀ front, front <+: (ofSource source).tokens → tally .dedent front ≤ tally .indent front) ∧
      tally .dedent (ofSource source).tokens = tally .indent (ofSource source).tokens ∧
      ∃ before eof, (ofSource source).tokens = before ++ [eof] ∧ eof.kind = .eof ∧
        ∀ token ∈ before, token.kind ≠ .eof := by
  have hplain : Plain (pieces source.toList) := plain_pieces source.toList
  have hbalanced : Balanced 0 (ofSource source).tokens := balanced_ofPieces hplain .start []
  refine ⟨fun front hfront => ?_, ?_, ?_⟩
  · simpa using hbalanced.open_of_prefix front hfront
  · simpa using hbalanced.closed
  · exact ⟨_, _, tokens_eq_beforeEof_append hplain, rfl, fun token => kind_ne_eof_of_mem_beforeEof⟩

end Scan

end Offside.Token
