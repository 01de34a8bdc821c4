import Mathlib.Data.List.Induction
import Mathlib.Order.Bounds.Basic
import Offside.Proofs.Grammar.Progress
import Offside.Proofs.Token.Balance

/-!
# Where parsing goes on after a fault

After a fault tokens are skipped up to a place where a statement may start.  The main result says which place that is:
the first one, from the fault on, that stands behind a semicolon or a whole block, or in front of a word that starts a
statement or the `dedent` of the block at hand, while every block that was entered on the way is left again.  So the
block at hand is never left, however malformed the tokens are.
-/

namespace Offside.Grammar

open Offside.Token

variable {depth : Nat} {token : Token} {skipped rest : List Token}

/-! ## Places where a statement may start -/

/-- The last token is a semicolon, or the `dedent` of a block whose `indent` is among the tokens. -/
def EndsStatement (tokens : List Token) : Prop :=
  (∃ front last, tokens = front ++ [last] ∧ last.kind = .symbol .semicolon) ∨
    ∃ front indent inside dedent, tokens = front ++ indent :: (inside ++ [dedent]) ∧ indent.kind = .indent ∧
      dedent.kind = .dedent ∧ Balanced 0 inside

/-- A statement may start behind the tokens `skipped` and in front of `rest`, or nothing is left to be skipped. -/
def MayResume (skipped rest : List Token) : Prop :=
  nextKind rest = .eof ∨ Balanced 0 skipped ∧
    (EndsStatement skipped ∨ startsStatement (nextKind rest) = true ∨ nextKind rest = .dedent)

/-- A token behind which parsing may go on. -/
def EndsItem (token : Token) : Prop := token.kind = .symbol .semicolon ∨ token.kind = .dedent

/-- The same with `depth` blocks open in front, one of which a `dedent` may close. -/
def MayResumeIn (depth : Nat) (skipped rest : List Token) : Prop :=
  nextKind rest = .eof ∨ Balanced depth skipped ∧
    ((∃ last ∈ skipped.getLast?, EndsItem last) ∨ startsStatement (nextKind rest) = true ∨ nextKind rest = .dedent)

/-- The block of a `dedent` is found from its end: the tokens in front of it are put before a stretch that closes
`opened` more blocks than it opens, until an `indent` meets none of these. -/
theorem exists_indent_of_dedent {front inside : List Token} {dedent : Token} {opened : Nat} (hinside : Balanced opened inside)
    (hdedent : dedent.kind = .dedent) (h : Balanced 0 (front ++ (inside ++ [dedent]))) :
    ∃ before indent content, front ++ inside = before ++ indent :: content ∧ indent.kind = .indent ∧
      Balanced 0 content := by
  induction front using List.reverseRecOn generalizing inside opened with
  | nil =>
    have hclosed := h.closed
    have htally := hinside.closed
    simp only [tally, List.nil_append, List.countP_append, List.countP_singleton, hdedent] at hclosed htally
    simp at hclosed
    omega
  | append_singleton front token ih =>
    rw [List.append_assoc, List.singleton_append, ← List.cons_append] at h
    rw [List.append_assoc, List.singleton_append]
    by_cases hindent : token.kind = .indent
    · cases opened with
      | zero => exact ⟨front, token, inside, rfl, hindent, hinside⟩
      | succ opened => exact ih (hinside.indent hindent) h
    · by_cases hkind : token.kind = .dedent
      · exact ih (hinside.dedent hkind) h
      · exact ih (hinside.other hindent hkind) h

theorem mayResume_iff : MayResume skipped rest ↔ MayResumeIn 0 skipped rest := by
  refine or_congr Iff.rfl (and_congr_right fun hbalanced => or_congr ⟨?_, ?_⟩ Iff.rfl)
  · rintro (⟨front, last, rfl, hkind⟩ | ⟨front, indent, inside, dedent, rfl, -, hkind, -⟩)
    · exact ⟨last, by simp, .inl hkind⟩
    · refine ⟨dedent, ?_, .inr hkind⟩
      rw [← List.cons_append, ← List.append_assoc, List.getLast?_concat]
      rfl
  · rintro ⟨last, hlast, hkind⟩
    obtain ⟨front, rfl⟩ := List.getLast?_eq_some_iff.1 hlast
    rcases hkind with hkind | hkind
    · exact .inl ⟨front, last, rfl, hkind⟩
    · have hblock : Balanced 0 (front ++ ([] ++ [last])) := hbalanced
      obtain ⟨before, indent, content, hfront, hindent, hcontent⟩ := exists_indent_of_dedent .nil hkind hblock
      rw [List.append_nil] at hfront
      refine .inr ⟨before, indent, content, last, ?_, hindent, hkind, hcontent⟩
      rw [hfront, List.append_assoc, List.cons_append]

/-! ## One token is skipped -/

/-- A token that is skipped puts off the places behind it, unless it ends the search itself. -/
theorem mayResumeIn_cons_iff {next : Nat} (hleads : Leads token depth next) (hends : EndsItem token → next ≠ 0) :
    MayResumeIn depth (token :: skipped) rest ↔ MayResumeIn next skipped rest := by
  unfold MayResumeIn
  rw [Balanced.cons_iff hleads]
  refine or_congr Iff.rfl (and_congr_right fun hbalanced => or_congr ?_ Iff.rfl)
  cases skipped with
  | nil =>
    have hnext : next = 0 := by simpa [tally] using hbalanced.closed.symm
    simpa using fun h => hends h hnext
  | cons second skipped => rw [List.getLast?_cons_cons]

/-- The search goes on at a token unless no block is open and the token starts a statement or ends the block at hand. -/
theorem not_mayResumeIn_nil {tokens : List Token} (heof : token.kind ≠ .eof)
    (h : depth = 0 → startsStatement token.kind = false ∧ token.kind ≠ .dedent) :
    ¬ MayResumeIn depth [] (token :: tokens) := by
  rintro (hend | ⟨hbalanced, hlast | hnext⟩)
  · exact heof hend
  · simp at hlast
  · obtain ⟨hword, hdedent⟩ := h hbalanced.closed.symm
    simp [hword, hdedent] at hnext

/-- The tokens `skipped` lead to the first place where a statement may start, and leave none of the blocks around. -/
structure Skips (depth : Nat) (tokens skipped : List Token) : Prop where
  open_of_prefix : ∀ front, front <+: skipped → tally .dedent front ≤ depth + tally .indent front
  isLeast : IsLeast {k | MayResumeIn depth (tokens.take k) (tokens.drop k)} skipped.length

namespace Skips

variable {tokens : List Token} {next : Nat}

theorem nil (h : MayResumeIn depth [] tokens) : Skips depth tokens [] where
  open_of_prefix front hfront := by
    rw [List.prefix_nil.1 hfront]
    exact Nat.zero_le _
  isLeast := ⟨h, fun _ _ => Nat.zero_le _⟩

theorem singleton (hstay : ¬ MayResumeIn depth [] (token :: tokens)) (hbalanced : Balanced depth [token])
    (hends : EndsItem token) : Skips depth (token :: tokens) [token] where
  open_of_prefix := hbalanced.open_of_prefix
  isLeast := by
    refine ⟨.inr ⟨hbalanced, .inl ⟨token, rfl, hends⟩⟩, fun k hk => ?_⟩
    cases k with
    | zero => exact absurd hk hstay
    | succ k => exact Nat.le_add_left 1 k

theorem cons (hstay : ¬ MayResumeIn depth [] (token :: tokens)) (hleads : Leads token depth next)
    (hends : EndsItem token → next ≠ 0) (h : Skips next tokens skipped) :
    Skips depth (token :: tokens) (token :: skipped) where
  open_of_prefix := Balanced.forall_prefix_cons (Nat.zero_le _) fun front hfront => by
    have hopen := h.open_of_prefix front hfront
    have hfirst := hleads front
    omega
  isLeast := by
    refine ⟨(mayResumeIn_cons_iff hleads hends).2 h.isLeast.1, fun k hk => ?_⟩
    cases k with
    | zero => exact absurd hk hstay
    | succ k => exact Nat.succ_le_succ (h.isLeast.2 ((mayResumeIn_cons_iff hleads hends).1 hk))

end Skips

/-! ## The whole search -/

/-- By induction along the search, with the blocks that are open at each token. -/
theorem exists_skips_synchronize {ahead behind : List Token} (hbehind : nextKind behind = .eof) (depth : Nat)
    (hahead : ∀ token ∈ ahead, token.kind ≠ .eof) :
    ∃ skipped, ahead = skipped ++ synchronize depth ahead ∧ Skips depth (ahead ++ behind) skipped := by
  fun_induction synchronize depth ahead with
  | case1 depth => exact ⟨[], rfl, .nil (.inl hbehind)⟩
  | case2 token rest hkind =>
    refine ⟨[token], rfl, .singleton ?_ ?_ (.inl hkind)⟩
    · exact not_mayResumeIn_nil (by simp [hkind]) fun _ => by simp [hkind, startsStatement]
    · exact Balanced.nil.other (by simp [hkind]) (by simp [hkind])
  | case3 depth token rest hkind hdepth ih =>
    obtain ⟨skipped, hrest, hskips⟩ := ih (List.forall_mem_cons.1 hahead).2
    refine ⟨token :: skipped, congrArg (token :: ·) hrest, .cons ?_ ?_ (fun _ => hdepth) hskips⟩
    · exact not_mayResumeIn_nil (by simp [hkind]) fun hzero => absurd hzero hdepth
    · exact leads_other (by simp [hkind]) (by simp [hkind])
  | case4 depth token rest hkind ih =>
    obtain ⟨skipped, hrest, hskips⟩ := ih (List.forall_mem_cons.1 hahead).2
    refine ⟨token :: skipped, congrArg (token :: ·) hrest, .cons ?_ (leads_indent hkind) (fun _ => ?_) hskips⟩
    · exact not_mayResumeIn_nil (by simp [hkind]) fun _ => by simp [hkind, startsStatement]
    · exact Nat.succ_ne_zero depth
  | case5 token rest hkind => exact ⟨[], rfl, .nil (.inr ⟨.nil, .inr (.inr hkind)⟩)⟩
  | case6 token rest hkind =>
    refine ⟨[token], rfl, .singleton ?_ (Balanced.nil.dedent hkind) (.inr hkind)⟩
    exact not_mayResumeIn_nil (by simp [hkind]) fun hzero => absurd hzero Nat.one_ne_zero
  | case7 token rest hkind depth hdepth ih =>
    obtain ⟨skipped, hrest, hskips⟩ := ih (List.forall_mem_cons.1 hahead).2
    refine ⟨token :: skipped, congrArg (token :: ·) hrest, .cons ?_ (leads_dedent hkind) (fun _ => hdepth) hskips⟩
    exact not_mayResumeIn_nil (by simp [hkind]) fun hzero => absurd hzero (Nat.succ_ne_zero depth)
  | case8 depth token rest _ _ _ hstart =>
    simp only [Bool.and_eq_true, decide_eq_true_eq] at hstart
    obtain ⟨rfl, hword⟩ := hstart
    exact ⟨[], rfl, .nil (.inr ⟨.nil, .inr (.inl hword)⟩)⟩
  | case9 depth token rest hsemicolon hindent hdedent hstart ih =>
    obtain ⟨heof, hrest⟩ := List.forall_mem_cons.1 hahead
    obtain ⟨skipped, hrest, hskips⟩ := ih hrest
    refine ⟨token :: skipped, congrArg (token :: ·) hrest, .cons ?_ (leads_other hindent hdedent) ?_ hskips⟩
    · exact not_mayResumeIn_nil heof fun hzero => ⟨by simpa [hzero] using hstart, hdedent⟩
    · rintro (hkind | hkind)
      · exact absurd hkind hsemicolon
      · exact absurd hkind hdedent

/-- The tokens in front of the next `eof`. -/
def beforeEof (tokens : List Token) : List Token := tokens.takeWhile fun token => token.kind ≠ .eof

theorem beforeEof_append {ahead behind : List Token} (hahead : ∀ token ∈ ahead, token.kind ≠ .eof)
    (hbehind : nextKind behind = .eof) : beforeEof (ahead ++ behind) = ahead := by
  have hstop : behind.takeWhile (fun token => token.kind ≠ .eof) = [] := by
    cases behind with
    | nil => rfl
    | cons token behind => exact List.takeWhile_cons_of_neg (by simpa using hbehind)
  rw [beforeEof, List.takeWhile_append_of_pos (by simpa using hahead), hstop, List.append_nil]

theorem exists_behind (tokens : List Token) : ∃ behind, tokens = beforeEof tokens ++ behind ∧ nextKind behind = .eof := by
  induction tokens with
  | nil => exact ⟨[], rfl, rfl⟩
  | cons token tokens ih =>
    by_cases hkind : token.kind = .eof
    · exact ⟨token :: tokens, by simp [beforeEof, hkind], hkind⟩
    · obtain ⟨behind, htokens, hbehind⟩ := ih
      exact ⟨behind, by simpa [beforeEof, hkind] using htokens, hbehind⟩

/-- The place of the token that parsing goes on with after a fault at `start`. -/
def synchronizedAt (tokens : List Token) (start : Nat) : Nat :=
  let ahead := beforeEof (tokens.drop start)
  start + (ahead.length - (synchronize 0 ahead).length)

/-- After a fault parsing goes on at the first place where a statement may start, and never outside of the block. -/
theorem isLeast_synchronizedAt (tokens : List Token) (start : Nat) :
    let place := synchronizedAt tokens start
    synchronize 0 (beforeEof (tokens.drop start)) = beforeEof (tokens.drop place) ∧
      IsLeast {place | start ≤ place ∧ MayResume (tokens.extract start place) (tokens.drop place)} place ∧
      ∀ front, front <+: tokens.extract start place → tally .dedent front ≤ tally .indent front := by
  intro place
  obtain ⟨behind, hbehind, hend⟩ := exists_behind (tokens.drop start)
  have hahead : ∀ token ∈ beforeEof (tokens.drop start), token.kind ≠ .eof := by
    intro token hmem
    simpa using List.mem_takeWhile_imp hmem
  obtain ⟨skipped, hskipped, hskips⟩ := exists_skips_synchronize hend 0 hahead
  rw [← hbehind] at hskips
  have hplace : place = start + skipped.length := by
    have hlength := congrArg List.length hskipped
    rw [List.length_append] at hlength
    exact congrArg (start + ·) (Nat.sub_eq_of_eq_add hlength)
  have htokens : tokens.drop start = skipped ++ (synchronize 0 (beforeEof (tokens.drop start)) ++ behind) := by
    rw [← List.append_assoc, ← hskipped, ← hbehind]
  have hextract (k : Nat) : tokens.extract start (start + k) = (tokens.drop start).take k := by
    rw [List.extract_eq_take_drop, Nat.add_sub_cancel_left]
  have hmay (k : Nat) : MayResume (tokens.extract start (start + k)) (tokens.drop (start + k)) ↔
      MayResumeIn 0 ((tokens.drop start).take k) ((tokens.drop start).drop k) := by
    rw [mayResume_iff, hextract, List.drop_drop]
  refine ⟨?_, ⟨⟨?_, ?_⟩, ?_⟩, ?_⟩
  · rw [hplace, ← List.drop_drop, htokens, List.drop_left, ← htokens, beforeEof_append ?_ hend]
    exact fun token hmem => hahead token ((synchronize_suffix 0 _).subset hmem)
  · exact hplace ▸ Nat.le_add_right start _
  · rw [hplace]
    exact (hmay _).2 hskips.isLeast.1
  · rintro other ⟨hle, hother⟩
    obtain ⟨k, rfl⟩ := Nat.exists_eq_add_of_le hle
    rw [hplace]
    exact Nat.add_le_add_left (hskips.isLeast.2 ((hmay k).1 hother)) start
  · rw [hplace, hextract, htokens, List.take_left]
    simpa using hskips.open_of_prefix

end Offside.Grammar
