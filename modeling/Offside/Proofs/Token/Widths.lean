import Offside.Proofs.Token.LineNumbers

/-!
# Lines of equal width

A line that is as wide as the measured line before it changes nothing in the layout, unless that line fell between two
levels: it closed the wider level and opened none of its own, so that the second line opens a level of this width.
-/

namespace Offside.Token

open String (utf8Len)

namespace Levels

variable {levels : Levels}

theorem behind_of_forall_none {pieces : List Piece} (h : ∀ piece ∈ pieces, piece.width? = none) (levels : Levels) :
    levels.behind pieces = levels := by
  rw [behind, List.filterMap_eq_nil_iff.2 h]
  rfl

/-- Inner levels are wider. -/
abbrev Nested (levels : Levels) : Prop := levels.Pairwise (· > ·)

theorem Nested.settle (h : levels.Nested) (width : Nat) : (levels.settle width).Nested := by
  unfold Levels.settle
  split
  · rename_i hopen
    refine List.pairwise_cons.2 ⟨fun level hlevel => ?_, h⟩
    cases levels with
    | nil => cases hlevel
    | cons top outer =>
      rcases List.mem_cons.1 hlevel with rfl | houter
      · exact hopen
      · exact Nat.lt_trans ((List.pairwise_cons.1 h).1 level houter) hopen
  · exact h.sublist (List.dropWhile_sublist _)

theorem nested_behind (pieces : List Piece) : (behind [] pieces).Nested := by
  suffices hfold : ∀ (widths : List Nat) (levels : Levels), levels.Nested → Nested (widths.foldl settle levels) from
    hfold _ [] .nil
  intro widths
  induction widths with
  | nil => exact fun _ h => h
  | cons width widths ih => exact fun levels h => ih _ (h.settle width)

/-- Nothing is left that is wider than the line. -/
theorem top_dropWhile_le (levels : Levels) (width : Nat) : top (levels.dropWhile (width < ·)) ≤ width := by
  induction levels with
  | nil => exact Nat.zero_le _
  | cons level levels ih =>
    by_cases hwide : width < level
    · rwa [List.dropWhile_cons_of_pos (by simpa using hwide)]
    · rw [List.dropWhile_cons_of_neg (by simpa using hwide)]
      exact Nat.le_of_not_lt hwide

/-- The innermost level left is as wide as the line if and only if a level of this width was open. -/
theorem top_dropWhile_lt_iff (h : levels.Nested) (width : Nat) :
    top (levels.dropWhile (width < ·)) < width ↔ 0 < width ∧ width ∉ levels := by
  induction levels with
  | nil => simp [top]
  | cons level levels ih =>
    obtain ⟨houter, hlevels⟩ := List.pairwise_cons.1 h
    by_cases hwide : width < level
    · rw [List.dropWhile_cons_of_pos (by simpa using hwide), ih hlevels, List.mem_cons, not_or]
      simp [Nat.ne_of_lt hwide]
    · have houtside : width ∉ levels := fun hmem => hwide (houter width hmem)
      rw [List.dropWhile_cons_of_neg (by simpa using hwide), List.mem_cons, not_or]
      simp only [top, List.headD_cons, houtside, not_false_eq_true, and_true]
      omega

/-- What a second line of the same width changes. -/
theorem change_settle (h : levels.Nested) (width : Nat) : (levels.settle width).change width =
    if 0 < width ∧ width < levels.top ∧ width ∉ levels then [.indent] else [] := by
  by_cases hopen : levels.top < width
  · have htop : ¬ top (width :: levels) < width := Nat.lt_irrefl width
    rw [settle, if_pos hopen, if_neg (by omega), change, if_neg htop, List.takeWhile_cons_of_neg (by simp), List.map_nil]
  · have hclosed : (levels.dropWhile (width < ·)).takeWhile (width < ·) = [] := by
      have hle := top_dropWhile_le levels width
      cases hdrop : levels.dropWhile (width < ·) with
      | nil => rfl
      | cons level outer =>
        rw [hdrop] at hle
        exact List.takeWhile_cons_of_neg (by simpa [top] using hle)
    have htop : 0 < width ∧ width ∉ levels → width < levels.top := by
      rintro ⟨hpos, hmem⟩
      cases levels with
      | nil => exact absurd hpos hopen
      | cons level outer => exact Nat.lt_of_le_of_ne (Nat.le_of_not_lt hopen) fun heq => hmem (heq ▸ List.mem_cons_self)
    rw [settle, if_neg hopen, change, hclosed, List.map_nil]
    exact if_congr ((top_dropWhile_lt_iff h width).trans
      ⟨fun hnew => ⟨hnew.1, htop hnew, hnew.2⟩, fun hnew => ⟨hnew.1, hnew.2.2⟩⟩) rfl rfl

end Levels

theorem text_ne_nil_of_mem_pieces {text : List Char} {piece : Piece} (h : piece ∈ pieces text) : piece.text ≠ [] := by
  fun_induction pieces text with
  | case1 => cases h
  | case2 first rest ih =>
    rcases List.mem_cons.1 h with rfl | h
    · exact Cut.text_ofFirst_ne_nil first rest
    · exact ih h

namespace Scan

/-- No layout stands at the start of a text with something in it. -/
theorem lt_start_of_isLayout {place : Cursor} {levels : Levels} {piece : Piece} {back : List Piece} {token : Token}
    (hplain : Plain (piece :: back)) (hne : piece.text ≠ [])
    (h : token ∈ (ofPieces place levels (piece :: back)).tokens) (hlayout : token.kind.isLayout = true) :
    place.offset < token.start := by
  have hlt := place.offset_lt_after hne
  rcases piece_cases piece with ⟨text, kind, rfl⟩ | ⟨text, tabbed, width, rfl⟩ | ⟨text, content, rfl, htoken, hline⟩
  · rcases List.mem_cons.1 h with rfl | h
    · have hkind := hplain.head
      cases kind <;> cases hlayout <;> cases hkind
    · exact Nat.lt_of_lt_of_le hlt (le_start_of_mem h)
  · rcases List.mem_append.1 h with h | h
    · obtain ⟨kind, -, rfl⟩ := List.mem_map.1 h
      exact hlt
    · exact Nat.lt_of_lt_of_le hlt (le_start_of_mem h)
  · rw [tokens_other htoken hline] at h
    exact Nat.lt_of_lt_of_le hlt (le_start_of_mem h)

/-- The layout tokens that stand at a byte offset. -/
def layoutAt (scan : Scan) (offset : Nat) : List Token :=
  scan.tokens.filter fun token => token.kind.isLayout && token.start == offset

/-- The layout at the start of a measured line with something in it. -/
theorem layoutAt_ofPieces {front back : List Piece} {piece : Piece} {width : Nat}
    (hplain : Plain (front ++ piece :: back)) (hne : ∀ other ∈ front ++ piece :: back, other.text ≠ [])
    (hwidth : piece.width? = some width) (hback : back ≠ []) (place : Cursor) (levels : Levels) :
    let next := place.after ((front ++ [piece]).flatMap Piece.text)
    (ofPieces place levels (front ++ piece :: back)).layoutAt next.offset =
      ((levels.behind front).change width).map (empty next) := by
  intro next
  obtain ⟨text, content⟩ := piece
  obtain ⟨tabbed, rfl⟩ : ∃ tabbed, content = .newline tabbed (some width) := by
    cases content <;> simp_all [Piece.width?]
  obtain ⟨tokens, diagnostics, htokens, hfront⟩ := exists_prepend_append place levels front
  have hnext : next = (place.after (front.flatMap Piece.text)).after text := by
    rw [← Cursor.after_append]
    simp [next]
  have hlt : (place.after (front.flatMap Piece.text)).offset < next.offset := by
    rw [hnext]
    exact Cursor.offset_lt_after _ (hne ⟨text, .newline tabbed (some width)⟩ (by simp))
  have hbefore : tokens.filter (fun token => token.kind.isLayout && token.start == next.offset) = [] := by
    refine List.filter_eq_nil_iff.2 fun token htoken => ?_
    have hle := htokens token htoken
    simp only [Bool.and_eq_true, beq_iff_eq, not_and]
    omega
  have hline : (((levels.behind front).change width).map (empty next)).filter
      (fun token => token.kind.isLayout && token.start == next.offset) =
        ((levels.behind front).change width).map (empty next) := by
    refine List.filter_eq_self.2 fun token htoken => ?_
    obtain ⟨kind, hkind, rfl⟩ := List.mem_map.1 htoken
    have hlayout : kind.isLayout = true := by
      rcases eq_of_mem_change hkind with rfl | rfl <;> rfl
    simp [empty, hlayout]
  have hbehind : (ofPieces next ((levels.behind front).settle width) back).tokens.filter
      (fun token => token.kind.isLayout && token.start == next.offset) = [] := by
    refine List.filter_eq_nil_iff.2 fun token htoken => ?_
    obtain ⟨first, others, rfl⟩ := List.exists_cons_of_ne_nil hback
    have hplain' : Plain (first :: others) := fun other hmem => hplain other (by simp_all)
    have hstart := lt_start_of_isLayout hplain' (hne first (by simp)) htoken
    simp only [Bool.and_eq_true, beq_iff_eq, not_and]
    intro hlayout
    have hlt := hstart hlayout
    omega
  rw [layoutAt, hfront, prepend, List.filter_append, hbefore, List.nil_append]
  change (((levels.behind front).change width).map (empty ((place.after (front.flatMap Piece.text)).after text)) ++
    (ofPieces ((place.after (front.flatMap Piece.text)).after text) _ back).tokens).filter _ = _
  rw [← hnext, List.filter_append, hline, hbehind, List.append_nil]

/-- Of two measured lines of the same width, with none between them, the second gets no `dedent`.  It gets an `indent`
if the width of the first one was smaller than that of the innermost level and not that of an open level, and else no
layout at all. -/
theorem layoutAt_of_width_eq {source : String} {front middle back : List Piece} {first second : Piece} {width : Nat}
    (hpieces : pieces source.toList = front ++ first :: (middle ++ second :: back)) (hfirst : first.width? = some width)
    (hsecond : second.width? = some width) (hmiddle : ∀ piece ∈ middle, piece.width? = none) (hback : back ≠ []) :
    let place := Cursor.start.after ((front ++ first :: (middle ++ [second])).flatMap Piece.text)
    let levels := Levels.behind [] front
    (ofSource source).layoutAt place.offset =
      if 0 < width ∧ width < levels.top ∧ width ∉ levels then [empty place .indent] else [] := by
  intro place levels
  have hsplit : pieces source.toList = (front ++ first :: middle) ++ second :: back := by simpa using hpieces
  have hlevels : Levels.behind [] (front ++ first :: middle) = levels.settle width := by
    rw [← List.singleton_append, Levels.behind_append, Levels.behind_append, Levels.behind_of_forall_none hmiddle,
      Levels.behind, List.filterMap_cons_some hfirst]
    rfl
  have hplain : Plain ((front ++ first :: middle) ++ second :: back) := hsplit ▸ plain_pieces source.toList
  have hlayout := layoutAt_ofPieces hplain (fun piece hpiece => text_ne_nil_of_mem_pieces (hsplit ▸ hpiece)) hsecond
    hback .start []
  have hplace : (front ++ first :: middle) ++ [second] = front ++ first :: (middle ++ [second]) := by simp
  rw [hlevels, hplace, Levels.change_settle (Levels.nested_behind front)] at hlayout
  rw [ofSource, hsplit]
  refine hlayout.trans ?_
  split <;> rfl

/-- The line of `c` closes the level of `b` and stands in no level of its own, so the line of `d` opens one. -/
theorem layoutAt_of_width_eq_between :
    pieces "a\n  b\n c\n d".toList = [⟨['a'], .token (.identifier "a")⟩, ⟨['\n', ' ', ' '], .newline false (some 2)⟩,
        ⟨['b'], .token (.identifier "b")⟩] ++ ⟨['\n', ' '], .newline false (some 1)⟩ ::
        ([⟨['c'], .token (.identifier "c")⟩] ++ ⟨['\n', ' '], .newline false (some 1)⟩ ::
          [⟨['d'], .token (.identifier "d")⟩]) ∧
      (ofSource "a\n  b\n c\n d").layoutAt 10 = [empty ⟨10, 4⟩ .indent] := by
  have hpieces : pieces "a\n  b\n c\n d".toList = [⟨['a'], .token (.identifier "a")⟩,
      ⟨['\n', ' ', ' '], .newline false (some 2)⟩, ⟨['b'], .token (.identifier "b")⟩] ++
        ⟨['\n', ' '], .newline false (some 1)⟩ :: ([⟨['c'], .token (.identifier "c")⟩] ++
          ⟨['\n', ' '], .newline false (some 1)⟩ :: [⟨['d'], .token (.identifier "d")⟩]) := by
    decide +kernel
  exact ⟨hpieces, layoutAt_of_width_eq hpieces rfl rfl (by simp [Piece.width?]) (by simp)⟩

/-- Two measured lines of the same width with none between them, of which the second gets an `indent`. -/
theorem exists_indent_of_width_eq : ∃ (source : String) (front middle back : List Piece) (first second : Piece) (width : Nat),
    pieces source.toList = front ++ first :: (middle ++ second :: back) ∧ first.width? = some width ∧
      second.width? = some width ∧ (∀ piece ∈ middle, piece.width? = none) ∧ back ≠ [] ∧
      ∃ token ∈ (ofSource source).tokens, token.kind = .indent ∧
        token.start = (Cursor.start.after ((front ++ first :: (middle ++ [second])).flatMap Piece.text)).offset :=
  ⟨"a\n  b\n c\n d", [⟨['a'], .token (.identifier "a")⟩, ⟨['\n', ' ', ' '], .newline false (some 2)⟩,
    ⟨['b'], .token (.identifier "b")⟩], [⟨['c'], .token (.identifier "c")⟩], [⟨['d'], .token (.identifier "d")⟩],
    ⟨['\n', ' '], .newline false (some 1)⟩, ⟨['\n', ' '], .newline false (some 1)⟩, 1, by decide +kernel, rfl, rfl,
    by simp [Piece.width?], by simp, by decide +kernel⟩

end Scan

end Offside.Token
