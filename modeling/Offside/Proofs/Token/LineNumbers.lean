import Offside.Proofs.Token.Tiling

/-!
# Line numbers

Scanning goes forward through the text, and all that it writes down is at a place that it comes to: behind a front of
the text, whose newlines have been counted.  So the line of a token is exact wherever the newlines before it stand, in
strings and comments as well, and the lines of the diagnostics never go back.
-/

namespace Offside.Token

open String (utf8Len)

/-- The width of the line that a piece starts, if the line counts for the layout. -/
def Piece.width? (piece : Piece) : Option Nat :=
  match piece.content with
  | .newline _ width => width
  | _ => none

namespace Levels

/-- The levels open behind some pieces. -/
def behind (levels : Levels) (pieces : List Piece) : Levels := (pieces.filterMap Piece.width?).foldl settle levels

theorem behind_append (levels : Levels) (front back : List Piece) :
    levels.behind (front ++ back) = (levels.behind front).behind back := by
  rw [behind, List.filterMap_append, List.foldl_append]
  rfl

end Levels

theorem Cursor.after_append (place : Cursor) (front back : List Char) :
    place.after (front ++ back) = (place.after front).after back := List.foldl_append

theorem Cursor.offset_lt_after (place : Cursor) {text : List Char} (h : text ≠ []) :
    place.offset < (place.after text).offset := by
  cases text with
  | nil => exact absurd rfl h
  | cons c text =>
    have hpos := c.utf8Size_pos
    rw [offset_after, String.utf8Len_cons]
    omega

theorem Cursor.line_le_after (place : Cursor) (text : List Char) : place.line ≤ (place.after text).line := by
  rw [line_after]
  exact Nat.le_add_right _ _

namespace Scan

/-- What is written down for a piece that reaches from one place to another, all of it at one of the two. -/
structure Written (place next here : Cursor) (tokens : List Token) (diagnostics : List Diagnostic) : Prop where
  here_eq : here = place ∨ here = next
  le_next : place.offset ≤ next.offset
  tokens : ∀ token ∈ tokens, here = ⟨token.start, token.line⟩ ∧ token.start ≤ token.stop ∧ token.stop ≤ next.offset
  diagnostics : ∀ d ∈ diagnostics, here.line = d.line

/-- What is written down for a piece does not depend on the pieces behind it. -/
theorem exists_prepend (place : Cursor) (levels : Levels) (piece : Piece) : ∃ here tokens diagnostics,
    Written place (place.after piece.text) here tokens diagnostics ∧ ∀ back, ofPieces place levels (piece :: back) =
      (ofPieces (place.after piece.text) (levels.behind [piece]) back).prepend tokens diagnostics := by
  obtain ⟨text, content⟩ := piece
  have hle : place.offset ≤ (place.after text).offset := by
    rw [Cursor.offset_after]
    exact Nat.le_add_right _ _
  match content with
  | .blank => exact ⟨place, [], [], ⟨.inl rfl, hle, by simp, by simp⟩, fun back => rfl⟩
  | .fault cause => exact ⟨place, [], [_], ⟨.inl rfl, hle, by simp, by simp⟩, fun back => rfl⟩
  | .token kind => exact ⟨place, [_], [], ⟨.inl rfl, hle, by simpa using hle, by simp⟩, fun back => rfl⟩
  | .newline tabbed width =>
    have htab : ∀ d ∈ (if tabbed then [tabDiagnostic (place.after text).line] else []),
        (place.after text).line = d.line := by
      cases tabbed <;> simp [tabDiagnostic]
    match width with
    | none => exact ⟨place.after text, [], _, ⟨.inr rfl, hle, by simp, htab⟩, fun back => rfl⟩
    | some width =>
      exact ⟨place.after text, (levels.change width).map (empty (place.after text)), _,
        ⟨.inr rfl, hle, by simp [empty], htab⟩, fun back => rfl⟩

/-- The same for all pieces in front of others. -/
theorem exists_prepend_append (place : Cursor) (levels : Levels) (front : List Piece) : ∃ tokens diagnostics,
    (∀ token ∈ tokens, token.start ≤ token.stop ∧ token.stop ≤ (place.after (front.flatMap Piece.text)).offset) ∧
    ∀ back, ofPieces place levels (front ++ back) =
      (ofPieces (place.after (front.flatMap Piece.text)) (levels.behind front) back).prepend tokens diagnostics := by
  induction front generalizing place levels with
  | nil => exact ⟨[], [], by simp, fun back => rfl⟩
  | cons piece front ih =>
    obtain ⟨here, first, faults, hfirst, hpiece⟩ := exists_prepend place levels piece
    obtain ⟨tokens, diagnostics, htokens, hfront⟩ := ih (place.after piece.text) (levels.behind [piece])
    rw [List.flatMap_cons, Cursor.after_append]
    refine ⟨first ++ tokens, faults ++ diagnostics, List.forall_mem_append.2 ⟨fun token htoken => ?_, htokens⟩,
      fun back => ?_⟩
    · obtain ⟨-, hstart, hstop⟩ := hfirst.tokens token htoken
      refine ⟨hstart, Nat.le_trans hstop ?_⟩
      rw [Cursor.offset_after _ (front.flatMap Piece.text)]
      exact Nat.le_add_right _ _
    · rw [List.cons_append, hpiece, hfront, ← Levels.behind_append, List.singleton_append]
      simp only [prepend, List.append_assoc]

/-- What a scan has written down for a text stands behind fronts of it, and its lines never go back. -/
structure Along (place : Cursor) (text : List Char) (scan : Scan) : Prop where
  tokens : ∀ token ∈ scan.tokens, ∃ before, before <+: text ∧ place.after before = ⟨token.start, token.line⟩
  diagnostics : ∀ d ∈ scan.diagnostics, ∃ before, before <+: text ∧ (place.after before).line = d.line
  tokens_sorted : scan.tokens.Pairwise fun a b => a.line ≤ b.line
  diagnostics_sorted : scan.diagnostics.Pairwise fun a b => a.line ≤ b.line

section
variable {place here : Cursor} {text rest : List Char} {tokens : List Token} {diagnostics : List Diagnostic} {scan : Scan}

theorem Written.exists_prefix (h : Written place (place.after text) here tokens diagnostics) (rest : List Char) :
    ∃ before, before <+: text ++ rest ∧ place.after before = here := by
  rcases h.here_eq with rfl | rfl
  · exact ⟨[], List.nil_prefix, rfl⟩
  · exact ⟨text, List.prefix_append _ _, rfl⟩

theorem Written.line_le (h : Written place (place.after text) here tokens diagnostics) :
    here.line ≤ (place.after text).line := by
  rcases h.here_eq with rfl | rfl
  · exact Cursor.line_le_after _ _
  · exact Nat.le_refl _

/-- The step: one more piece in front. -/
theorem Along.prepend (h : Along (place.after text) rest scan)
    (hwritten : Written place (place.after text) here tokens diagnostics) :
    Along place (text ++ rest) (scan.prepend tokens diagnostics) := by
  have hlater : ∀ before, before <+: rest → text ++ before <+: text ++ rest ∧
      place.after (text ++ before) = (place.after text).after before :=
    fun before hbefore => ⟨(List.prefix_append_right_inj text).2 hbefore, Cursor.after_append place text before⟩
  have hline : ∀ before, here.line ≤ ((place.after text).after before).line :=
    fun before => Nat.le_trans hwritten.line_le (Cursor.line_le_after _ before)
  obtain ⟨front, hfront, hhere⟩ := hwritten.exists_prefix rest
  constructor
  · refine List.forall_mem_append.2 ⟨fun token htoken => ?_, fun token htoken => ?_⟩
    · exact ⟨front, hfront, hhere.trans (hwritten.tokens token htoken).1⟩
    · obtain ⟨before, hbefore, hplace⟩ := h.tokens token htoken
      exact ⟨text ++ before, (hlater before hbefore).1, (hlater before hbefore).2.trans hplace⟩
  · refine List.forall_mem_append.2 ⟨fun d hd => ?_, fun d hd => ?_⟩
    · exact ⟨front, hfront, by rw [hhere, hwritten.diagnostics d hd]⟩
    · obtain ⟨before, hbefore, hplace⟩ := h.diagnostics d hd
      exact ⟨text ++ before, (hlater before hbefore).1, by rw [(hlater before hbefore).2, hplace]⟩
  · have hsame : ∀ token ∈ tokens, token.line = here.line := fun token htoken => by rw [(hwritten.tokens token htoken).1]
    refine List.pairwise_append.2 ⟨List.pairwise_of_forall_mem_list fun a ha b hb => ?_, h.tokens_sorted,
      fun a ha b hb => ?_⟩
    · rw [hsame a ha, hsame b hb]
    · obtain ⟨before, -, hplace⟩ := h.tokens b hb
      simpa [hsame a ha, hplace] using hline before
  · refine List.pairwise_append.2 ⟨List.pairwise_of_forall_mem_list fun a ha b hb => ?_, h.diagnostics_sorted,
      fun a ha b hb => ?_⟩
    · rw [← hwritten.diagnostics a ha, ← hwritten.diagnostics b hb]
    · obtain ⟨before, -, hplace⟩ := h.diagnostics b hb
      rw [← hwritten.diagnostics a ha, ← hplace]
      exact hline before

end

theorem along_ofPieces (place : Cursor) (levels : Levels) (pieces : List Piece) :
    Along place (pieces.flatMap Piece.text) (ofPieces place levels pieces) := by
  induction pieces generalizing place levels with
  | nil =>
    have hplace : ∀ token ∈ (ofPieces place levels []).tokens, place = ⟨token.start, token.line⟩ := by
      simp +contextual [ofPieces, empty, or_imp]
    refine ⟨fun token htoken => ⟨[], List.nil_prefix, hplace token htoken⟩, by simp [ofPieces], ?_, .nil⟩
    have hline : ∀ token ∈ (ofPieces place levels []).tokens, place.line = token.line :=
      fun token htoken => congrArg Cursor.line (hplace token htoken)
    exact List.pairwise_of_forall_mem_list fun a ha b hb => by rw [← hline a ha, ← hline b hb]
  | cons piece pieces ih =>
    obtain ⟨here, tokens, diagnostics, hwritten, hpiece⟩ := exists_prepend place levels piece
    rw [hpiece, List.flatMap_cons]
    exact (ih _ _).prepend hwritten

theorem le_start_of_mem {place : Cursor} {levels : Levels} {pieces : List Piece} {token : Token}
    (h : token ∈ (ofPieces place levels pieces).tokens) : place.offset ≤ token.start := by
  obtain ⟨before, -, hplace⟩ := (along_ofPieces place levels pieces).tokens token h
  have hoffset : (place.after before).offset = token.start := congrArg Cursor.offset hplace
  rw [← hoffset, Cursor.offset_after]
  exact Nat.le_add_right _ _

end Scan

end Offside.Token
