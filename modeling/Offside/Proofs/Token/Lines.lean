import Offside.Proofs.Token.LineEnds

/-!
# Lines and their levels

The scanner opens a level with an `indent` and closes it with the `dedent` that matches.  The main result says that
the matching `dedent` of every `indent` is there, and that every later line which is indented less than the line of
the `indent` stands behind it.
-/

namespace Offside.Token

variable {place : Cursor} {levels : Levels} {tokens rest : List Token}

/-! ## Tokens cut from the text -/

/-- The kinds of token that stand for a text of their own. -/
def Kind.isPlain : Kind → Bool
  | .indent | .dedent | .eof => false
  | _ => true

theorem Cut.isPlain_ofFirst {first : Char} {text : List Char} {kind : Kind}
    (h : (ofFirst first text).piece.content = .token kind) : kind.isPlain = true := by
  rcases cases_of_token h with ⟨_, rfl⟩ | ⟨_, rfl⟩ | ⟨_, rfl⟩ | ⟨-, -, -, rfl⟩
  · rfl
  · rfl
  · rfl
  · unfold wordKind
    split <;> rfl

/-- All tokens among the pieces stand for their text. -/
def Plain (pieces : List Piece) : Prop := ∀ piece ∈ pieces, ∀ kind, piece.content = .token kind → kind.isPlain = true

theorem plain_pieces (text : List Char) : Plain (pieces text) := by
  fun_induction pieces text with
  | case1 => exact fun _ hmem => absurd hmem List.not_mem_nil
  | case2 first rest ih => exact List.forall_mem_cons.2 ⟨fun _ h => Cut.isPlain_ofFirst h, ih⟩

theorem Plain.head {text : List Char} {kind : Kind} {pieces : List Piece} (h : Plain (⟨text, .token kind⟩ :: pieces)) :
    kind.isPlain = true := h _ List.mem_cons_self kind rfl

theorem Plain.cons {piece : Piece} {pieces : List Piece} (h : Plain (piece :: pieces)) : Plain pieces :=
  fun other hmem => h other (List.mem_cons_of_mem piece hmem)

/-! ## The tokens in front of the final one -/

namespace Scan

variable {content : Content}

/-- The tokens up to the first `eof`. -/
def beforeEof (scan : Scan) : List Token := scan.tokens.takeWhile fun token => token.kind ≠ .eof

theorem beforeEof_prepend {scan : Scan} {diagnostics : List Diagnostic} (h : ∀ token ∈ tokens, token.kind ≠ .eof) :
    (scan.prepend tokens diagnostics).beforeEof = tokens ++ scan.beforeEof :=
  List.takeWhile_append_of_pos fun token hmem => decide_eq_true (h token hmem)

theorem beforeEof_nil : (ofPieces place levels []).beforeEof = levels.map fun _ => empty place .dedent := by
  have hdedent : ∀ token ∈ levels.map (fun _ => empty place .dedent), decide (token.kind ≠ .eof) = true := by
    simp [empty]
  rw [ofPieces, beforeEof, List.takeWhile_append_of_pos hdedent]
  simp [empty]

theorem beforeEof_token {text : List Char} {kind : Kind} {pieces : List Piece} (h : kind.isPlain = true) :
    (ofPieces place levels (⟨text, .token kind⟩ :: pieces)).beforeEof =
      ⟨kind, String.ofList text, place.offset, (place.after text).offset, place.line⟩ ::
        (ofPieces (place.after text) levels pieces).beforeEof := by
  refine beforeEof_prepend fun token hmem => ?_
  rw [List.mem_singleton.1 hmem]
  rintro rfl
  cases h

theorem eq_of_mem_change {width : Nat} {kind : Kind} (h : kind ∈ levels.change width) :
    kind = .indent ∨ kind = .dedent := by
  unfold Levels.change at h
  split at h
  · exact Or.inl (List.mem_singleton.1 h)
  · obtain ⟨_, -, rfl⟩ := List.mem_map.1 h
    exact Or.inr rfl

theorem beforeEof_newline {text : List Char} {tabbed : Bool} {width : Nat} {pieces : List Piece} :
    (ofPieces place levels (⟨text, .newline tabbed (some width)⟩ :: pieces)).beforeEof =
      (levels.change width).map (empty (place.after text)) ++
        (ofPieces (place.after text) (levels.settle width) pieces).beforeEof := by
  refine beforeEof_prepend fun token hmem => ?_
  obtain ⟨kind, hkind, rfl⟩ := List.mem_map.1 hmem
  rcases eq_of_mem_change hkind with rfl | rfl <;> simp [empty]

theorem piece_cases (piece : Piece) : (∃ text kind, piece = ⟨text, .token kind⟩) ∨
    (∃ text tabbed width, piece = ⟨text, .newline tabbed (some width)⟩) ∨
      ∃ text content, piece = ⟨text, content⟩ ∧ (∀ kind, content ≠ .token kind) ∧
        ∀ tabbed width, content ≠ .newline tabbed (some width) := by
  obtain ⟨text, content⟩ := piece
  cases content with
  | token kind => exact Or.inl ⟨text, kind, rfl⟩
  | newline tabbed width =>
    cases width with
    | none => exact Or.inr (Or.inr ⟨text, _, rfl, by simp, by simp⟩)
    | some width => exact Or.inr (Or.inl ⟨text, tabbed, width, rfl⟩)
  | blank | fault => exact Or.inr (Or.inr ⟨text, _, rfl, by simp, by simp⟩)

/-- A piece that is neither a token nor the start of a line adds nothing. -/
theorem tokens_other {text : List Char} {pieces : List Piece}
    (htoken : ∀ kind, content ≠ .token kind) (hline : ∀ tabbed width, content ≠ .newline tabbed (some width)) :
    (ofPieces place levels (⟨text, content⟩ :: pieces)).tokens =
      (ofPieces (place.after text) levels pieces).tokens := by
  cases content with
  | blank => rfl
  | token kind => exact absurd rfl (htoken kind)
  | fault cause => rfl
  | newline tabbed width =>
    cases width with
    | none => rfl
    | some width => exact absurd rfl (hline tabbed width)

theorem beforeEof_other {text : List Char} {pieces : List Piece}
    (htoken : ∀ kind, content ≠ .token kind) (hline : ∀ tabbed width, content ≠ .newline tabbed (some width)) :
    (ofPieces place levels (⟨text, content⟩ :: pieces)).beforeEof =
      (ofPieces (place.after text) levels pieces).beforeEof := by
  rw [beforeEof, tokens_other htoken hline, beforeEof]

theorem kind_ne_eof_of_mem_beforeEof {scan : Scan} {token : Token} (h : token ∈ scan.beforeEof) :
    token.kind ≠ .eof := by
  simpa using List.mem_takeWhile_imp h

/-- The last token is an `eof` behind all the text. -/
theorem tokens_eq_beforeEof_append {pieces : List Piece} (hplain : Plain pieces) :
    (ofPieces place levels pieces).tokens = (ofPieces place levels pieces).beforeEof ++
      [empty (place.after (pieces.flatMap Piece.text)) .eof] := by
  induction pieces generalizing place levels with
  | nil =>
    rw [beforeEof_nil]
    rfl
  | cons piece pieces ih =>
    have hafter : ∀ text, place.after (text ++ pieces.flatMap Piece.text) =
        (place.after text).after (pieces.flatMap Piece.text) := fun text => List.foldl_append
    rcases piece_cases piece with ⟨text, kind, rfl⟩ | ⟨text, tabbed, width, rfl⟩ |
      ⟨text, content, rfl, htoken, hline⟩
    · rw [beforeEof_token hplain.head, List.flatMap_cons, hafter, List.cons_append, ← ih hplain.cons]
      rfl
    · rw [beforeEof_newline, List.flatMap_cons, hafter, List.append_assoc, ← ih hplain.cons]
      rfl
    · rw [beforeEof_other htoken hline, List.flatMap_cons, hafter, ← ih hplain.cons]
      exact tokens_other htoken hline

/-! ## Lines -/

/-- A line of a source: the width of its indentation, and the tokens from its first one on, behind its layout. -/
structure Line where
  width : Nat
  tokens : List Token

/-- The lines that the pieces start, behind a place and under the levels open there. -/
def linesOf (place : Cursor) (levels : Levels) : List Piece → List Line
  | [] => []
  | ⟨text, .newline _ (some width)⟩ :: pieces =>
    let next := place.after text
    ⟨width, (ofPieces next (levels.settle width) pieces).beforeEof⟩ :: linesOf next (levels.settle width) pieces
  | ⟨text, _⟩ :: pieces => linesOf (place.after text) levels pieces

/-- The lines of a source that count for the layout, but for the first one. -/
def lines (source : String) : List Line := linesOf .start [] (pieces source.toList)

theorem linesOf_other {text : List Char} {pieces : List Piece}
    (hline : ∀ tabbed width, content ≠ .newline tabbed (some width)) :
    linesOf place levels (⟨text, content⟩ :: pieces) = linesOf (place.after text) levels pieces := by
  cases content with
  | blank | token | fault => rfl
  | newline tabbed width =>
    cases width with
    | none => rfl
    | some width => exact absurd rfl (hline tabbed width)

theorem suffix_of_mem_linesOf {pieces : List Piece} (hplain : Plain pieces) {line : Line}
    (hmem : line ∈ linesOf place levels pieces) : line.tokens <:+ (ofPieces place levels pieces).beforeEof := by
  induction pieces generalizing place levels with
  | nil => cases hmem
  | cons piece pieces ih =>
    rcases piece_cases piece with ⟨text, kind, rfl⟩ | ⟨text, tabbed, width, rfl⟩ |
      ⟨text, content, rfl, htoken, hline⟩
    · rw [beforeEof_token hplain.head]
      exact (ih hplain.cons hmem).trans (List.suffix_cons _ _)
    · rw [beforeEof_newline]
      rcases List.mem_cons.1 hmem with rfl | hmem
      · exact List.suffix_append _ _
      · exact (ih hplain.cons hmem).trans (List.suffix_append _ _)
    · rw [linesOf_other hline] at hmem
      rw [beforeEof_other htoken hline]
      exact ih hplain.cons hmem

end Scan

/-! ## Matching layout tokens -/

/-- What stands behind the `dedent` that closes the level at hand, told the number of levels opened in it. -/
def behindDedent (depth : Nat) : List Token → Option (List Token)
  | [] => none
  | token :: rest =>
    if token.kind = .indent then behindDedent (depth + 1) rest
    else if token.kind ≠ .dedent then behindDedent depth rest
    else if depth = 0 then some rest
    else behindDedent (depth - 1) rest

theorem behindDedent_cons_of_isPlain {token : Token} {depth : Nat} (h : token.kind.isPlain = true) :
    behindDedent depth (token :: rest) = behindDedent depth rest := by
  have hindent : token.kind ≠ .indent := by
    intro hkind
    rw [hkind] at h
    cases h
  have hdedent : token.kind ≠ .dedent := by
    intro hkind
    rw [hkind] at h
    cases h
  rw [behindDedent, if_neg hindent, if_pos hdedent]

theorem behindDedent_dedents {α : Type} (closed : List α) (depth : Nat) :
    behindDedent (closed.length + depth) (closed.map (fun _ => empty place .dedent) ++ rest) =
      behindDedent depth rest := by
  induction closed with
  | nil => simp
  | cons a closed ih =>
    rw [List.length_cons, Nat.add_right_comm, List.map_cons, List.cons_append]
    exact ih

/-- A line that is narrower than a level closes it and all levels opened in it. -/
theorem takeWhile_append_of_lt {inner outer : Levels} {level width : Nat} (hinner : ∀ next ∈ inner, level ≤ next)
    (h : width < level) : (inner ++ level :: outer).takeWhile (width < ·) =
      inner ++ level :: outer.takeWhile (width < ·) := by
  have hall : ∀ next ∈ inner, decide (width < next) = true := by
    intro next hmem
    have hle := hinner next hmem
    simpa using (by omega)
  rw [List.takeWhile_append_of_pos hall]
  simp [h]

namespace Scan

/-- The level `level`, with the levels `inner` opened in it, is closed by a `dedent`, and the later lines that are
narrower stand behind it. -/
theorem exists_behindDedent {inner outer : Levels} {level : Nat} (hinner : ∀ next ∈ inner, level ≤ next)
    {pieces : List Piece} (hplain : Plain pieces) : ∃ rest,
      behindDedent inner.length (ofPieces place (inner ++ level :: outer) pieces).beforeEof = some rest ∧
        ∀ line ∈ linesOf place (inner ++ level :: outer) pieces, line.width < level → line.tokens <:+ rest := by
  induction pieces generalizing place inner with
  | nil =>
    refine ⟨outer.map fun _ => empty place .dedent, ?_, fun line hmem => (by cases hmem)⟩
    rw [beforeEof_nil, List.map_append, ← Nat.add_zero inner.length, behindDedent_dedents]
    rfl
  | cons piece pieces ih =>
    rcases piece_cases piece with ⟨text, kind, rfl⟩ | ⟨text, tabbed, width, rfl⟩ |
      ⟨text, content, rfl, htoken, hline⟩
    · rw [beforeEof_token hplain.head, behindDedent_cons_of_isPlain hplain.head]
      exact ih hinner hplain.cons
    · have htop : level ≤ Levels.top (inner ++ level :: outer) := by
        cases inner with
        | nil => exact le_rfl
        | cons next inner => exact hinner next (by simp)
      rw [beforeEof_newline]
      by_cases hopen : Levels.top (inner ++ level :: outer) < width
      · -- One more level is opened in the level at hand.
        have hopened : ∀ next ∈ width :: inner, level ≤ next := List.forall_mem_cons.2 ⟨by omega, hinner⟩
        obtain ⟨rest, hrest, hlines⟩ := @ih (place.after text) _ hopened hplain.cons
        rw [Levels.change, if_pos hopen]
        rw [linesOf, Levels.settle, if_pos hopen]
        refine ⟨rest, hrest, List.forall_mem_cons.2 ⟨fun hlt => ?_, hlines⟩⟩
        simp only at hlt
        omega
      · rw [Levels.change, if_neg hopen, linesOf, Levels.settle, if_neg hopen, List.map_map]
        by_cases hwidth : level ≤ width
        · -- Only levels opened in the level at hand are closed.
          have hleft : ∀ next ∈ inner.dropWhile (width < ·), level ≤ next :=
            fun next hmem => hinner next (List.dropWhile_suffix _ |>.subset hmem)
          obtain ⟨rest, hrest, hlines⟩ := @ih (place.after text) _ hleft hplain.cons
          have hhead : ∀ first ∈ (level :: outer).head?, decide (width < first) = false := by simpa using hwidth
          obtain ⟨htake, hdrop⟩ := Cut.takeWhile_append_of_head hhead inner
          have hlength : inner.length =
              (inner.takeWhile (width < ·)).length + (inner.dropWhile (width < ·)).length := by
            rw [← List.length_append, List.takeWhile_append_dropWhile]
          rw [htake, hdrop, hlength]
          refine ⟨rest, (behindDedent_dedents _ _).trans hrest, List.forall_mem_cons.2 ⟨fun hlt => ?_, hlines⟩⟩
          simp only at hlt
          omega
        · -- The level at hand is closed, and what is left of the line's layout stands behind.
          rw [takeWhile_append_of_lt hinner (by omega), List.map_append, List.append_assoc, ← Nat.add_zero inner.length]
          refine ⟨_, behindDedent_dedents inner 0, List.forall_mem_cons.2 ⟨fun _ => ?_, fun line hmem _ => ?_⟩⟩
          · exact List.suffix_append _ _
          · exact (suffix_of_mem_linesOf hplain.cons hmem).trans (List.suffix_append _ _)
    · rw [beforeEof_other htoken hline, linesOf_other hline]
      exact ih hinner hplain.cons

/-- An `indent` behind tokens that are none stands in what follows them. -/
theorem exists_eq_append_indent {before front : List Token} {indent : Token}
    (hbefore : ∀ token ∈ before, token.kind ≠ .indent) (hindent : indent.kind = .indent)
    (h : before ++ rest = front ++ indent :: tokens) : ∃ front, rest = front ++ indent :: tokens := by
  induction before generalizing front with
  | nil => exact ⟨front, h⟩
  | cons token before ih =>
    obtain ⟨htoken, hbefore⟩ := List.forall_mem_cons.1 hbefore
    cases front with
    | nil =>
      obtain ⟨rfl, -⟩ := List.cons.inj h
      exact absurd hindent htoken
    | cons first front => exact ih hbefore (List.cons.inj h).2

/-- The tokens behind an `indent` are those of a line.  Its level is closed, and behind that stand all later lines that
are narrower. -/
theorem exists_line_of_indent {pieces : List Piece} (hplain : Plain pieces) {front : List Token} {indent : Token}
    (hindent : indent.kind = .indent) (h : (ofPieces place levels pieces).beforeEof = front ++ indent :: tokens) :
    ∃ (earlier : List Line) (line : Line) (later : List Line) (rest : List Token), linesOf place levels pieces = earlier ++ line :: later ∧ line.tokens = tokens ∧
      behindDedent 0 tokens = some rest ∧ ∀ other ∈ later, other.width < line.width → other.tokens <:+ rest := by
  induction pieces generalizing place levels front with
  | nil =>
    rw [beforeEof_nil] at h
    have hmem : indent ∈ levels.map fun _ => empty place .dedent := by simp [h]
    obtain ⟨_, -, rfl⟩ := List.mem_map.1 hmem
    cases hindent
  | cons piece pieces ih =>
    rcases piece_cases piece with ⟨text, kind, rfl⟩ | ⟨text, tabbed, width, rfl⟩ |
      ⟨text, content, rfl, htoken, hline⟩
    · have hkind : kind ≠ .indent := by
        rintro rfl
        cases hplain.head
      rw [beforeEof_token hplain.head, ← List.singleton_append] at h
      obtain ⟨front, h⟩ := exists_eq_append_indent (by simpa using hkind) hindent h
      exact ih hplain.cons h
    · rw [beforeEof_newline] at h
      rw [linesOf]
      by_cases hopen : levels.top < width
      · rw [Levels.change, if_pos hopen] at h
        rw [Levels.settle, if_pos hopen] at h ⊢
        cases front with
        | nil =>
          obtain ⟨rest, hrest, hlines⟩ := @exists_behindDedent (place.after text) [] levels width (by simp) pieces hplain.cons
          obtain ⟨-, rfl⟩ := List.cons.inj h
          exact ⟨[], _, _, rest, rfl, rfl, hrest, hlines⟩
        | cons first front =>
          obtain ⟨earlier, line, later, rest, hlines, hline⟩ := ih hplain.cons (List.cons.inj h).2
          exact ⟨_ :: earlier, line, later, rest, by rw [hlines, List.cons_append], hline⟩
      · rw [Levels.change, if_neg hopen, List.map_map] at h
        obtain ⟨front, h⟩ := exists_eq_append_indent (by simp [empty]) hindent h
        obtain ⟨earlier, line, later, rest, hlines, hline⟩ := ih hplain.cons h
        exact ⟨_ :: earlier, line, later, rest, by rw [hlines, List.cons_append], hline⟩
    · rw [beforeEof_other htoken hline] at h
      rw [linesOf_other hline]
      exact ih hplain.cons h

end Scan

end Offside.Token
