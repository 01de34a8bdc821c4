import Mathlib.Data.String.Basic
import Offside.Proofs.Token.Lines

/-!
# Tokens in their source

The tokens of a source stand in it one behind the other, each at its own offsets, and between them stands what the
scanner skips.  Where nothing is malformed these are blanks and whole comments only.
-/

namespace Offside.Token

open String (utf8Len)

/-! ## Skipped text -/

/-- Blanks and whole comments, in front of the text `rest`.  A line comment goes on to a newline or to the end of all
text, and a block comment to the first mark that closes it. -/
inductive Filler (rest : List Char) : List Char → Prop
  | nil : Filler rest []
  | blank {c : Char} {text : List Char} : c ∈ [' ', '\t', '\r', '\n'] → Filler rest text → Filler rest (c :: text)
  | lineComment {comment text : List Char} : '\n' ∉ comment → comment.head? ≠ some '*' →
      (∀ c ∈ (text ++ rest).head?, c = '\n') → Filler rest text → Filler rest ('#' :: (comment ++ text))
  | blockComment {comment text : List Char} : ¬ ['*', '#'] <:+: comment → Filler rest text →
      Filler rest ('#' :: '*' :: (comment ++ '*' :: '#' :: text))

namespace Filler

theorem append {front back rest : List Char} (hfront : Filler (back ++ rest) front) (hback : Filler rest back) :
    Filler rest (front ++ back) := by
  induction hfront with
  | nil => exact hback
  | blank hblank _ ih => exact .blank hblank ih
  | lineComment hline hstar hend _ ih =>
    rw [← List.append_assoc] at hend
    rw [List.cons_append, List.append_assoc]
    exact .lineComment hline hstar hend ih
  | blockComment hclosed _ ih =>
    rw [List.cons_append, List.cons_append, List.append_assoc]
    exact .blockComment hclosed ih

theorem of_blanks {rest text : List Char} (h : ∀ c ∈ text, c ∈ [' ', '\t', '\r', '\n']) : Filler rest text := by
  induction text with
  | nil => exact .nil
  | cons c text ih =>
    have hmem := List.forall_mem_cons.1 h
    exact .blank hmem.1 (ih hmem.2)

end Filler

namespace Cut

variable {rest : List Char}

/-- A block comment is read up to the first mark that closes it. -/
theorem eq_append_of_commentBody? {text body after : List Char} (h : commentBody? text = some (body, after)) :
    ∃ comment, body = comment ++ ['*', '#'] ∧ ¬ ['*', '#'] <:+: comment := by
  fun_induction commentBody? text generalizing body after with
  | case1 => cases h
  | case2 =>
    cases h
    exact ⟨[], rfl, by simp⟩
  | case3 c rest hopen ih =>
    obtain ⟨⟨inner, tail⟩, hinner, heq⟩ := Option.map_eq_some_iff.1 h
    cases heq
    obtain ⟨comment, hbody, hclosed⟩ := ih hinner
    refine ⟨c :: comment, by rw [hbody, List.cons_append], fun hmark => ?_⟩
    -- A mark in the longer comment would stand at its very front, where the reading had stopped.
    cases List.infix_cons_iff.1 hmark with
    | inr hlater => exact hclosed hlater
    | inl hfront =>
      obtain ⟨later, hlater⟩ := hfront
      cases hlater
      have hrest := append_of_commentBody? hinner
      rw [hbody] at hrest
      exact hopen _ rfl hrest.symm

theorem filler_lineComment (hstar : rest.head? ≠ some '*') :
    Filler (rest.dropWhile (· ≠ '\n')) ('#' :: rest.takeWhile (· ≠ '\n')) := by
  rw [← List.append_nil (rest.takeWhile _)]
  apply Filler.lineComment
  · intro hmem
    simpa using List.mem_takeWhile_imp hmem
  · intro hhead
    rw [List.head?_takeWhile] at hhead
    exact hstar (Option.eq_some_of_filter_eq_some hhead)
  · intro c hc
    have hstop := List.head?_dropWhile_not (· ≠ '\n') rest
    rw [List.nil_append, Option.mem_def] at hc
    rw [hc] at hstop
    simpa using hstop
  · exact .nil

theorem filler_comment (hfault : ∀ cause, (comment rest).piece.content ≠ .fault cause) :
    Filler (comment rest).rest (comment rest).piece.text := by
  unfold comment at hfault ⊢
  split
  · split
    · rename_i hbody
      obtain ⟨text, rfl, hclosed⟩ := eq_append_of_commentBody? hbody
      exact .blockComment hclosed .nil
    · rename_i hbody
      simp [hbody] at hfault
  · rename_i hstar
    apply filler_lineComment
    intro hhead
    obtain ⟨after, hafter⟩ := List.head?_eq_some_iff.1 hhead
    exact hstar after hafter

theorem filler_newline (rest : List Char) : Filler (newline rest).rest (newline rest).piece.text := by
  apply Filler.of_blanks
  intro c hc
  cases List.mem_cons.1 hc with
  | inl hnewline => simp [hnewline]
  | inr hmargin =>
    have hindent := List.mem_takeWhile_imp hmargin
    simp only [isIndentation, Bool.or_eq_true, decide_eq_true_eq] at hindent
    simp [← or_assoc, hindent]

/-- A piece is a blank, the start of a line or a comment, or else a token or malformed. -/
theorem ofFirst_cases (first : Char) (rest : List Char) :
    (first ∈ [' ', '\t', '\r', '\n'] ∧ ofFirst first rest = ⟨⟨[first], .blank⟩, rest⟩) ∨
      ofFirst first rest = newline rest ∨ ofFirst first rest = comment rest ∨
        (∃ kind, (ofFirst first rest).piece.content = .token kind) ∨
          ∃ cause, (ofFirst first rest).piece.content = .fault cause := by
  unfold ofFirst
  split
  · rename_i hblank
    have hmem : first ∈ [' ', '\t', '\r', '\n'] := by
      simp only [Bool.or_eq_true, decide_eq_true_eq] at hblank
      rcases hblank with (rfl | rfl) | rfl <;> simp
    exact Or.inl ⟨hmem, rfl⟩
  right
  split
  · exact Or.inl rfl
  right
  split
  · exact Or.inl rfl
  right
  split
  · unfold string
    split
    · exact Or.inl ⟨_, rfl⟩
    · exact Or.inr ⟨_, rfl⟩
  split
  · simp only [number]
    split
    · exact Or.inl ⟨_, rfl⟩
    · exact Or.inr ⟨_, rfl⟩
  split
  · exact Or.inl ⟨_, rfl⟩
  split
  · rename_i hcut
    obtain ⟨sign, hsign⟩ := exists_sign_of_symbol? hcut
    exact Or.inl ⟨_, hsign⟩
  · exact Or.inr ⟨_, rfl⟩

theorem filler_ofFirst {first : Char} (htoken : ∀ kind, (ofFirst first rest).piece.content ≠ .token kind)
    (hfault : ∀ cause, (ofFirst first rest).piece.content ≠ .fault cause) :
    Filler (ofFirst first rest).rest (ofFirst first rest).piece.text := by
  rcases ofFirst_cases first rest with ⟨hblank, h⟩ | h | h | ⟨kind, h⟩ | ⟨cause, h⟩
  · rw [h]
    exact .blank hblank .nil
  · rw [h]
    exact filler_newline rest
  · rw [h] at hfault ⊢
    exact filler_comment hfault
  · exact absurd h (htoken kind)
  · exact absurd h (hfault cause)

end Cut

/-! ## Tilings -/

/-- The place of a token in the text from `offset` on: behind `skipped` stands its `lexeme`, in front of `rest`.  The
skipped text is a filler as far as the text is `clean`. -/
structure Tile (clean : Prop) (offset : Nat) (skipped lexeme rest : List Char) (token : Token) : Prop where
  lexeme_eq : token.lexeme = String.ofList lexeme
  start_eq : token.start = offset + utf8Len skipped
  stop_eq : token.stop = token.start + utf8Len lexeme
  isPlain_iff : token.kind.isPlain = true ↔ lexeme ≠ []
  filler : clean → Filler (lexeme ++ rest) skipped

namespace Tile

variable {clean : Prop} {offset : Nat} {before skipped lexeme rest : List Char} {token : Token} {source : String}

/-- Only layout and the final `eof` take no text. -/
theorem start_stop (h : Tile clean offset skipped lexeme rest token) :
    if token.kind ∈ [.indent, .dedent, .eof] then token.start = token.stop else token.start < token.stop := by
  have hempty : token.kind ∈ [.indent, .dedent, .eof] ↔ lexeme = [] := by
    rw [← not_ne_iff, ← h.isPlain_iff]
    cases token.kind <;> simp [Kind.isPlain]
  have hsize : utf8Len lexeme = 0 ↔ lexeme = [] := String.utf8Len_eq_zero
  have hstop := h.stop_eq
  split <;> rename_i hkind
  · have hzero : utf8Len lexeme = 0 := hsize.2 (hempty.1 hkind)
    omega
  · have hpos : utf8Len lexeme ≠ 0 := fun hzero => hkind (hempty.2 (hsize.1 hzero))
    omega

/-- The token in a source that has its place behind the text `before`. -/
theorem lexeme_eq_between (h : Tile clean (0 + utf8Len before) skipped lexeme rest token)
    (hsource : source.toList = before ++ (skipped ++ (lexeme ++ rest))) :
    source = String.ofList (before ++ skipped) ++ token.lexeme ++ String.ofList rest ∧
      (String.ofList (before ++ skipped)).utf8ByteSize = token.start ∧
        (String.ofList (before ++ skipped) ++ token.lexeme).utf8ByteSize = token.stop := by
  have hstart : (String.ofList (before ++ skipped)).utf8ByteSize = token.start := by
    rw [String.utf8ByteSize_ofList, String.utf8Len_append, h.start_eq, Nat.zero_add]
  refine ⟨?_, hstart, ?_⟩
  · rw [h.lexeme_eq, ← String.ofList_append, ← String.ofList_append, List.append_assoc, List.append_assoc, ← hsource,
      String.ofList_toList]
  · rw [String.utf8ByteSize_append, hstart, h.lexeme_eq, String.utf8ByteSize_ofList, ← h.stop_eq]

theorem filler_before (h : Tile clean (0 + utf8Len before) skipped lexeme rest token)
    (hsource : source.toList = before ++ (skipped ++ (lexeme ++ rest))) (hclean : clean) :
    source = String.ofList before ++ String.ofList skipped ++ String.ofList (lexeme ++ rest) ∧
      (String.ofList before ++ String.ofList skipped).utf8ByteSize = token.start ∧
        Filler (String.ofList (lexeme ++ rest)).toList (String.ofList skipped).toList := by
  refine ⟨?_, ?_, ?_⟩
  · rw [← String.ofList_append, ← String.ofList_append, List.append_assoc, ← hsource, String.ofList_toList]
  · rw [← String.ofList_append, String.utf8ByteSize_ofList, String.utf8Len_append, h.start_eq, Nat.zero_add]
  · rw [String.toList_ofList, String.toList_ofList]
    exact h.filler hclean

end Tile

/-- The tokens stand in the text from `offset` on, one behind the other. -/
inductive Tiled (clean : Prop) : Nat → List Char → List Token → Prop
  | nil {offset : Nat} {text : List Char} : Tiled clean offset text []
  | cons {offset : Nat} {skipped lexeme rest : List Char} {token : Token} {tokens : List Token} :
      Tile clean offset skipped lexeme rest token → Tiled clean token.stop rest tokens →
        Tiled clean offset (skipped ++ (lexeme ++ rest)) (token :: tokens)

namespace Tiled

variable {clean : Prop} {offset : Nat} {text rest : List Char} {token : Token} {tokens : List Token}

/-- Text without tokens in front is skipped along with what the first token skips. -/
theorem skip (h : Tiled clean (offset + utf8Len text) rest tokens) (hfiller : clean → Filler rest text) :
    Tiled clean offset (text ++ rest) tokens := by
  cases h with
  | nil => exact .nil
  | cons htile htokens =>
    rw [← List.append_assoc]
    refine .cons ⟨htile.lexeme_eq, ?_, htile.stop_eq, htile.isPlain_iff, fun hclean => ?_⟩ htokens
    · rw [htile.start_eq, String.utf8Len_append, Nat.add_assoc]
    · exact (hfiller hclean).append (htile.filler hclean)

/-- Tokens without text change nothing. -/
theorem layout {place : Cursor} {kinds : List Kind} (h : Tiled clean place.offset text tokens)
    (hkinds : ∀ kind ∈ kinds, kind.isPlain = false) :
    Tiled clean place.offset text (kinds.map (empty place) ++ tokens) := by
  induction kinds with
  | nil => exact h
  | cons kind kinds ih =>
    have hkind := List.forall_mem_cons.1 hkinds
    have htile : Tile clean place.offset [] [] text (empty place kind) :=
      ⟨rfl, rfl, rfl, by simp [empty, hkind.1], fun _ => .nil⟩
    exact .cons htile (ih hkind.2)

theorem le_start (h : Tiled clean offset text (token :: tokens)) : offset ≤ token.start := by
  cases h with
  | cons htile _ =>
    rw [htile.start_eq]
    exact Nat.le_add_right _ _

theorem isChain (h : Tiled clean offset text tokens) : tokens.IsChain fun token next => token.stop ≤ next.start := by
  induction h with
  | nil => exact .nil
  | @cons _ _ _ _ _ tokens _ htokens ih =>
    cases tokens with
    | nil => exact .singleton _
    | cons next tokens => exact List.isChain_cons_cons.2 ⟨htokens.le_start, ih⟩

/-- Every token has its place, behind the end of the token before it. -/
theorem tile {front later : List Token} (h : Tiled clean offset text (front ++ token :: later)) :
    ∃ before skipped lexeme rest, text = before ++ (skipped ++ (lexeme ++ rest)) ∧
      offset + utf8Len before = front.getLast?.elim offset Token.stop ∧
        Tile clean (offset + utf8Len before) skipped lexeme rest token := by
  induction front generalizing offset text with
  | nil =>
    cases h with
    | cons htile _ => exact ⟨[], _, _, _, rfl, rfl, htile⟩
  | cons first front ih =>
    cases h with
    | cons htile htokens =>
      rename_i skipped lexeme rest
      obtain ⟨before, skipped', lexeme', rest', rfl, hlast, htile'⟩ := ih htokens
      have hoffset : offset + utf8Len (skipped ++ lexeme ++ before) = first.stop + utf8Len before := by
        rw [htile.stop_eq, htile.start_eq]
        simp only [String.utf8Len_append]
        omega
      refine ⟨skipped ++ lexeme ++ before, skipped', lexeme', rest', by simp, ?_, ?_⟩
      · rw [hoffset, hlast, List.getLast?_cons]
        cases front.getLast? <;> rfl
      · rw [hoffset]
        exact htile'

end Tiled

/-! ## The tokens of a source -/

theorem Cursor.offset_after (place : Cursor) (text : List Char) :
    (place.after text).offset = place.offset + utf8Len text := by
  induction text generalizing place with
  | nil => rfl
  | cons c text ih =>
    calc (place.after (c :: text)).offset = (place.step c).offset + utf8Len text := ih (place.step c)
      _ = place.offset + utf8Len (c :: text) := by
        rw [String.utf8Len_cons, Nat.add_comm (utf8Len text), ← Nat.add_assoc]
        rfl

theorem Cursor.line_after (place : Cursor) (text : List Char) :
    (place.after text).line = place.line + text.count '\n' := by
  induction text generalizing place with
  | nil => rfl
  | cons c text ih =>
    calc (place.after (c :: text)).line = (place.step c).line + text.count '\n' := ih (place.step c)
      _ = place.line + (c :: text).count '\n' := by
        by_cases hc : c = '\n'
        · subst hc
          rw [List.count_cons_self, Nat.add_comm (text.count '\n'), ← Nat.add_assoc]
          rfl
        · rw [List.count_cons_of_ne hc, step, if_neg hc]

theorem Cursor.after_eq (place : Cursor) (text : List Char) :
    place.after text = ⟨place.offset + utf8Len text, place.line + text.count '\n'⟩ := by
  rw [← offset_after, ← line_after]

namespace Scan

theorem isPlain_change (levels : Levels) (width : Nat) : ∀ kind ∈ levels.change width, kind.isPlain = false := by
  intro kind hkind
  rcases eq_of_mem_change hkind with rfl | rfl <;> rfl

/-- The step of the tiling: one more piece in front. -/
theorem tiled_cons {clean : Prop} {place : Cursor} {levels : Levels} {piece : Piece} {pieces : List Piece}
    {rest : List Char} (hne : piece.text ≠ []) (hplain : ∀ kind, piece.content = .token kind → kind.isPlain = true)
    (hfiller : (∀ kind, piece.content ≠ .token kind) → (∀ cause, piece.content ≠ .fault cause) → Filler rest piece.text)
    (ih : ∀ place levels, (clean → (ofPieces place levels pieces).diagnostics = []) →
      Tiled clean place.offset rest (ofPieces place levels pieces).tokens)
    (hclean : clean → (ofPieces place levels (piece :: pieces)).diagnostics = []) :
    Tiled clean place.offset (piece.text ++ rest) (ofPieces place levels (piece :: pieces)).tokens := by
  obtain ⟨text, content⟩ := piece
  have hnext := ih (place.after text)
  rw [Cursor.offset_after] at hnext
  cases content with
  | blank => exact (hnext levels hclean).skip fun _ => hfiller nofun nofun
  | token kind =>
    have htile : Tile clean place.offset [] text rest
        ⟨kind, String.ofList text, place.offset, (place.after text).offset, place.line⟩ :=
      ⟨rfl, rfl, Cursor.offset_after place text, iff_of_true (hplain kind rfl) hne, fun _ => .nil⟩
    exact .cons htile (ih _ levels hclean)
  | fault cause =>
    have hfaulty : ¬ clean := fun hc => List.cons_ne_nil _ _ (hclean hc)
    exact (hnext levels fun hc => absurd hc hfaulty).skip fun hc => absurd hc hfaulty
  | newline tabbed width =>
    cases width with
    | none =>
      exact (hnext levels fun hc => (List.append_eq_nil_iff.1 (hclean hc)).2).skip fun _ => hfiller nofun nofun
    | some width =>
      have htokens := ih (place.after text) (levels.settle width) fun hc => (List.append_eq_nil_iff.1 (hclean hc)).2
      have hlayout := htokens.layout (isPlain_change levels width)
      rw [Cursor.offset_after] at hlayout
      exact hlayout.skip fun _ => hfiller nofun nofun

theorem tiled_ofPieces {clean : Prop} (text : List Char) (place : Cursor) (levels : Levels)
    (hclean : clean → (ofPieces place levels (pieces text)).diagnostics = []) :
    Tiled clean place.offset text (ofPieces place levels (pieces text)).tokens := by
  fun_induction pieces text generalizing place levels with
  | case1 =>
    have hkinds : ∀ kind ∈ levels.map (fun _ => Kind.dedent) ++ [Kind.eof], kind.isPlain = false := by
      intro kind hkind
      cases List.mem_append.1 hkind with
      | inl hdedent =>
        obtain ⟨_, -, rfl⟩ := List.mem_map.1 hdedent
        rfl
      | inr heof =>
        rw [List.mem_singleton.1 heof]
        rfl
    have htokens : Tiled clean place.offset [] _ := Tiled.nil.layout hkinds
    simpa [ofPieces] using htokens
  | case2 first rest ih =>
    have hne := Cut.text_ofFirst_ne_nil first rest
    have hcons := tiled_cons hne (fun _ => Cut.isPlain_ofFirst) Cut.filler_ofFirst ih hclean
    have hwhole : (Cut.ofFirst first rest).piece.text ++ (Cut.ofFirst first rest).rest = first :: rest :=
      Cut.whole_ofFirst first rest
    rw [hwhole] at hcons
    exact hcons

/-- The tokens of every source tile it.  Each has the source text between its offsets as its lexeme, which is empty for
layout and for the final `eof` only.  They come in order, and the `eof` stands at the end.  Unless something is
malformed, the text in front of each, back to the token before it or to the start of the source, is blanks and whole
comments. -/
theorem tokens_ofSource_tile (source : String) :
    (∀ token ∈ (ofSource source).tokens, ∃ before after, source = before ++ token.lexeme ++ after ∧
      before.utf8ByteSize = token.start ∧ (before ++ token.lexeme).utf8ByteSize = token.stop) ∧
    (∀ token ∈ (ofSource source).tokens,
      if token.kind ∈ [.indent, .dedent, .eof] then token.start = token.stop else token.start < token.stop) ∧
    (ofSource source).tokens.IsChain (fun token next => token.stop ≤ next.start) ∧
    (∃ front eof, (ofSource source).tokens = front ++ [eof] ∧ eof.kind = .eof ∧ eof.start = source.utf8ByteSize ∧
      ∀ token ∈ front, token.kind ≠ .eof) ∧
    ((ofSource source).diagnostics = [] → ∀ front next later, (ofSource source).tokens = front ++ next :: later →
      ∃ before gap after, source = before ++ gap ++ after ∧
        before.utf8ByteSize = front.getLast?.elim 0 Token.stop ∧ (before ++ gap).utf8ByteSize = next.start ∧
          Filler after.toList gap.toList) := by
  have htiled : Tiled ((ofSource source).diagnostics = []) 0 source.toList (ofSource source).tokens :=
    tiled_ofPieces source.toList .start [] id
  have hplain : Plain (pieces source.toList) := plain_pieces source.toList
  refine ⟨fun token hmem => ?_, fun token hmem => ?_, htiled.isChain, ?_, fun hclean front next later htokens => ?_⟩
  · obtain ⟨front, later, htokens⟩ := List.append_of_mem hmem
    rw [htokens] at htiled
    obtain ⟨before, skipped, lexeme, rest, hsource, -, htile⟩ := htiled.tile
    exact ⟨_, _, htile.lexeme_eq_between hsource⟩
  · obtain ⟨front, later, htokens⟩ := List.append_of_mem hmem
    rw [htokens] at htiled
    obtain ⟨before, skipped, lexeme, rest, -, -, htile⟩ := htiled.tile
    exact htile.start_stop
  · refine ⟨_, _, tokens_eq_beforeEof_append hplain, rfl, ?_, fun token => kind_ne_eof_of_mem_beforeEof⟩
    rw [flatMap_text_pieces]
    calc (Cursor.start.after source.toList).offset = 0 + utf8Len source.toList := Cursor.offset_after .start _
      _ = source.utf8ByteSize := by rw [Nat.zero_add, String.utf8Len_toList]
  · rw [htokens] at htiled
    obtain ⟨before, skipped, lexeme, rest, hsource, hlast, htile⟩ := htiled.tile
    obtain ⟨heq, hstart, hfiller⟩ := htile.filler_before hsource hclean
    refine ⟨_, _, _, heq, ?_, hstart, hfiller⟩
    rw [String.utf8ByteSize_ofList, ← hlast, Nat.zero_add]

/-- Comments of both forms, a character of two bytes, and layout between them. -/
theorem tokens_ofSource_tile_comments :
    let scan := ofSource "if y:\n  x = \"ü\" # c\n\n#* w **# z"
    scan.diagnostics = [] ∧ scan.tokens.length = 10 ∧ ∀ front next later, scan.tokens = front ++ next :: later →
      ∃ before gap after, "if y:\n  x = \"ü\" # c\n\n#* w **# z" = before ++ gap ++ after ∧
        before.utf8ByteSize = front.getLast?.elim 0 Token.stop ∧ (before ++ gap).utf8ByteSize = next.start ∧
          Filler after.toList gap.toList :=
  ⟨by decide +kernel, by decide +kernel, (tokens_ofSource_tile _).2.2.2.2 (by decide +kernel)⟩

end Scan

end Offside.Token
