import Offside.Proofs.Compile.LineBreaks
import Offside.Proofs.Compile.Outcome

/-!
# Spaces at the end

Spaces behind the last character of a source do not show in its script, as long as they do not widen a last line of
spaces beyond the innermost block that is open there.  Such a line is measured although it is blank: nothing ends it,
and only a line end or a comment would tell that it holds no code.  It opens a block of its own, which is closed at once.
-/

namespace Offside

namespace Token

variable {count : Nat} {text : List Char}

/-- The spaces that are put behind a text. -/
abbrev spaces (count : Nat) : List Char := List.replicate count ' '

theorem parted_spaces (count : Nat) : Parted (spaces count) := by
  intro c hc
  exact Or.inl (List.eq_of_mem_replicate (List.mem_of_mem_head? hc))

/-! ## The last pieces -/

/-- The last pieces of a text, and with spaces behind them: blanks, or the indentation of a line. -/
inductive Ends (count : Nat) : List Piece → List Piece → Prop
  | blank {last last' : List Piece} : (∀ piece ∈ last, piece.content = .blank) →
      (∀ piece ∈ last', piece.content = .blank) → Ends count last last'
  | margin (margin : List Char) (tabbed : Bool) : Ends count [⟨'\n' :: margin, .newline tabbed (some margin.length)⟩]
      [⟨'\n' :: (margin ++ spaces count), .newline tabbed (some (margin.length + count))⟩]

namespace Cut

/-- What stops in front of the end does not depend on what follows the end. -/
theorem takeWhile_append_of_stop {p : Char → Bool} (h : text.dropWhile p ≠ []) (back : List Char) :
    (text ++ back).takeWhile p = text.takeWhile p ∧ (text ++ back).dropWhile p = text.dropWhile p ++ back := by
  induction text with
  | nil => exact absurd rfl h
  | cons c text ih =>
    cases hc : p c with
    | true => simpa [hc] using ih (by simpa [hc] using h)
    | false => simp [hc]

theorem isMeasured_append_spaces (h : text ≠ []) : isMeasured (text ++ spaces count) = isMeasured text := by
  obtain ⟨c, text, rfl⟩ := List.exists_cons_of_ne_nil h
  by_cases hmark : c = '#'
  · subst hmark
    cases text with
    | nil => cases count <;> rfl
    | cons d text => exact (isMeasured_mark d _).trans (isMeasured_mark d _).symm
  · exact (isMeasured_cons hmark _).trans (isMeasured_cons hmark _).symm

theorem newline_append_spaces (h : text.dropWhile isIndentation ≠ []) :
    newline (text ++ spaces count) = (newline text).extend (spaces count) := by
  obtain ⟨htake, hdrop⟩ := takeWhile_append_of_stop h (spaces count)
  simp only [newline, extend, htake, hdrop, isMeasured_append_spaces h]

theorem Closed.append {first : Char} (h : Closed first text) (back : List Char) :
    ofFirst first (text ++ back) = (ofFirst first text).extend back := by
  obtain ⟨piece, body, rest, -, -, rfl, -, -, hsame⟩ := h
  rw [List.append_assoc, hsame, hsame, extend]

end Cut

theorem pieces_margin (h : text.dropWhile Cut.isIndentation = []) :
    pieces ('\n' :: text) = [⟨'\n' :: text, .newline (text.contains '\t') (some text.length)⟩] := by
  have htake : text.takeWhile Cut.isIndentation = text :=
    List.takeWhile_eq_self_iff.2 (List.dropWhile_eq_nil_iff.1 h)
  simp [pieces_newline, Cut.newline, htake, h, pieces, Cut.isMeasured]

theorem pieces_lastComment (hline : text.dropWhile (· ≠ '\n') = []) (hstar : text.head? ≠ some '*') :
    pieces ('#' :: text) = [⟨'#' :: text, .blank⟩] := by
  have hcut : Cut.ofFirst '#' text = ⟨⟨'#' :: text, .blank⟩, []⟩ := by
    change Cut.comment text = _
    rw [Cut.comment_of_head hstar, Cut.run, hline, List.takeWhile_eq_self_iff.2 (List.dropWhile_eq_nil_iff.1 hline)]
  rw [pieces, hcut, pieces]

theorem dropWhile_append_spaces {p : Char → Bool} (h : text.dropWhile p = []) (hspace : p ' ' = true) :
    (text ++ spaces count).dropWhile p = [] := by
  refine List.dropWhile_eq_nil_iff.2 (List.forall_mem_append.2 ⟨List.dropWhile_eq_nil_iff.1 h, fun c hc => ?_⟩)
  rw [List.eq_of_mem_replicate hc]
  exact hspace

/-- A piece with spaces somewhere behind it is the same, unless it is the last one and takes them. -/
theorem ofFirst_append_spaces {first : Char}
    (h : ∀ cause, (Cut.ofFirst first text).piece.content = .fault cause → cause.isOpen = false) :
    Cut.ofFirst first (text ++ spaces count) = (Cut.ofFirst first text).extend (spaces count) ∨
      Ends count (pieces (first :: text)) (pieces (first :: (text ++ spaces count))) := by
  by_cases hnewline : first = '\n'
  · subst hnewline
    by_cases hdrop : text.dropWhile Cut.isIndentation = []
    · have htabs : (text ++ spaces count).contains '\t' = text.contains '\t' := by simp
      rw [pieces_margin hdrop, pieces_margin (dropWhile_append_spaces hdrop rfl), htabs, List.length_append,
        List.length_replicate]
      exact Or.inr (.margin text _)
    · exact Or.inl (Cut.newline_append_spaces hdrop)
  by_cases hmark : first = '#'
  · subst hmark
    by_cases hstar : text.head? = some '*'
    · obtain ⟨inside, rfl⟩ := List.head?_eq_some_iff.1 hstar
      exact Or.inl (Cut.Closed.append (Cut.closed_blockComment h) (spaces count))
    · have hstar' : (text ++ spaces count).head? ≠ some '*' := by
        cases text with
        | nil => cases count <;> simp [List.replicate_succ]
        | cons c text => exact hstar
      by_cases hline : text.dropWhile (· ≠ '\n') = []
      · rw [pieces_lastComment hline hstar, pieces_lastComment (dropWhile_append_spaces hline rfl) hstar']
        exact Or.inr (.blank (by simp) (by simp))
      · obtain ⟨htake, hdrop⟩ := Cut.takeWhile_append_of_stop hline (spaces count)
        change Cut.comment _ = (Cut.comment _).extend _ ∨ _
        rw [Cut.comment_of_head hstar, Cut.comment_of_head hstar']
        simp only [Cut.run, Cut.extend, htake, hdrop, true_or]
  cases hquote : Cut.isQuote first with
  | true => exact Or.inl ((Cut.closed_string hquote h).append (spaces count))
  | false => exact Or.inl (Cut.ofFirst_append hnewline hmark hquote (parted_spaces count) text)

theorem blank_of_mem_pieces_spaces (count : Nat) : ∀ piece ∈ pieces (spaces count), piece.content = .blank := by
  induction count with
  | zero => simp [pieces]
  | succ count ih =>
    rw [spaces, List.replicate_succ, pieces]
    exact List.forall_mem_cons.2 ⟨rfl, ih⟩

/-- Spaces at the end of a text change its last pieces only. -/
theorem exists_pieces_append_spaces (count : Nat)
    (h : ∀ piece ∈ pieces text, ∀ cause, piece.content = .fault cause → cause.isOpen = false) :
    ∃ front last last', pieces text = front ++ last ∧ pieces (text ++ spaces count) = front ++ last' ∧
      Ends count last last' := by
  fun_induction pieces text with
  | case1 => exact ⟨[], [], _, rfl, rfl, .blank (by simp) (blank_of_mem_pieces_spaces count)⟩
  | case2 first rest ih =>
    obtain ⟨hfirst, hrest⟩ := List.forall_mem_cons.1 h
    rcases ofFirst_append_spaces hfirst with hcut | hends
    · obtain ⟨front, last, last', hpieces, hspaces, hends⟩ := ih hrest
      refine ⟨_ :: front, last, last', by rw [hpieces, List.cons_append], ?_, hends⟩
      rw [List.cons_append, pieces, hcut, Cut.extend, hspaces, List.cons_append]
    · exact ⟨[], _, _, rfl, rfl, by simpa [pieces] using hends⟩

/-! ## The layout at the end -/

/-- The layout tokens at the end of a source whose last line has a width. -/
theorem Levels.change_append_dedents (levels : Levels) (width : Nat) :
    levels.change width ++ (levels.settle width).map (fun _ => Kind.dedent) =
      if levels.top < width then .indent :: .dedent :: levels.map (fun _ => .dedent)
      else levels.map fun _ => .dedent := by
  unfold change settle
  split
  · rfl
  · rw [← List.map_append, List.takeWhile_append_dropWhile]

/-- All tokens without a text at one place. -/
def gathered : Shift := ⟨id, fun _ => 0, id, Function.injective_id⟩

namespace Scan

/-- The end of a scan: layout tokens and the `eof`. -/
def closing (kinds : List Kind) (place : Cursor) : List Token := (kinds ++ [Kind.eof]).map (empty place)

theorem shift_closing {place place' : Cursor} (hline : place'.line = place.line) {kinds : List Kind}
    (hkinds : ∀ kind ∈ kinds, kind.isPlain = false) :
    (closing kinds place').map (Token.shift gathered) = (closing kinds place).map (Token.shift gathered) := by
  simp only [closing, List.map_map]
  refine List.map_congr_left fun kind hkind => ?_
  have hplain : kind.isPlain = false := by
    rcases List.mem_append.1 hkind with hkind | hkind
    · exact hkinds kind hkind
    · rw [List.mem_singleton.1 hkind]
      rfl
  simp only [Function.comp_apply, empty, Token.shift, Shift.offsetOf_of_not_isPlain hplain, hline]
  rfl

theorem ofPieces_blanks {last : List Piece} (h : ∀ piece ∈ last, piece.content = .blank) (place : Cursor)
    (levels : Levels) : ofPieces place levels last =
      ⟨closing (levels.map fun _ => .dedent) (place.after (last.flatMap Piece.text)), []⟩ := by
  induction last generalizing place with
  | nil => simp [ofPieces, closing, Cursor.after]
  | cons piece last ih =>
    obtain ⟨hpiece, hlast⟩ := List.forall_mem_cons.1 h
    obtain ⟨text, content⟩ := piece
    cases hpiece
    rw [List.flatMap_cons, Cursor.after_append]
    exact ih hlast (place.after text)

theorem ofPieces_margin (place : Cursor) (levels : Levels) (text : List Char) (tabbed : Bool) (width : Nat) :
    ofPieces place levels [⟨text, .newline tabbed (some width)⟩] =
      ⟨closing (if levels.top < width then .indent :: .dedent :: levels.map (fun _ => .dedent)
        else levels.map fun _ => .dedent) (place.after text),
        if tabbed then [tabDiagnostic (place.after text).line] else []⟩ := by
  rw [← Levels.change_append_dedents]
  simp [ofPieces, prepend, closing]

/-- The scan at the end is the same but for the places, unless a last line of spaces gets wider than the innermost
level. -/
theorem ofPieces_ends {last last' : List Piece} (h : Ends count last last') {place : Cursor} {levels : Levels}
    (hline : (place.after (last'.flatMap Piece.text)).line = (place.after (last.flatMap Piece.text)).line)
    (hmargin : ∀ piece width, last = [piece] → piece.width? = some width → levels.top < width + count →
      levels.top < width) :
    (ofPieces place levels last').shift gathered = (ofPieces place levels last).shift gathered := by
  have hdedents : ∀ kind ∈ levels.map (fun _ => Kind.dedent), kind.isPlain = false := by simp [Kind.isPlain]
  cases h with
  | blank hlast hlast' =>
    rw [ofPieces_blanks hlast, ofPieces_blanks hlast', shift, shift, shift_closing hline hdedents]
  | margin margin tabbed =>
    have hwidth : levels.top < margin.length + count ↔ levels.top < margin.length :=
      ⟨hmargin _ _ rfl rfl, fun h => Nat.lt_add_right count h⟩
    simp only [List.flatMap_singleton] at hline
    rw [ofPieces_margin, ofPieces_margin, shift, shift, hline, if_congr hwidth rfl rfl, shift_closing hline]
    split
    · simp [Kind.isPlain]
    · exact hdedents

end Scan

end Token

open Token

/-- Sources whose scans differ in the places of layout only compile alike. -/
theorem compile_of_shift_eq {source source' : String}
    (h : (Scan.ofSource source').shift gathered = (Scan.ofSource source).shift gathered) :
    compile source' = compile source := by
  obtain ⟨htokens, hdiagnostics⟩ := Scan.mk.inj h
  have hsame : (Scan.ofSource source').diagnostics = (Scan.ofSource source).diagnostics := by
    simpa only [gathered, Diagnostic.map_reline_id] using hdiagnostics
  have hreline : ∀ parse : Grammar.Parse, parse.reline gathered.line = parse := by
    intro parse
    rw [Grammar.Parse.reline, gathered, Lined.reline_id, Diagnostic.map_reline_id]
  have hparse : Grammar.Parse.ofTokens (Scan.ofSource source').tokens =
      Grammar.Parse.ofTokens (Scan.ofSource source).tokens := by
    rw [← hreline (Grammar.Parse.ofTokens _), ← Grammar.Parse.ofTokens_shift_ofSource, htokens,
      Grammar.Parse.ofTokens_shift_ofSource, hreline]
  simp only [compile, hsame, hparse]

/-- Spaces behind a source that compiles do not change its script, unless the source ends in a line of spaces that is
not wider than the innermost open level and becomes so. -/
theorem compile_append_spaces {source js : String} (h : compile source = .ok js) {count : Nat}
    (hmargin : ∀ front last width, pieces source.toList = front ++ [last] → last.width? = some width →
      (Levels.behind [] front).top < width + count → (Levels.behind [] front).top < width) :
    compile (source ++ String.ofList (spaces count)) = .ok js := by
  rw [← h]
  apply compile_of_shift_eq
  have hclosed : ∀ piece ∈ pieces source.toList, ∀ cause, piece.content = .fault cause → cause.isOpen = false := by
    intro piece hmem cause hcause
    obtain ⟨d, hd, -⟩ := Scan.exists_diagnostic_of_mem hmem hcause .start []
    have hnone : (Scan.ofSource source).diagnostics = [] := (compile_eq_ok_iff.1 h).1
    rw [← Scan.ofSource, hnone] at hd
    cases hd
  obtain ⟨front, last, last', hpieces, hspaces, hends⟩ := exists_pieces_append_spaces count hclosed
  obtain ⟨tokens, diagnostics, -, hfront⟩ := Scan.exists_prepend_append .start [] front
  have htext : front.flatMap Piece.text ++ last.flatMap Piece.text = source.toList := by
    rw [← List.flatMap_append, ← hpieces, flatMap_text_pieces]
  have htext' : front.flatMap Piece.text ++ last'.flatMap Piece.text = source.toList ++ spaces count := by
    rw [← List.flatMap_append, ← hspaces, flatMap_text_pieces]
  have hline : ((Cursor.start.after (front.flatMap Piece.text)).after (last'.flatMap Piece.text)).line =
      ((Cursor.start.after (front.flatMap Piece.text)).after (last.flatMap Piece.text)).line := by
    rw [← Cursor.after_append, ← Cursor.after_append, htext, htext', Cursor.line_after, Cursor.line_after,
      List.count_append, List.count_replicate, if_neg (by decide), Nat.add_zero]
  have hscan := Scan.ofPieces_ends hends hline fun piece width hlast => hmargin front piece width (by rw [hpieces, hlast])
  rw [Scan.ofSource, Scan.ofSource, String.toList_append, String.toList_ofList, hspaces, hpieces, hfront, hfront,
    Scan.shift_prepend, Scan.shift_prepend, hscan]

/-- A last line of two spaces inside a block of four, and two more. -/
theorem compile_append_spaces_block :
    compile "if x:\n    y;\n  " = .ok "\"use strict\";\nif (x) \x7b\n    y;\n\x7d\n" ∧
      compile ("if x:\n    y;\n  " ++ String.ofList (spaces 2)) = .ok "\"use strict\";\nif (x) \x7b\n    y;\n\x7d\n" := by
  have h : compile "if x:\n    y;\n  " = .ok "\"use strict\";\nif (x) \x7b\n    y;\n\x7d\n" := by decide +kernel
  have hlast : ((pieces "if x:\n    y;\n  ".toList).getLast?.bind Piece.width?) = some 2 := by decide +kernel
  have htop : (Levels.behind [] (pieces "if x:\n    y;\n  ".toList).dropLast).top = 4 := by decide +kernel
  refine ⟨h, compile_append_spaces h fun front last width hpieces hwidth hwide => ?_⟩
  rw [hpieces, List.getLast?_concat, Option.bind_some, hwidth] at hlast
  rw [hpieces, List.dropLast_concat] at htop
  cases hlast
  omega

/-- Behind the last newline the spaces are measured, and a block is put in. -/
theorem exists_script_ne_of_spaces : ∃ source js js', compile source = .ok js ∧
    compile (source ++ String.ofList (spaces 4)) = .ok js' ∧ js' ≠ js :=
  ⟨"x;\n", "\"use strict\";\nx;\n", "\"use strict\";\nx;\n\x7b\n\x7d\n", by decide +kernel, by decide +kernel, by decide⟩

end Offside
