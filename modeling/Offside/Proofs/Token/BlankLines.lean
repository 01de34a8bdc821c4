import Offside.Proofs.Token.LineEnds
import Offside.Proofs.Token.Shift

/-!
# Blank lines

A line of spaces, with a line comment behind them or not, may be put in behind any newline that ends a line.  The
pieces in front of it and behind it stay the same, with the places behind it moved.
-/

namespace Offside.Token

open String (utf8Len)

variable {text line : List Char}

/-- The faults of text that goes on to the end of the source. -/
def Fault.isOpen : Fault → Bool
  | .openComment | .openString _ => true
  | .looseSeparator | .strayCharacter => false

namespace Cut

variable {text : List Char}

/-! ## Text in front of a newline -/

/-- The piece is cut from the text in front of a newline, whatever follows it. -/
def Settled (first : Char) (text : List Char) : Prop :=
  ∃ piece rest, piece.text ++ rest = first :: text ∧
    ∀ back, ofFirst first (text ++ '\n' :: back) = ⟨piece, rest ++ '\n' :: back⟩

theorem settled_newline (text : List Char) : Settled '\n' text := by
  obtain ⟨width, hwidth⟩ : ∃ width, ∀ back, (if isMeasured (text.dropWhile isIndentation ++ '\n' :: back) then
      some (text.takeWhile isIndentation).length else none) = width :=
    ⟨_, fun back => by
      rw [isMeasured_append (endsLine_newline back) (endsLine_newline []) (by simp) (text.dropWhile isIndentation)]⟩
  refine ⟨⟨'\n' :: text.takeWhile isIndentation, .newline ((text.takeWhile isIndentation).contains '\t') width⟩,
    text.dropWhile isIndentation, ?_, fun back => ?_⟩
  · rw [List.cons_append, List.takeWhile_append_dropWhile]
  · change newline (text ++ '\n' :: back) = _
    rw [newline_append (endsLine_newline back), hwidth]

/-- A text that ends in another character does not take the newline behind it. -/
theorem exists_rest_of_append {front rest : List Char} {last : Char} (hlast : front.getLast? = some last)
    (hne : last ≠ '\n') (h : front ++ rest = text ++ ['\n']) : ∃ rest', front ++ rest' = text := by
  rcases List.eq_nil_or_concat rest with rfl | ⟨rest', c, rfl⟩
  · rw [List.append_nil] at h
    rw [h, List.getLast?_concat] at hlast
    exact absurd (Option.some.inj hlast).symm hne
  · rw [List.concat_eq_append, ← List.append_assoc] at h
    exact ⟨rest', (List.append_inj' h rfl).1⟩

/-- What is cut off at the front of a text ends inside of it, and not with a newline. -/
def Closed (first : Char) (text : List Char) : Prop :=
  ∃ piece body rest last, first :: body = piece.text ∧ body ++ rest = text ∧ body.getLast? = some last ∧ last ≠ '\n' ∧
    ∀ back, ofFirst first (body ++ back) = ⟨piece, back⟩

theorem closed_blockComment (h : ∀ cause, (comment ('*' :: text)).piece.content = .fault cause → cause.isOpen = false) :
    Closed '#' ('*' :: text) := by
  cases hbody : commentBody? text with
  | none =>
    have hopen := h .openComment (by simp [comment, hbody])
    cases hopen
  | some found =>
    obtain ⟨hlast, hsame⟩ := commentBody?_append hbody
    refine ⟨⟨'#' :: '*' :: found.1, .blank⟩, '*' :: found.1, found.2, '#', rfl,
      congrArg _ (append_of_commentBody? hbody), ?_, by decide, fun back => ?_⟩
    · rw [List.getLast?_cons, hlast, Option.getD_some]
    · change comment ('*' :: (found.1 ++ back)) = _
      rw [comment, hsame]

theorem closed_string {quote : Char} (hquote : isQuote quote = true)
    (h : ∀ cause, (ofFirst quote text).piece.content = .fault cause → cause.isOpen = false) : Closed quote text := by
  rw [ofFirst_quote hquote] at h
  cases hbody : stringBody? quote text with
  | none =>
    have hopen := h (.openString quote) (by simp [string, hbody])
    cases hopen
  | some s =>
    obtain ⟨hlast, hsame⟩ := stringBody?_append (ne_of_isQuote hquote rfl) hbody
    refine ⟨⟨quote :: s.text, .token (.string (String.ofList s.value))⟩, s.text, s.rest, quote, rfl,
      append_of_stringBody? hbody, hlast, ne_of_isQuote hquote rfl, fun back => ?_⟩
    rw [ofFirst_quote hquote, string, hsame]

theorem Closed.settled {first : Char} (h : Closed first (text ++ ['\n'])) : Settled first text := by
  obtain ⟨piece, body, rest, last, htext, hwhole, hlast, hne, hsame⟩ := h
  obtain ⟨rest, rfl⟩ := exists_rest_of_append hlast hne hwhole
  exact ⟨piece, rest, by rw [← htext, List.cons_append], fun back => by rw [List.append_assoc, hsame]⟩

theorem settled_comment
    (h : ∀ cause, (comment (text ++ ['\n'])).piece.content = .fault cause → cause.isOpen = false) : Settled '#' text := by
  by_cases hstar : text.head? = some '*'
  · obtain ⟨inside, rfl⟩ := List.head?_eq_some_iff.1 hstar
    exact Closed.settled (closed_blockComment h)
  · refine ⟨⟨'#' :: text.takeWhile (· ≠ '\n'), .blank⟩, text.dropWhile (· ≠ '\n'), ?_, fun back => ?_⟩
    · rw [List.cons_append, List.takeWhile_append_dropWhile]
    · have hhead : (text ++ '\n' :: back).head? ≠ some '*' := by
        cases text with
        | nil => simp
        | cons c text => exact hstar
      change comment (text ++ '\n' :: back) = _
      rw [comment_of_head hhead, run_append (by simp)]
      rfl

theorem settled_ofFirst {first : Char}
    (h : ∀ cause, (ofFirst first (text ++ ['\n'])).piece.content = .fault cause → cause.isOpen = false) :
    Settled first text := by
  by_cases hnewline : first = '\n'
  · subst hnewline
    exact settled_newline text
  by_cases hmark : first = '#'
  · subst hmark
    exact settled_comment h
  cases hquote : isQuote first with
  | true => exact (closed_string hquote h).settled
  | false => exact ⟨(ofFirst first text).piece, (ofFirst first text).rest, whole_ofFirst first text,
      fun back => ofFirst_append hnewline hmark hquote (endsLine_newline back).parted text⟩

end Cut

/-- What stands in front of a newline is cut into the same pieces whatever follows, unless a string or a comment goes
on. -/
theorem exists_pieces_append
    (h : ∀ piece ∈ pieces (text ++ ['\n']), ∀ cause, piece.content = .fault cause → cause.isOpen = false) :
    ∃ front, front.flatMap Piece.text = text ∧ ∀ back, pieces (text ++ '\n' :: back) = front ++ pieces ('\n' :: back) := by
  induction hsize : text.length using Nat.strong_induction_on generalizing text with
  | _ size ih =>
    cases text with
    | nil => exact ⟨[], rfl, fun back => rfl⟩
    | cons first text =>
      rw [List.cons_append, pieces, List.forall_mem_cons] at h
      obtain ⟨piece, rest, hwhole, hcut⟩ := Cut.settled_ofFirst h.1
      have hpieces := h.2
      rw [hcut []] at hpieces
      have hshorter : rest.length < size := by
        have hne := Cut.text_ofFirst_ne_nil first (text ++ ['\n'])
        rw [hcut []] at hne
        have hpos := List.length_pos_iff.2 hne
        have hlength := congrArg List.length hwhole
        simp only [List.length_append, List.length_cons] at hlength hsize
        simp only at hpos
        omega
      obtain ⟨front, hfront, hsame⟩ := ih rest.length hshorter hpieces rfl
      refine ⟨piece :: front, by rw [List.flatMap_cons, hfront, hwhole], fun back => ?_⟩
      rw [List.cons_append, pieces, hcut, hsame, List.cons_append]

/-! ## A line put in -/

/-- A line that holds no code: spaces, with a line comment behind them or not. -/
inductive BlankLine : List Char → Prop
  | spaces (width : Nat) : BlankLine (List.replicate width ' ')
  | comment (width : Nat) {text : List Char} : '\n' ∉ text → text.head? ≠ some '*' →
      BlankLine (List.replicate width ' ' ++ '#' :: text)

theorem BlankLine.newline_notMem (h : BlankLine line) : '\n' ∉ line := by
  cases h with
  | spaces width => simp
  | comment width htext _ => simp [htext]

theorem pieces_newline_spaces (width : Nat) {c : Char} (hc : Cut.isIndentation c = false)
    (hblank : Cut.isMeasured (c :: text) = false) : pieces ('\n' :: (List.replicate width ' ' ++ c :: text)) =
      ⟨'\n' :: List.replicate width ' ', .newline false none⟩ :: pieces (c :: text) := by
  have hspaces : ∀ d ∈ List.replicate width ' ', Cut.isIndentation d = true := by
    intro d hd
    rw [List.eq_of_mem_replicate hd]
    rfl
  have htake : (List.replicate width ' ' ++ c :: text).takeWhile Cut.isIndentation = List.replicate width ' ' := by
    rw [List.takeWhile_append_of_pos hspaces, List.takeWhile_cons_of_neg (by simp [hc]), List.append_nil]
  have hdrop : (List.replicate width ' ' ++ c :: text).dropWhile Cut.isIndentation = c :: text := by
    rw [List.dropWhile_append_of_pos hspaces, List.dropWhile_cons_of_neg (by simp [hc])]
  have htabs : (List.replicate width ' ').contains '\t' = false := by simp
  simp only [pieces_newline, Cut.newline, htake, hdrop, htabs, hblank, Bool.false_eq_true, if_false]

/-- What a blank line puts between two newlines is passed over. -/
theorem exists_pieces_blankLine (h : BlankLine line) :
    ∃ skipped : List Piece, skipped.flatMap Piece.text = '\n' :: line ∧
      (∀ piece ∈ skipped, piece.content = .blank ∨ piece.content = .newline false none) ∧
        ∀ back, pieces ('\n' :: (line ++ '\n' :: back)) = skipped ++ pieces ('\n' :: back) := by
  cases h with
  | spaces width =>
    refine ⟨[⟨'\n' :: List.replicate width ' ', .newline false none⟩], by simp, by simp, fun back => ?_⟩
    exact pieces_newline_spaces width rfl rfl
  | comment width htext hstar =>
    rename_i text
    refine ⟨[⟨'\n' :: List.replicate width ' ', .newline false none⟩, ⟨'#' :: text, .blank⟩], by simp, by simp,
      fun back => ?_⟩
    have hmeasured : Cut.isMeasured ('#' :: (text ++ '\n' :: back)) = false := by
      cases text with
      | nil => rfl
      | cons c text =>
        rw [List.cons_append, Cut.isMeasured_mark]
        simpa using hstar
    rw [List.append_assoc, List.cons_append, pieces_newline_spaces width rfl hmeasured, pieces_lineComment htext hstar]
    rfl

/-- The places of a text with a line put in at a place, behind a newline of its own. -/
def Cursor.insertion (place : Cursor) (line : List Char) : Shift where
  offset o := if o ≤ place.offset then o else o + utf8Len ('\n' :: line)
  margin o := if o ≤ place.offset then o else o + utf8Len ('\n' :: line)
  line l := if l ≤ place.line then l else l + 1
  injective := by
    intro o o' h
    simp only at h
    split at h <;> split at h <;> omega

theorem Cursor.shift_insertion_of_prefix {taken : List Char} (start : Cursor) (line : List Char)
    (h : taken <+: text) : (start.after taken).shift ((start.after text).insertion line) = start.after taken := by
  obtain ⟨back, rfl⟩ := h
  have hoffset : start.offset + utf8Len taken ≤ start.offset + utf8Len (taken ++ back) := by
    rw [String.utf8Len_append]
    omega
  have hline : start.line + taken.count '\n' ≤ start.line + (taken ++ back).count '\n' := by
    rw [List.count_append]
    omega
  rw [after_eq, after_eq, shift, insertion]
  simp only [if_pos hoffset, if_pos hline]

/-- The places behind the line move by one line. -/
theorem Cursor.shift_insertion_newline (place : Cursor) (hline : '\n' ∉ line) (taken : List Char) :
    (place.after ('\n' :: taken)).shift (place.insertion line) =
      (place.after ('\n' :: line)).after ('\n' :: taken) := by
  have hoffset : ¬ place.offset + utf8Len ('\n' :: taken) ≤ place.offset := by
    rw [String.utf8Len_cons]
    have hsize : '\n'.utf8Size = 1 := rfl
    omega
  have hlines : ¬ place.line + ('\n' :: taken).count '\n' ≤ place.line := by
    rw [List.count_cons_self]
    omega
  have hone : ('\n' :: line).count '\n' = 1 := by
    rw [List.count_cons_self, List.count_eq_zero.2 hline]
  rw [after_eq, after_eq, after_eq, shift, insertion]
  simp only [if_neg hoffset, if_neg hlines, hone, Cursor.mk.injEq]
  omega

section
variable {moved : Shift} {place place' : Cursor}

theorem Alike.skips {skipped pieces pieces' : List Piece}
    (hskipped : ∀ piece ∈ skipped, piece.content = .blank ∨ piece.content = .newline false none)
    (h : Alike moved place pieces (place'.after (skipped.flatMap Piece.text)) pieces') :
    Alike moved place pieces place' (skipped ++ pieces') := by
  induction skipped generalizing place' with
  | nil => exact h
  | cons piece skipped ih =>
    rw [List.forall_mem_cons] at hskipped
    rw [List.flatMap_cons, Cursor.after_append] at h
    exact .skip hskipped.1 (ih hskipped.2 h)

/-- The same text from a newline on, where the places behind the newline go with each other. -/
theorem alike_of_newline {back : List Char}
    (hplaces : ∀ taken, place'.after ('\n' :: taken) = (place.after ('\n' :: taken)).shift moved) :
    Alike moved place (pieces ('\n' :: back)) place' (pieces ('\n' :: back)) := by
  let margin := '\n' :: back.takeWhile Cut.isIndentation
  have hafter : ∀ taken, (place'.after margin).after taken = ((place.after margin).after taken).shift moved := by
    intro taken
    rw [← Cursor.after_append, ← Cursor.after_append]
    exact hplaces _
  have hrest : Alike moved (place.after margin) (pieces (Cut.newline back).rest ++ []) (place'.after margin)
      (pieces (Cut.newline back).rest ++ []) := by
    apply Alike.append fun taken _ => hafter taken
    rw [hafter]
    exact .nil
  rw [List.append_nil] at hrest
  rw [pieces_newline]
  exact .newline (hplaces _) hrest

end

/-- A blank line behind a newline leaves the pieces as they are. -/
theorem alike_blankLine {front : List Char} (hline : BlankLine line)
    (hclosed : ∀ piece ∈ pieces (front ++ ['\n']), ∀ cause, piece.content = .fault cause → cause.isOpen = false)
    (start : Cursor) (back : List Char) :
    Alike ((start.after front).insertion line) start (pieces (front ++ '\n' :: back)) start
      (pieces (front ++ '\n' :: (line ++ '\n' :: back))) := by
  obtain ⟨before, hbefore, hsame⟩ := exists_pieces_append hclosed
  obtain ⟨skipped, htext, hskipped, hpieces⟩ := exists_pieces_blankLine hline
  rw [hsame, hsame, hpieces]
  apply Alike.append
  · intro taken htaken
    rw [hbefore] at htaken
    exact (Cursor.shift_insertion_of_prefix start line htaken).symm
  · rw [hbefore]
    apply Alike.skips hskipped
    rw [htext]
    exact alike_of_newline fun taken => (Cursor.shift_insertion_newline _ hline.newline_notMem taken).symm

end Offside.Token
