import Offside.Proofs.Token.LineEnds
import Offside.Proofs.Token.Shift
import Offside.Proofs.Token.Tiling

/-!
# Returns in front of newlines

With a return in front of every newline a text has the same pieces, but for the returns themselves: they are blanks, or
stand at the end of a comment.
-/

namespace Offside.Token

open String (utf8Len)

variable {text : List Char}

/-- The text with a return in front of every newline. -/
def crlf (text : List Char) : List Char := text.flatMap fun c => if c = '\n' then ['\r', '\n'] else [c]

theorem crlf_newline (text : List Char) : crlf ('\n' :: text) = '\r' :: '\n' :: crlf text := rfl

theorem crlf_cons {c : Char} (h : c ≠ '\n') (text : List Char) : crlf (c :: text) = c :: crlf text := by
  rw [crlf, List.flatMap_cons, if_neg h]
  rfl

theorem crlf_append (front back : List Char) : crlf (front ++ back) = crlf front ++ crlf back := List.flatMap_append

theorem crlf_of_notMem (h : '\n' ∉ text) : crlf text = text := by
  induction text with
  | nil => rfl
  | cons c text ih =>
    rw [List.mem_cons, not_or] at h
    rw [crlf_cons (Ne.symm h.1), ih h.2]

theorem endsLine_crlf (h : EndsLine text) : EndsLine (crlf text) := by
  cases text with
  | nil => exact h
  | cons c text =>
    rcases h c rfl with rfl | rfl
    · simp [EndsLine, crlf_newline]
    · rw [crlf_cons (by decide)]
      exact h

theorem exists_line (text : List Char) : ∃ line back, text = line ++ back ∧ '\n' ∉ line ∧ EndsLine back := by
  refine ⟨text.takeWhile (· ≠ '\n'), text.dropWhile (· ≠ '\n'), List.takeWhile_append_dropWhile.symm, ?_, ?_⟩
  · intro hmem
    simpa using List.mem_takeWhile_imp hmem
  · intro c hc
    have hstop := List.head?_dropWhile_not (· ≠ '\n') text
    rw [Option.mem_def] at hc
    rw [hc] at hstop
    exact .inl (by simpa using hstop)

namespace Cut

variable {text : List Char} {first : Char}

theorem commentBody?_crlf (text : List Char) :
    commentBody? (crlf text) = (commentBody? text).map fun found => (crlf found.1, crlf found.2) := by
  fun_induction commentBody? text with
  | case1 => rfl
  | case2 rest => rfl
  | case3 c rest hopen ih =>
    by_cases hnewline : c = '\n'
    · subst hnewline
      rw [crlf_newline, commentBody?_cons (by simp), commentBody?_cons (by simp), ih]
      cases commentBody? rest <;> rfl
    · have hmark : ¬ (c = '*' ∧ (crlf rest).head? = some '#') := by
        rintro ⟨rfl, hhead⟩
        cases rest with
        | nil => cases hhead
        | cons d rest =>
          by_cases hd : d = '\n'
          · subst hd
            cases hhead
          · rw [crlf_cons hd] at hhead
            cases hhead
            exact hopen rest rfl rfl
      rw [crlf_cons hnewline, commentBody?_cons hmark, ih]
      cases commentBody? rest with
      | none => rfl
      | some found => simp [crlf_cons hnewline]

theorem stringBody?_crlf_none {quote : Char} (hquote : isQuote quote = true)
    (h : stringBody? quote text = none) : stringBody? quote (crlf text) = none := by
  -- Neither of the two characters that end a line closes a string.
  have hskip : ∀ {c : Char} {text : List Char}, isQuote c = false → c ≠ '\\' → stringBody? quote text = none →
      stringBody? quote (c :: text) = none := by
    intro c text hc hbackslash htext
    rw [stringBody?_plain (ne_of_isQuote hquote hc).symm hbackslash, htext, Option.map_none]
  have hend : ∀ {text : List Char}, stringBody? quote text = none → stringBody? quote ('\r' :: '\n' :: text) = none :=
    fun htext => hskip rfl (by decide) (hskip rfl (by decide) htext)
  fun_induction stringBody? quote text with
  | case1 => rfl
  | case2 => cases h
  | case3 c hc =>
    by_cases hnewline : c = '\n'
    · subst hnewline
      exact hend rfl
    · rw [crlf_cons hnewline]
      simp [crlf, stringBody?, hc]
  | case4 => cases h
  | case5 d rest _ ih =>
    have hrest := ih (Option.map_eq_none_iff.1 h)
    rw [crlf_cons (by decide)]
    by_cases hnewline : d = '\n'
    · subst hnewline
      rw [crlf_newline, stringBody?_backslash (ne_of_isQuote hquote rfl).symm, hskip rfl (by decide) hrest, Option.map_none]
    · rw [crlf_cons hnewline, stringBody?_backslash (ne_of_isQuote hquote rfl).symm, hrest, Option.map_none]
  | case6 c d rest hc hbackslash ih =>
    have hrest := ih (Option.map_eq_none_iff.1 h)
    by_cases hnewline : c = '\n'
    · subst hnewline
      exact hend hrest
    · rw [crlf_cons hnewline, stringBody?_plain hc hbackslash, hrest, Option.map_none]

/-- The cut with returns in front of all newlines. -/
def crlf (cut : Cut) : Cut := ⟨⟨Token.crlf cut.piece.text, cut.piece.content⟩, Token.crlf cut.rest⟩

/-- The piece is cut from the text with returns as well, and what is shown of it stays the same. -/
structure Returns (first : Char) (text : List Char) : Prop where
  cut : ofFirst first (Token.crlf text) = (ofFirst first text).crlf
  token : ∀ kind, (ofFirst first text).piece.content = .token kind →
    Token.crlf (ofFirst first text).piece.text = (ofFirst first text).piece.text
  shown : ∀ cause, (ofFirst first text).piece.content = .fault cause →
    Scan.shown (Token.crlf (ofFirst first text).piece.text) cause = Scan.shown (ofFirst first text).piece.text cause

theorem crlf_ofFirst {line : List Char} (hfirst : first ≠ '\n') (hline : '\n' ∉ line) :
    Token.crlf (ofFirst first line).piece.text = (ofFirst first line).piece.text ∧
      Token.crlf (ofFirst first line).rest = (ofFirst first line).rest := by
  have hwhole := whole_ofFirst first line
  have hnotMem : '\n' ∉ (ofFirst first line).piece.text ++ (ofFirst first line).rest := by
    change '\n' ∉ (ofFirst first line).whole
    rw [hwhole, List.mem_cons, not_or]
    exact ⟨hfirst.symm, hline⟩
  rw [List.mem_append, not_or] at hnotMem
  exact ⟨crlf_of_notMem hnotMem.1, crlf_of_notMem hnotMem.2⟩

theorem returns_line {line : List Char} (hfirst : first ≠ '\n') (hline : '\n' ∉ line) : Returns first line := by
  obtain ⟨htext, hrest⟩ := crlf_ofFirst hfirst hline
  refine ⟨?_, fun _ _ => htext, fun _ _ => by rw [htext]⟩
  rw [crlf_of_notMem hline, crlf, htext, hrest]

theorem returns_blockComment (inside : List Char) : Returns '#' ('*' :: inside) := by
  have hcut : ∀ text, ofFirst '#' text = comment text := fun _ => rfl
  have hcomment : comment ('*' :: Token.crlf inside) = (comment ('*' :: inside)).crlf := by
    simp only [comment, commentBody?_crlf]
    cases commentBody? inside <;> rfl
  refine ⟨?_, ?_, ?_⟩
  · rw [crlf_cons (by decide), hcut, hcut, hcomment]
  · simp only [hcut, comment]
    cases commentBody? inside <;> simp
  · simp only [hcut, comment]
    cases commentBody? inside <;> simp [Scan.shown]

theorem returns_string {quote : Char} (hquote : isQuote quote = true)
    (h : ∀ value, (string quote text).piece.content = .token (.string value) → '\n' ∉ (string quote text).piece.text) :
    Returns quote text := by
  have hne : quote ≠ '\n' := ne_of_isQuote hquote rfl
  cases hbody : stringBody? quote text with
  | none =>
    have hcut : ofFirst quote text = ⟨⟨quote :: text, .fault (.openString quote)⟩, []⟩ := by
      rw [ofFirst_quote hquote, string, hbody]
    refine ⟨?_, ?_, ?_⟩
    · rw [hcut, ofFirst_quote hquote, string, stringBody?_crlf_none hquote hbody, crlf, crlf_cons hne]
      rfl
    · rw [hcut]
      intro kind hkind
      cases hkind
    · rw [hcut]
      intro cause hcause
      cases hcause
      rfl
  | some s =>
    have hcut : string quote text = ⟨⟨quote :: s.text, .token (.string (String.ofList s.value))⟩, s.rest⟩ := by
      rw [string, hbody]
    rw [hcut] at h
    have hsame := crlf_of_notMem (h _ rfl)
    have hinner : Token.crlf s.text = s.text := (List.cons.inj ((crlf_cons hne s.text).symm.trans hsame)).2
    have hcrlf : Token.crlf text = s.text ++ Token.crlf s.rest := by
      rw [← append_of_stringBody? hbody, crlf_append, hinner]
    have happend := (stringBody?_append (ne_of_isQuote hquote rfl) hbody).2 (Token.crlf s.rest)
    refine ⟨?_, fun _ _ => ?_, ?_⟩
    · rw [ofFirst_quote hquote, ofFirst_quote hquote, hcut, string, hcrlf, happend, crlf, hsame]
    · rw [ofFirst_quote hquote, hcut, hsame]
    · rw [ofFirst_quote hquote, hcut]
      intro cause hcause
      cases hcause

theorem returns_ofFirst (hnewline : first ≠ '\n') (hmark : first = '#' → text.head? = some '*' ∨ '\n' ∉ text)
    (hstring : ∀ value, (ofFirst first text).piece.content = .token (.string value) →
      '\n' ∉ (ofFirst first text).piece.text) : Returns first text := by
  by_cases hcomment : first = '#'
  · subst hcomment
    rcases hmark rfl with hstar | hline
    · obtain ⟨inside, rfl⟩ := List.head?_eq_some_iff.1 hstar
      exact returns_blockComment inside
    · exact returns_line hnewline hline
  cases hquote : isQuote first with
  | true =>
    rw [ofFirst_quote hquote] at hstring
    exact returns_string hquote hstring
  | false =>
    obtain ⟨line, back, rfl, hline, hback⟩ := exists_line text
    obtain ⟨htext, hrest⟩ := crlf_ofFirst hnewline hline
    have hcut := ofFirst_append hnewline hcomment hquote hback.parted line
    have hcut' := ofFirst_append hnewline hcomment hquote (endsLine_crlf hback).parted line
    refine ⟨?_, fun _ _ => ?_, fun _ _ => ?_⟩
    · rw [crlf_append, crlf_of_notMem hline, hcut, hcut', crlf, extend, extend, htext, crlf_append, hrest]
    · rw [hcut]
      exact htext
    · rw [hcut]
      exact congrArg (Scan.shown · _) htext

/-- The indentation of a line does not change. -/
theorem newline_crlf (text : List Char) :
    newline (Token.crlf text) = ⟨(newline text).piece, Token.crlf (newline text).rest⟩ := by
  obtain ⟨line, back, rfl, hline, hback⟩ := exists_line text
  have hnil : Token.crlf back = [] ↔ back = [] := by
    cases back with
    | nil => simp [Token.crlf]
    | cons c back => rcases hback c rfl with rfl | rfl <;> simp [Token.crlf]
  have hrest : '\n' ∉ line.dropWhile isIndentation := fun hmem => hline ((List.dropWhile_suffix _).subset hmem)
  rw [crlf_append, crlf_of_notMem hline, newline_append hback, newline_append (endsLine_crlf hback),
    isMeasured_append (endsLine_crlf hback) hback hnil, crlf_append, crlf_of_notMem hrest]

end Cut

theorem crlf_text_newline (text : List Char) :
    crlf (Cut.newline text).piece.text = '\r' :: (Cut.newline text).piece.text := by
  have hmargin : '\n' ∉ text.takeWhile Cut.isIndentation := fun hmem => by
    have hindent := List.mem_takeWhile_imp hmem
    cases hindent
  change crlf ('\n' :: text.takeWhile Cut.isIndentation) = _
  rw [crlf_newline, crlf_of_notMem hmargin]
  rfl

section
variable {moved : Shift} {place place' : Cursor}

/-- The places of a text and of the text with returns go with each other. -/
def Follows (moved : Shift) (place place' : Cursor) (text : List Char) : Prop :=
  ∀ taken, taken <+: text → place'.after (crlf taken) = (place.after taken).shift moved

theorem Follows.after {front back : List Char} (h : Follows moved place place' (front ++ back)) :
    Follows moved (place.after front) (place'.after (crlf front)) back := by
  intro taken htaken
  rw [← Cursor.after_append, ← Cursor.after_append, ← crlf_append]
  exact h _ ((List.prefix_append_right_inj front).2 htaken)

/-- A newline behind its return, and what follows it. -/
theorem alike_newline (h : Follows moved place place' ('\n' :: text))
    (hrest : ∀ place place', Follows moved place place' (Cut.newline text).rest →
      Alike moved place (pieces (Cut.newline text).rest) place' (pieces (crlf (Cut.newline text).rest))) :
    Alike moved place (pieces ('\n' :: text)) (place'.after ['\r']) (pieces ('\n' :: crlf text)) := by
  have hwhole : (Cut.newline text).piece.text ++ (Cut.newline text).rest = '\n' :: text := Cut.whole_newline text
  have hreturn : (place'.after ['\r']).after (Cut.newline text).piece.text =
      place'.after (crlf (Cut.newline text).piece.text) := by
    rw [crlf_text_newline, ← Cursor.after_append]
    rfl
  have hnext := hreturn.trans (h _ ⟨_, hwhole⟩)
  rw [← hwhole] at h
  have hothers := hrest _ _ h.after
  rw [← hreturn] at hothers
  rw [pieces_newline, pieces_newline, Cut.newline_crlf]
  exact Alike.newline hnext hothers

theorem alike_lineComment {line : List Char} (hline : '\n' ∉ line) (hstar : line.head? ≠ some '*')
    (h : Follows moved place place' ('#' :: (line ++ '\n' :: text)))
    (hrest : ∀ place place', Follows moved place place' (Cut.newline text).rest →
      Alike moved place (pieces (Cut.newline text).rest) place' (pieces (crlf (Cut.newline text).rest))) :
    Alike moved place (pieces ('#' :: (line ++ '\n' :: text))) place'
      (pieces (crlf ('#' :: (line ++ '\n' :: text)))) := by
  have hcomment : crlf ('#' :: line) = '#' :: line := by
    rw [crlf_cons (by decide), crlf_of_notMem hline]
  have hcrlf : crlf ('#' :: (line ++ '\n' :: text)) = '#' :: ((line ++ ['\r']) ++ '\n' :: crlf text) := by
    rw [crlf_cons (by decide), crlf_append, crlf_of_notMem hline, crlf_newline, List.append_assoc]
    rfl
  have hline' : '\n' ∉ line ++ ['\r'] := by simpa using hline
  have hstar' : (line ++ ['\r']).head? ≠ some '*' := by
    cases line with
    | nil => simp
    | cons c line => exact hstar
  rw [hcrlf, pieces_lineComment hline hstar, pieces_lineComment hline' hstar']
  -- The return is part of the comment.
  refine .blank (.skip (.inl rfl) ?_)
  have hfollows : Follows moved (place.after ('#' :: line)) (place'.after ('#' :: line)) ('\n' :: text) := by
    rw [← List.cons_append] at h
    have hafter := h.after
    rwa [hcomment] at hafter
  have halike := alike_newline hfollows hrest
  rwa [← Cursor.after_append] at halike

/-- A piece that does not end in front of a return, and what follows it. -/
theorem alike_cut {first : Char} (hfirst : first ≠ '\n') (hcut : Cut.Returns first text)
    (h : Follows moved place place' (first :: text))
    (hrest : ∀ place place', Follows moved place place' (Cut.ofFirst first text).rest →
      Alike moved place (pieces (Cut.ofFirst first text).rest) place' (pieces (crlf (Cut.ofFirst first text).rest))) :
    Alike moved place (pieces (first :: text)) place' (pieces (crlf (first :: text))) := by
  obtain rfl : place' = place.shift moved := h [] List.nil_prefix
  obtain ⟨hsame, htoken, hshown⟩ := hcut
  rw [crlf_cons hfirst, pieces, pieces, hsame]
  have hwhole := Cut.whole_ofFirst first text
  cases hreply : Cut.ofFirst first text with
  | mk piece rest =>
    rw [hreply] at hrest htoken hshown hwhole
    rw [← hwhole] at h
    have hnext := h _ ⟨_, rfl⟩
    have hothers := hrest _ _ h.after
    obtain ⟨piece, content⟩ := piece
    cases content with
    | blank => exact .blank (.skip (.inl rfl) hothers)
    | newline tabbed width => exact .newline hnext hothers
    | fault cause => exact .fault (hshown cause rfl) hothers
    | token kind =>
      have htext : crlf piece = piece := htoken kind rfl
      simp only [Cut.crlf, htext] at hnext hothers ⊢
      exact .token hnext hothers

/-- The pieces of a text with returns are those of the text, but for the returns. -/
theorem alike_crlf (hplaces : Follows moved place place' text)
    (hstrings : ∀ piece ∈ pieces text, ∀ value, piece.content = .token (.string value) → '\n' ∉ piece.text) :
    Alike moved place (pieces text) place' (pieces (crlf text)) := by
  induction hsize : text.length using Nat.strong_induction_on generalizing text place place' with
  | _ size ih =>
    have hstart : place' = place.shift moved := hplaces [] List.nil_prefix
    cases text with
    | nil =>
      rw [hstart, crlf, List.flatMap_nil, pieces]
      exact .nil
    | cons first text =>
      by_cases hnewline : first = '\n'
      · subst hnewline
        have hreturn : pieces (crlf ('\n' :: text)) = ⟨['\r'], .blank⟩ :: pieces ('\n' :: crlf text) := by
          rw [crlf_newline, pieces]
          rfl
        rw [hreturn]
        refine .skip (.inl rfl) (alike_newline hplaces fun place place' hrest => ?_)
        rw [pieces_newline, List.forall_mem_cons] at hstrings
        have hshorter : (Cut.newline text).rest.length < size :=
          hsize ▸ Cut.length_rest_ofFirst '\n' text
        exact ih _ hshorter hrest hstrings.2 rfl
      by_cases hline : first = '#' ∧ text.head? ≠ some '*' ∧ '\n' ∈ text
      · obtain ⟨rfl, hstar, hmem⟩ := hline
        obtain ⟨line, rest, rfl, hline⟩ := List.eq_append_cons_of_mem hmem
        have hstar' : line.head? ≠ some '*' := fun hhead => hstar (by
          obtain ⟨others, rfl⟩ := List.head?_eq_some_iff.1 hhead
          rfl)
        rw [pieces_lineComment hline hstar', List.forall_mem_cons, pieces_newline, List.forall_mem_cons] at hstrings
        refine alike_lineComment hline hstar' hplaces fun place place' hrest => ?_
        have hshorter : (Cut.newline rest).rest.length < size := by
          have hlength := Cut.length_rest_ofFirst '\n' rest
          simp only [List.length_cons, List.length_append] at hsize hlength
          exact Nat.lt_of_lt_of_le hlength (by omega)
        exact ih _ hshorter hrest hstrings.2.2 rfl
      · rw [pieces, List.forall_mem_cons] at hstrings
        have hmark : first = '#' → text.head? = some '*' ∨ '\n' ∉ text := by
          intro hfirst
          by_contra hboth
          rw [not_or, not_not] at hboth
          exact hline ⟨hfirst, hboth⟩
        refine alike_cut hnewline (Cut.returns_ofFirst hnewline hmark hstrings.1) hplaces fun place place' hrest => ?_
        exact ih _ (hsize ▸ Cut.length_rest_ofFirst first text) hrest hstrings.2 rfl

end

/-! ## The places of a text with returns -/

theorem utf8Len_crlf (text : List Char) : utf8Len (crlf text) = utf8Len text + text.count '\n' := by
  induction text with
  | nil => rfl
  | cons c text ih =>
    by_cases hc : c = '\n'
    · subst hc
      have hreturn : '\r'.utf8Size = 1 := rfl
      rw [crlf_newline, List.count_cons_self]
      simp only [String.utf8Len_cons, ih]
      omega
    · rw [crlf_cons hc, List.count_cons_of_ne hc]
      simp only [String.utf8Len_cons, ih]
      omega

theorem count_newline_crlf (text : List Char) : (crlf text).count '\n' = text.count '\n' := by
  induction text with
  | nil => rfl
  | cons c text ih =>
    by_cases hc : c = '\n'
    · subst hc
      rw [crlf_newline, List.count_cons_of_ne (by decide), List.count_cons_self, List.count_cons_self, ih]
    · rw [crlf_cons hc, List.count_cons_of_ne hc, List.count_cons_of_ne hc, ih]

/-- The newlines in the first bytes of a text. -/
def newlinesWithin : List Char → Nat → Nat
  | [], _ => 0
  | c :: text, bytes =>
    if c.utf8Size ≤ bytes then [c].count '\n' + newlinesWithin text (bytes - c.utf8Size) else 0

theorem newlinesWithin_mono (text : List Char) {bytes bytes' : Nat} (h : bytes ≤ bytes') :
    newlinesWithin text bytes ≤ newlinesWithin text bytes' := by
  induction text generalizing bytes bytes' with
  | nil => exact Nat.le_refl 0
  | cons c text ih =>
    rw [newlinesWithin, newlinesWithin]
    by_cases hbytes : c.utf8Size ≤ bytes
    · rw [if_pos hbytes, if_pos (hbytes.trans h)]
      exact Nat.add_le_add_left (ih (Nat.sub_le_sub_right h _)) _
    · rw [if_neg hbytes]
      exact Nat.zero_le _

theorem newlinesWithin_utf8Len {taken : List Char} (h : taken <+: text) :
    newlinesWithin text (utf8Len taken) = taken.count '\n' := by
  induction taken generalizing text with
  | nil =>
    cases text with
    | nil => rfl
    | cons c text =>
      have hpos := c.utf8Size_pos
      rw [newlinesWithin, String.utf8Len_nil, if_neg (by omega)]
      rfl
  | cons c taken ih =>
    obtain ⟨back, rfl⟩ := h
    rw [List.cons_append, newlinesWithin, String.utf8Len_cons, if_pos (Nat.le_add_left _ _), Nat.add_sub_cancel,
      ih ⟨back, rfl⟩, ← List.count_append, List.singleton_append]

/-- The places of a text with a return in front of every newline. -/
def returnShift (text : List Char) : Shift where
  offset o := o + newlinesWithin text o
  margin o := o + newlinesWithin text o
  line := id
  injective := by
    have hmono : StrictMono fun o => o + newlinesWithin text o := fun o o' h =>
      Nat.add_lt_add_of_lt_of_le h (newlinesWithin_mono text h.le)
    exact hmono.injective

theorem follows_returnShift (text : List Char) : Follows (returnShift text) .start .start text := by
  intro taken htaken
  simp only [Cursor.after_eq, utf8Len_crlf, count_newline_crlf, Cursor.shift, returnShift, Cursor.start, Nat.zero_add,
    newlinesWithin_utf8Len htaken, id_eq]

end Offside.Token
