import Mathlib.Data.List.Basic
import Mathlib.Data.List.TakeWhile
import Offside.Token.Layout

/-!
# The ends of lines

But for strings and comments, no piece goes on behind the end of its line, nor does it depend on what stands there.  A
string or a block comment that is closed does not depend on what stands behind it.
-/

namespace Offside.Token

variable {text : List Char}

/-- The text is empty or starts with the end of a line. -/
def EndsLine (text : List Char) : Prop := ∀ c ∈ text.head?, c = '\n' ∨ c = '\r'

theorem endsLine_newline (text : List Char) : EndsLine ('\n' :: text) := by simp [EndsLine]

/-- The text is empty or starts with a space or the end of a line. -/
def Parted (text : List Char) : Prop := ∀ c ∈ text.head?, c = ' ' ∨ c = '\n' ∨ c = '\r'

theorem EndsLine.parted (h : EndsLine text) : Parted text := fun c hc => Or.inr (h c hc)

theorem Parted.head (h : Parted text) (p : Char → Bool) (hspace : p ' ' = false)
    (hnewline : p '\n' = false) (hreturn : p '\r' = false) : ∀ c ∈ text.head?, p c = false := by
  intro c hc
  rcases h c hc with rfl | rfl | rfl
  · exact hspace
  · exact hnewline
  · exact hreturn

theorem EndsLine.head (h : EndsLine text) (p : Char → Bool) (hnewline : p '\n' = false)
    (hreturn : p '\r' = false) : ∀ c ∈ text.head?, p c = false := by
  intro c hc
  rcases h c hc with rfl | rfl
  · exact hnewline
  · exact hreturn

namespace Cut

variable {back back' text : List Char} {c quote : Char}

/-! ## Pieces of one line -/

theorem takeWhile_append_of_head {α : Type} {p : α → Bool} {back : List α} (h : ∀ a ∈ back.head?, p a = false)
    (front : List α) : (front ++ back).takeWhile p = front.takeWhile p ∧ (front ++ back).dropWhile p = front.dropWhile p ++ back := by
  induction front with
  | nil =>
    cases back with
    | nil => exact ⟨rfl, rfl⟩
    | cons a back =>
      have ha : p a = false := h a rfl
      simp [ha]
  | cons a front ih => cases ha : p a <;> simp [ha, ih]

/-- The cut with more text behind it. -/
def extend (cut : Cut) (back : List Char) : Cut := ⟨cut.piece, cut.rest ++ back⟩

theorem run_append {p : Char → Bool} (h : ∀ c ∈ back.head?, p c = false) (first : Char) (text : List Char)
    (content : List Char → Content) : run first p (text ++ back) content = (run first p text content).extend back := by
  obtain ⟨htake, hdrop⟩ := takeWhile_append_of_head h text
  simp only [run, extend, htake, hdrop]

theorem fraction_of_ne (h : c ≠ '.') (text : List Char) : fraction (c :: text) = ([], c :: text) := by
  unfold fraction
  split
  · rename_i heq
    cases heq
    exact absurd rfl h
  · rfl

theorem fraction_append (h : Parted back) (text : List Char) :
    fraction (text ++ back) = ((fraction text).1, (fraction text).2 ++ back) := by
  have hend : fraction back = ([], back) ∧ fraction ('.' :: back) = ([], '.' :: back) := by
    cases back with
    | nil => exact ⟨rfl, rfl⟩
    | cons c back => rcases h c rfl with rfl | rfl | rfl <;> exact ⟨rfl, rfl⟩
  cases text with
  | nil => exact hend.1
  | cons c rest =>
    by_cases hpoint : c = '.'
    · subst hpoint
      cases rest with
      | nil => exact hend.2
      | cons d rest =>
        obtain ⟨htake, hdrop⟩ := takeWhile_append_of_head (h.head isDigitOrSeparator rfl rfl rfl) rest
        simp only [List.cons_append, fraction, htake, hdrop]
        split <;> rfl
    · rw [List.cons_append, fraction_of_ne hpoint, fraction_of_ne hpoint, List.cons_append]

theorem number_append (h : Parted back) (first : Char) (text : List Char) :
    number first (text ++ back) = (number first text).extend back := by
  obtain ⟨htake, hdrop⟩ := takeWhile_append_of_head (h.head isDigitOrSeparator rfl rfl rfl) text
  simp only [number, extend, htake, hdrop, fraction_append h]

theorem ofPair?_blank (h : c = ' ' ∨ c = '\n' ∨ c = '\r') (first : Char) : Symbol.ofPair? first c = none := by
  unfold Symbol.ofPair?
  split <;> simp_all

theorem symbol?_append (h : Parted back) (first : Char) (text : List Char) :
    symbol? first (text ++ back) = (symbol? first text).map (extend · back) := by
  cases text with
  | nil =>
    cases back with
    | nil =>
      simp only [List.append_nil, symbol?, Option.map_map]
      rfl
    | cons c back =>
      simp only [List.nil_append, symbol?, ofPair?_blank (h c rfl), Option.map_map]
      rfl
  | cons second text =>
    simp only [List.cons_append, symbol?]
    split
    · rfl
    · simp only [Option.map_map]
      rfl

def isQuote (c : Char) : Bool := c = '"' || c = '\x27' || c = '\x60'

theorem ofFirst_quote (h : isQuote quote = true) (text : List Char) : ofFirst quote text = string quote text := by
  simp only [isQuote, Bool.or_eq_true, decide_eq_true_eq] at h
  rcases h with (rfl | rfl) | rfl <;> rfl

theorem ne_of_isQuote (h : isQuote quote = true) (hc : isQuote c = false) : quote ≠ c := by
  rintro rfl
  rw [h] at hc
  cases hc

/-- How a piece goes on behind its first character. -/
inductive Form (first : Char) : (List Char → Cut) → Prop
  | blank : Form first fun text => ⟨⟨[first], .blank⟩, text⟩
  | newline : first = '\n' → Form first newline
  | comment : first = '#' → Form first comment
  | string : isQuote first = true → Form first (string first)
  | number : first.isDigit = true → Form first (number first)
  | word : isWordStart first = true → first.isDigit = false →
      Form first fun text => run first isWordPart text fun word => .token (wordKind (String.ofList word))
  | symbol {cut : List Char → Cut} :
      (∀ text, cut text = (symbol? first text).getD ⟨⟨[first], .fault .strayCharacter⟩, text⟩) → Form first cut

/-- The first character decides what a piece is. -/
theorem form_ofFirst (first : Char) : Form first (ofFirst first) := by
  unfold ofFirst
  split
  · exact .blank
  split
  · exact .newline ‹_›
  split
  · exact .comment ‹_›
  split
  · exact .string ‹_›
  split
  · exact .number ‹_›
  rename_i hdigit
  split
  · exact .word ‹_› (by simpa using hdigit)
  · exact .symbol fun text => by cases symbol? first text <;> rfl

theorem exists_sign_of_symbol? {first : Char} {cut : Cut} (h : symbol? first text = some cut) :
    ∃ sign, cut.piece.content = .token (.symbol sign) := by
  unfold symbol? at h
  split at h
  · split at h
    · cases h
      exact ⟨_, rfl⟩
    · obtain ⟨_, hkind, rfl⟩ := Option.map_eq_some_iff.1 h
      obtain ⟨sign, -, ⟨⟩⟩ := Option.bind_eq_some_iff.1 hkind
      exact ⟨sign, rfl⟩
  · obtain ⟨_, hkind, rfl⟩ := Option.map_eq_some_iff.1 h
    obtain ⟨sign, -, ⟨⟩⟩ := Option.bind_eq_some_iff.1 hkind
    exact ⟨sign, rfl⟩

/-- A token that is cut from the text is a string, a number, a sign or a word. -/
theorem cases_of_token {first : Char} {kind : Kind} (h : (ofFirst first text).piece.content = .token kind) :
    (∃ value, kind = .string value) ∨ (∃ value, kind = .number value) ∨ (∃ sign, kind = .symbol sign) ∨
      isWordStart first = true ∧ first.isDigit = false ∧
        (ofFirst first text).piece.text = first :: text.takeWhile isWordPart ∧
        kind = wordKind (String.ofList (first :: text.takeWhile isWordPart)) := by
  have hform := form_ofFirst first
  generalize ofFirst first = cut at h hform
  cases hform with
  | blank | newline _ => cases h
  | comment _ =>
    unfold comment at h
    split at h
    · split at h <;> cases h
    · cases h
  | string _ =>
    unfold string at h
    split at h <;> cases h
    exact Or.inl ⟨_, rfl⟩
  | number _ =>
    simp only [number] at h
    split at h <;> cases h
    exact Or.inr (Or.inl ⟨_, rfl⟩)
  | word hstart hdigit =>
    cases h
    exact Or.inr (Or.inr (Or.inr ⟨hstart, hdigit, rfl, rfl⟩))
  | symbol hcut =>
    rw [hcut] at h
    cases hsymbol : symbol? first text with
    | none => simp [hsymbol] at h
    | some found =>
      obtain ⟨sign, hsign⟩ := exists_sign_of_symbol? hsymbol
      rw [hsymbol, Option.getD_some, hsign] at h
      cases h
      exact Or.inr (Or.inr (Or.inl ⟨sign, rfl⟩))

/-- A piece that is no string and no comment ends with its line at the latest, and does not depend on what follows
it. -/
theorem ofFirst_append {first : Char} (hnewline : first ≠ '\n') (hmark : first ≠ '#') (hquote : isQuote first = false)
    (h : Parted back) (text : List Char) : ofFirst first (text ++ back) = (ofFirst first text).extend back := by
  have hstring : ¬ (decide (first = '"') || decide (first = '\x27') || decide (first = '\x60')) = true := by
    rw [← isQuote, hquote]
    exact Bool.false_ne_true
  simp only [ofFirst, if_neg hnewline, if_neg hmark, if_neg hstring]
  split
  · rfl
  split
  · exact number_append h first text
  split
  · exact run_append (h.head isWordPart rfl rfl rfl) first text _
  · rw [symbol?_append h]
    cases symbol? first text <;> rfl

theorem isMeasured_cons (h : c ≠ '#') (text : List Char) : isMeasured (c :: text) = isMeasured [c] := by
  unfold isMeasured
  split <;> split <;> simp_all

theorem isMeasured_mark (c : Char) (text : List Char) : isMeasured ('#' :: c :: text) = decide (c = '*') := by
  by_cases hstar : c = '*'
  · subst hstar
    rfl
  · unfold isMeasured
    split <;> simp_all

/-- Whether a line counts is seen in front of its end. -/
theorem isMeasured_append (h : EndsLine back) (h' : EndsLine back') (hnil : back = [] ↔ back' = []) (text : List Char) :
    isMeasured (text ++ back) = isMeasured (text ++ back') := by
  have hends : ∀ {back : List Char}, EndsLine back → (back ≠ [] → isMeasured back = false) ∧
      isMeasured ('#' :: back) = false := by
    intro back h
    cases back with
    | nil => exact ⟨fun hne => absurd rfl hne, rfl⟩
    | cons c back => rcases h c rfl with rfl | rfl <;> exact ⟨fun _ => rfl, rfl⟩
  cases text with
  | nil =>
    by_cases hempty : back = []
    · rw [hempty, hnil.1 hempty]
    · rw [List.nil_append, List.nil_append, (hends h).1 hempty, (hends h').1 (mt hnil.2 hempty)]
  | cons c text =>
    by_cases hmark : c = '#'
    · subst hmark
      cases text with
      | nil => exact (hends h).2.trans (hends h').2.symm
      | cons d text => exact (isMeasured_mark d _).trans (isMeasured_mark d _).symm
    · exact (isMeasured_cons hmark _).trans (isMeasured_cons hmark _).symm

theorem newline_append (h : EndsLine back) (text : List Char) : newline (text ++ back) =
    ⟨⟨'\n' :: text.takeWhile isIndentation, .newline ((text.takeWhile isIndentation).contains '\t')
      (if isMeasured (text.dropWhile isIndentation ++ back) then some (text.takeWhile isIndentation).length else none)⟩,
      text.dropWhile isIndentation ++ back⟩ := by
  obtain ⟨htake, hdrop⟩ := takeWhile_append_of_head (h.head isIndentation rfl rfl) text
  simp only [newline, htake, hdrop]

/-! ## Strings and block comments -/

section
variable {quote c : Char} {rest : List Char}

theorem stringBody?_quote : stringBody? quote (quote :: rest) = some ⟨[], [quote], rest⟩ := by
  cases rest with
  | nil => rw [stringBody?, if_pos rfl]
  | cons d rest => rw [stringBody?, if_pos rfl]

theorem stringBody?_backslash (hquote : '\\' ≠ quote) : stringBody? quote ('\\' :: c :: rest) =
    (stringBody? quote rest).map fun s => ⟨unescape c :: s.value, '\\' :: c :: s.text, s.rest⟩ := by
  rw [stringBody?, if_neg hquote, if_pos rfl]

theorem stringBody?_plain (hquote : c ≠ quote) (hslash : c ≠ '\\') : stringBody? quote (c :: rest) =
    (stringBody? quote rest).map fun s => ⟨c :: s.value, c :: s.text, s.rest⟩ := by
  cases rest with
  | nil =>
    have hnone : stringBody? quote [c] = none := by rw [stringBody?, if_neg hquote]
    rw [hnone, stringBody?, Option.map_none]
  | cons d rest => rw [stringBody?, if_neg hquote, if_neg hslash]

end

/-- A string ends with its quote, and it is the same whatever follows it. -/
theorem stringBody?_append (hquote : quote ≠ '\\') {s : StringBody} (h : stringBody? quote text = some s) :
    s.text.getLast? = some quote ∧ ∀ back, stringBody? quote (s.text ++ back) = some ⟨s.value, s.text, back⟩ := by
  fun_induction stringBody? quote text generalizing s with
  | case1 => cases h
  | case2 =>
    cases h
    exact ⟨rfl, fun back => stringBody?_quote⟩
  | case3 => cases h
  | case4 =>
    cases h
    exact ⟨rfl, fun back => stringBody?_quote⟩
  | case5 d rest _ ih =>
    obtain ⟨inner, hinner, rfl⟩ := Option.map_eq_some_iff.1 h
    obtain ⟨hlast, hsame⟩ := ih hinner
    refine ⟨?_, fun back => ?_⟩
    · simp [List.getLast?_cons, hlast]
    · rw [List.cons_append, List.cons_append, stringBody?_backslash hquote.symm, hsame]
      rfl
  | case6 c d rest hc hbackslash ih =>
    obtain ⟨inner, hinner, rfl⟩ := Option.map_eq_some_iff.1 h
    obtain ⟨hlast, hsame⟩ := ih hinner
    refine ⟨?_, fun back => ?_⟩
    · simp [List.getLast?_cons, hlast]
    · rw [List.cons_append, stringBody?_plain hc hbackslash, hsame]
      rfl

theorem commentBody?_cons (h : ¬ (c = '*' ∧ text.head? = some '#')) :
    commentBody? (c :: text) = (commentBody? text).map fun (body, after) => (c :: body, after) := by
  rw [commentBody?.eq_def]
  split
  · rename_i heq
    cases heq
  · rename_i heq
    cases heq
    exact absurd ⟨rfl, rfl⟩ h
  · rename_i heq
    cases heq
    rfl

/-- A block comment ends with its mark, and it is the same whatever follows it. -/
theorem commentBody?_append {body after : List Char} (h : commentBody? text = some (body, after)) :
    body.getLast? = some '#' ∧ ∀ back, commentBody? (body ++ back) = some (body, back) := by
  fun_induction commentBody? text generalizing body after with
  | case1 => cases h
  | case2 =>
    cases h
    exact ⟨rfl, fun back => rfl⟩
  | case3 c rest hopen ih =>
    obtain ⟨⟨inner, tail⟩, hinner, heq⟩ := Option.map_eq_some_iff.1 h
    cases heq
    obtain ⟨hlast, hsame⟩ := ih hinner
    have hne : inner ≠ [] := by
      rintro rfl
      cases hlast
    refine ⟨by simp [List.getLast?_cons, hlast], fun back => ?_⟩
    rw [List.cons_append, commentBody?_cons, hsame]
    · rfl
    · -- The mark would stand at the front of the text already.
      rintro ⟨rfl, hhead⟩
      rw [List.head?_append_of_ne_nil _ hne] at hhead
      obtain ⟨others, rfl⟩ := List.head?_eq_some_iff.1 hhead
      exact hopen (others ++ after) rfl (append_of_commentBody? hinner).symm

theorem comment_of_head (h : text.head? ≠ some '*') : comment text = run '#' (· ≠ '\n') text fun _ => .blank := by
  unfold comment
  split
  · exact absurd rfl h
  · rfl

end Cut

theorem pieces_newline (text : List Char) :
    pieces ('\n' :: text) = (Cut.newline text).piece :: pieces (Cut.newline text).rest := by
  rw [pieces]
  rfl

theorem pieces_lineComment {line : List Char} (hline : '\n' ∉ line) (hstar : line.head? ≠ some '*') :
    pieces ('#' :: (line ++ '\n' :: text)) = ⟨'#' :: line, .blank⟩ :: pieces ('\n' :: text) := by
  have hhead : (line ++ '\n' :: text).head? ≠ some '*' := by
    cases line with
    | nil => simp
    | cons c line => exact hstar
  have hall : ∀ c ∈ line, decide (c ≠ '\n') = true := by
    intro c hc
    simpa using ne_of_mem_of_not_mem hc hline
  have hcut : Cut.ofFirst '#' (line ++ '\n' :: text) = ⟨⟨'#' :: line, .blank⟩, '\n' :: text⟩ := by
    change Cut.comment (line ++ '\n' :: text) = _
    rw [Cut.comment_of_head hhead, Cut.run, List.takeWhile_append_of_pos hall, List.dropWhile_append_of_pos hall]
    simp
  rw [pieces, hcut]

end Offside.Token
