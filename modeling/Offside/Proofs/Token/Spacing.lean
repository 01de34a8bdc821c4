import Offside.Proofs.Token.LineEnds
import Offside.Proofs.Token.Tiling

/-!
# Lexemes with spaces between them

The text of a token is cut the same way wherever it stands, as long as a blank or nothing follows it: no token is
recognised thanks to its neighbours.  So the lexemes of a source, put on one line with single spaces between them, are
scanned to the same tokens, without layout.
-/

namespace Offside.Token

/-- The piece is cut off the front of every text that starts with its own text, if a blank or nothing follows. -/
def Piece.Closed (piece : Piece) : Prop :=
  ∃ first front, piece.text = first :: front ∧ ∀ back, Parted back → Cut.ofFirst first (front ++ back) = ⟨piece, back⟩

namespace Cut

variable {first : Char} {text back : List Char}

/-! ## Tokens of each form -/

theorem takeWhile_own {p : Char → Bool} (h : ∀ c ∈ back.head?, p c = false) (text : List Char) :
    (text.takeWhile p ++ back).takeWhile p = text.takeWhile p ∧ (text.takeWhile p ++ back).dropWhile p = back := by
  obtain ⟨htake, hdrop⟩ := takeWhile_append_of_head h (text.takeWhile p)
  have hall : ∀ c ∈ text.takeWhile p, p c = true := fun c hc => List.mem_takeWhile_imp hc
  rw [htake, hdrop, List.takeWhile_eq_self_iff.2 hall, List.dropWhile_eq_nil_iff.2 hall]
  exact ⟨rfl, rfl⟩

theorem fraction_cases (text : List Char) : (fraction text).1 = [] ∨ ∃ (d : Char) (rest : List Char), d.isDigit = true ∧
      (fraction text).1 = '.' :: d :: rest.takeWhile isDigitOrSeparator := by
  fun_cases fraction text with
  | case1 d rest hdigit => exact Or.inr ⟨d, rest, hdigit, rfl⟩
  | case2 => exact Or.inl rfl
  | case3 => exact Or.inl rfl

theorem fraction_own (h : Parted back) (text : List Char) :
    fraction ((fraction text).1 ++ back) = ((fraction text).1, back) := by
  rcases fraction_cases text with hnil | ⟨d, rest, hdigit, hpart⟩
  · rw [hnil]
    exact fraction_append h []
  · obtain ⟨htake, hdrop⟩ := takeWhile_own (h.head isDigitOrSeparator rfl rfl rfl) rest
    rw [hpart, List.cons_append, List.cons_append, fraction, if_pos hdigit, htake, hdrop]

theorem number_own (h : Parted back) (first : Char) (text : List Char) :
    number first ((number first text).piece.text.tail ++ back) = ⟨(number first text).piece, back⟩ := by
  have hpart : ∀ c ∈ ((fraction (text.dropWhile isDigitOrSeparator)).1 ++ back).head?,
      isDigitOrSeparator c = false := by
    rcases fraction_cases (text.dropWhile isDigitOrSeparator) with hnil | ⟨d, rest, -, hpart⟩
    · rw [hnil]
      exact h.head isDigitOrSeparator rfl rfl rfl
    · rw [hpart]
      simp [isDigitOrSeparator]
  obtain ⟨htake, hdrop⟩ := takeWhile_own hpart text
  simp only [number, List.cons_append, List.tail_cons, List.append_assoc, htake, hdrop, fraction_own h]

theorem run_own {p : Char → Bool} (h : ∀ c ∈ back.head?, p c = false) (first : Char) (text : List Char)
    (content : List Char → Content) : run first p ((run first p text content).piece.text.tail ++ back) content =
      ⟨(run first p text content).piece, back⟩ := by
  obtain ⟨htake, hdrop⟩ := takeWhile_own h text
  simp only [run, List.tail_cons, htake, hdrop]

theorem symbol?_own {cut : Cut} (hcut : symbol? first text = some cut) : ∃ front, cut.piece.text = first :: front ∧
      ∀ back, Parted back → symbol? first (front ++ back) = some ⟨cut.piece, back⟩ := by
  -- A symbol of one character is the same in front of nothing as in front of a blank.
  have hone : ∀ piece, symbol? first [] = some ⟨piece, []⟩ →
      ∀ back, Parted back → symbol? first ([] ++ back) = some ⟨piece, back⟩ := by
    intro piece hpiece back hback
    rw [symbol?_append hback, hpiece]
    rfl
  unfold symbol? at hcut
  split at hcut
  · split at hcut
    · rename_i hpair
      cases hcut
      exact ⟨_, rfl, fun back _ => by simp [symbol?, hpair]⟩
    · obtain ⟨sign, hsign, rfl⟩ := Option.map_eq_some_iff.1 hcut
      exact ⟨[], rfl, hone _ (by rw [symbol?, hsign, Option.map_some])⟩
  · obtain ⟨sign, hsign, rfl⟩ := Option.map_eq_some_iff.1 hcut
    exact ⟨[], rfl, hone _ (by rw [symbol?, hsign, Option.map_some])⟩

/-- The text of a token is cut off the same wherever it stands in front of a blank. -/
theorem closed_of_token {kind : Kind} (h : (ofFirst first text).piece.content = .token kind) :
    (ofFirst first text).piece.Closed := by
  suffices hown : ∃ front, (ofFirst first text).piece.text = first :: front ∧
      ∀ back, Parted back → ofFirst first (front ++ back) = ⟨(ofFirst first text).piece, back⟩ from ⟨first, hown⟩
  have hform := form_ofFirst first
  generalize ofFirst first = cut at h hform ⊢
  cases hform with
  | blank => cases h
  | newline hfirst => cases h
  | comment hfirst =>
    unfold comment at h
    split at h
    · split at h <;> cases h
    · cases h
  | string hquote =>
    have hslash : first ≠ '\\' := ne_of_isQuote hquote rfl
    unfold string at h ⊢
    split at h
    · rename_i s hbody
      refine ⟨s.text, rfl, fun back _ => ?_⟩
      rw [(stringBody?_append hslash hbody).2 back]
    · cases h
  | number hdigit => exact ⟨_, rfl, fun back hback => number_own hback first text⟩
  | word hstart hdigit => exact ⟨_, rfl, fun back hback => run_own (hback.head isWordPart rfl rfl rfl) first text _⟩
  | symbol hsymbol =>
    rw [hsymbol] at h ⊢
    cases hcut : symbol? first text with
    | none => simp [hcut] at h
    | some found =>
      obtain ⟨front, hfront, hown⟩ := symbol?_own hcut
      refine ⟨front, hfront, fun back hback => ?_⟩
      rw [hsymbol, hown back hback]
      rfl

end Cut

theorem pieces_append_of_closed {piece : Piece} (h : piece.Closed) (back : List Char) (hback : Parted back) :
    pieces (piece.text ++ back) = piece :: pieces back := by
  obtain ⟨first, front, htext, hown⟩ := h
  rw [htext, List.cons_append, pieces, hown back hback]

/-- The piece that a single space is. -/
def space : Piece := ⟨[' '], .blank⟩

theorem pieces_space (text : List Char) : pieces (' ' :: text) = space :: pieces text := by
  rw [pieces]
  rfl

/-- Pieces that are cut off in front of blanks are found again when spaces stand between them. -/
theorem pieces_intercalate {found : List Piece} (h : ∀ piece ∈ found, piece.Closed) :
    pieces ([' '].intercalate (found.map Piece.text)) = found.intersperse space := by
  induction found with
  | nil => rw [List.map_nil, List.intercalate_nil, pieces, List.intersperse_nil]
  | cons piece rest ih =>
    obtain ⟨hpiece, hrest⟩ := List.forall_mem_cons.1 h
    cases rest with
    | nil =>
      have hcut := pieces_append_of_closed hpiece [] (by simp [Parted])
      rw [List.append_nil, pieces] at hcut
      simpa using hcut
    | cons next others =>
      rw [List.map_cons, List.map_cons, List.intercalate_cons_cons, List.intersperse_cons_cons, List.append_assoc,
        pieces_append_of_closed hpiece _ (by simp [Parted]), List.singleton_append, pieces_space, ← List.map_cons,
        ih hrest]

/-- The kind and the text of the token that a piece is. -/
def Piece.token? (piece : Piece) : Option (Kind × String) :=
  match piece.content with
  | .token kind => some (kind, String.ofList piece.text)
  | _ => none

/-- The lexemes of the tokens among the pieces are the texts of these pieces. -/
theorem map_filterMap_token? (found : List Piece) : (found.filterMap Piece.token?).map Prod.snd =
    (found.filter (·.token?.isSome)).map fun piece => String.ofList piece.text := by
  induction found with
  | nil => rfl
  | cons piece rest ih =>
    obtain ⟨text, content⟩ := piece
    cases content <;> simp [List.filterMap_cons, Piece.token?, ih]

theorem closed_pieces (text : List Char) : ∀ piece ∈ pieces text, piece.token?.isSome = true → piece.Closed := by
  fun_induction pieces text with
  | case1 => exact fun _ hmem => absurd hmem List.not_mem_nil
  | case2 first rest ih =>
    refine List.forall_mem_cons.2 ⟨fun htoken => ?_, ih⟩
    cases hcontent : (Cut.ofFirst first rest).piece.content with
    | token kind => exact Cut.closed_of_token hcontent
    | blank | fault | newline => simp [Piece.token?, hcontent] at htoken

/-- What a token is and how it is written, wherever it stands. -/
def view (token : Token) : Kind × String := (token.kind, token.lexeme)

namespace Scan

/-- The tokens with a text of their own are those among the pieces. -/
theorem view_tokens_ofPieces {found : List Piece} (h : Plain found) (place : Cursor) (levels : Levels) :
    ((ofPieces place levels found).tokens.filter (·.kind.isPlain)).map view = found.filterMap Piece.token? := by
  induction found generalizing place levels with
  | nil => simp [ofPieces, empty, Kind.isPlain, List.filter_append]
  | cons piece rest ih =>
    have hrest := ih h.cons
    obtain ⟨text, content⟩ := piece
    cases content with
    | blank | fault => simpa [ofPieces, prepend, List.filterMap_cons, Piece.token?] using hrest _ _
    | token kind => simp [ofPieces, prepend, Piece.token?, view, h.head, hrest]
    | newline tabbed width =>
      cases width with
      | none => simpa [ofPieces, prepend, List.filterMap_cons, Piece.token?] using hrest _ _
      | some width =>
        have hlayout : ((levels.change width).map (empty (place.after text))).filter (·.kind.isPlain) = [] := by
          rw [List.filter_eq_nil_iff]
          intro token htoken
          obtain ⟨kind, hkind, rfl⟩ := List.mem_map.1 htoken
          simp [empty, isPlain_change levels width kind hkind]
        simp [ofPieces, prepend, List.filterMap_cons, Piece.token?, List.filter_append, hlayout, hrest]

/-- Tokens with spaces between them are scanned without diagnostics and without layout. -/
theorem ofPieces_intersperse {found : List Piece} (h : ∀ piece ∈ found, piece.token?.isSome = true) (place : Cursor) :
    (ofPieces place [] (found.intersperse space)).diagnostics = [] ∧
      (ofPieces place [] (found.intersperse space)).tokens.map view =
        found.filterMap Piece.token? ++ [(Kind.eof, "")] := by
  induction found generalizing place with
  | nil => exact ⟨rfl, rfl⟩
  | cons piece rest ih =>
    obtain ⟨hpiece, hrest⟩ := List.forall_mem_cons.1 h
    obtain ⟨text, content⟩ := piece
    cases content with
    | blank | fault | newline => cases hpiece
    | token kind =>
      cases rest with
      | nil => exact ⟨rfl, rfl⟩
      | cons next others =>
        obtain ⟨hdiagnostics, htokens⟩ := ih hrest ((place.after text).after [' '])
        rw [List.intersperse_cons_cons]
        exact ⟨hdiagnostics, congrArg ((kind, String.ofList text) :: ·) htokens⟩

/-- The tokens of a source that have a text of their own, whether or not the rest of the source is malformed, are given
by their lexemes alone: with single spaces between them these are scanned without diagnostics and without layout to
tokens of the same kinds, values and lexemes, and the end of the text. -/
theorem ofSource_intercalate_lexemes (source : String) :
    let words := (ofSource source).tokens.filter (·.kind.isPlain)
    let again := ofSource (" ".intercalate (words.map lexeme))
    again.diagnostics = [] ∧ again.tokens.map view = words.map view ++ [(.eof, "")] := by
  intro words again
  let found := (pieces source.toList).filter (·.token?.isSome)
  have hfound : ∀ piece ∈ found, piece.token?.isSome = true := fun piece hmem => (List.mem_filter.1 hmem).2
  have hwords : words.map view = found.filterMap Piece.token? := by
    refine (view_tokens_ofPieces (plain_pieces source.toList) .start []).trans ?_
    rw [List.filterMap_filter]
    apply List.filterMap_congr
    intro piece _
    cases piece.token? <;> rfl
  have hlexemes : words.map lexeme = found.map fun piece => String.ofList piece.text := by
    calc words.map lexeme
        = (words.map view).map Prod.snd := by rw [List.map_map]; rfl
      _ = found.map fun piece => String.ofList piece.text := by
          rw [hwords, map_filterMap_token?, List.filter_eq_self.2 hfound]
  have hpieces : pieces (" ".intercalate (words.map lexeme)).toList = found.intersperse space := by
    rw [hlexemes, String.toList_intercalate, List.map_map]
    have hclosed : ∀ piece ∈ found, piece.Closed :=
      fun piece hmem => closed_pieces source.toList piece (List.mem_of_mem_filter hmem) (hfound piece hmem)
    simpa [Function.comp_def] using pieces_intercalate hclosed
  have hscan : again = ofPieces .start [] (found.intersperse space) := congrArg (ofPieces .start []) hpieces
  rw [hscan, hwords]
  exact ofPieces_intersperse hfound .start

end Scan

end Offside.Token
