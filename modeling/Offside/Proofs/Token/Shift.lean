import Offside.Proofs.Token.Widths

/-!
# Tokens at other places

A scan depends on the places of its pieces only by the offsets and the lines that it writes down.  Two texts whose
pieces are alike but for what the scanner skips, and whose places go with each other, have the same tokens and the same
diagnostics up to these numbers.
-/

namespace Offside

/-- Other numbers for the places in a source.  Different offsets stay different, but for those of tokens without a text,
which are in `margin`. -/
structure Shift where
  offset : Nat → Nat
  margin : Nat → Nat
  line : Nat → Nat
  injective : Function.Injective offset

namespace Shift

/-- The places as they are. -/
def still : Shift := ⟨id, id, id, Function.injective_id⟩

/-- The other offsets of tokens of a kind. -/
def offsetOf (moved : Shift) (kind : Token.Kind) : Nat → Nat := if kind.isPlain then moved.offset else moved.margin

theorem offsetOf_eq {moved : Shift} (h : moved.margin = moved.offset) (kind : Token.Kind) :
    moved.offsetOf kind = moved.offset := by
  rw [offsetOf, h, ite_self]

theorem offsetOf_of_not_isPlain {kind : Token.Kind} (h : kind.isPlain = false) (moved : Shift) :
    moved.offsetOf kind = moved.margin := by
  rw [offsetOf, h, if_neg Bool.false_ne_true]

theorem offsetOf_still (kind : Token.Kind) : still.offsetOf kind = id := offsetOf_eq rfl kind

end Shift

def Diagnostic.reline (g : Nat → Nat) (d : Diagnostic) : Diagnostic := { d with line := g d.line }

theorem Diagnostic.map_reline_id (ds : List Diagnostic) : ds.map (Diagnostic.reline id) = ds := List.map_id ds

namespace Token

/-- A token at another place. -/
def shift (moved : Shift) (token : Token) : Token :=
  { token with
    start := moved.offsetOf token.kind token.start
    stop := moved.offsetOf token.kind token.stop
    line := moved.line token.line }

@[simp] theorem kind_shift (moved : Shift) (token : Token) : (token.shift moved).kind = token.kind := rfl

@[simp] theorem lexeme_shift (moved : Shift) (token : Token) : (token.shift moved).lexeme = token.lexeme := rfl

@[simp] theorem line_shift (moved : Shift) (token : Token) : (token.shift moved).line = moved.line token.line := rfl

theorem shift_still (token : Token) : token.shift .still = token := by
  rw [shift, Shift.offsetOf_still]
  rfl

theorem map_shift_still (tokens : List Token) : tokens.map (shift .still) = tokens :=
  List.map_id'' shift_still tokens

/-- Tokens with a text that follow each other without a gap still do, and no others. -/
theorem start_shift_eq_stop_iff (moved : Shift) {token next : Token} (htoken : token.kind.isPlain = true)
    (hnext : next.kind.isPlain = true) : (next.shift moved).start = (token.shift moved).stop ↔ next.start = token.stop := by
  simp only [shift, Shift.offsetOf, htoken, hnext, if_true, moved.injective.eq_iff]

def Cursor.shift (moved : Shift) (place : Cursor) : Cursor := ⟨moved.offset place.offset, moved.line place.line⟩

namespace Scan

variable {piece : Piece} {pieces : List Piece}

/-- The scan at other places. -/
def shift (moved : Shift) (scan : Scan) : Scan :=
  ⟨scan.tokens.map (Token.shift moved), scan.diagnostics.map (Diagnostic.reline moved.line)⟩

theorem shift_prepend (moved : Shift) (tokens : List Token) (diagnostics : List Diagnostic) (scan : Scan) :
    (scan.prepend tokens diagnostics).shift moved =
      (scan.shift moved).prepend (tokens.map (Token.shift moved)) (diagnostics.map (Diagnostic.reline moved.line)) := by
  simp [prepend, shift]

/-- All that is written down for a piece is part of the scan. -/
theorem exists_subset_of_mem (h : piece ∈ pieces) (place : Cursor) (levels : Levels) : ∃ place' levels' later,
      (ofPieces place' levels' (piece :: later)).tokens ⊆ (ofPieces place levels pieces).tokens ∧
        (ofPieces place' levels' (piece :: later)).diagnostics ⊆ (ofPieces place levels pieces).diagnostics := by
  obtain ⟨front, later, rfl⟩ := List.append_of_mem h
  obtain ⟨tokens, diagnostics, -, hfront⟩ := exists_prepend_append place levels front
  rw [hfront]
  exact ⟨_, _, later, List.subset_append_right _ _, List.subset_append_right _ _⟩

theorem exists_token_of_mem {kind : Kind} (h : piece ∈ pieces)
    (hcontent : piece.content = .token kind) (place : Cursor) (levels : Levels) :
    ∃ token ∈ (ofPieces place levels pieces).tokens, token.kind = kind ∧ token.lexeme = String.ofList piece.text := by
  obtain ⟨place', levels', later, htokens, -⟩ := exists_subset_of_mem h place levels
  obtain ⟨text, _⟩ := piece
  subst hcontent
  exact ⟨_, htokens (List.mem_cons_self ..), rfl, rfl⟩

theorem exists_diagnostic_of_mem {cause : Fault} (h : piece ∈ pieces)
    (hcontent : piece.content = .fault cause) (place : Cursor) (levels : Levels) :
    ∃ d ∈ (ofPieces place levels pieces).diagnostics, d.message = cause.message := by
  obtain ⟨place', levels', later, -, hdiagnostics⟩ := exists_subset_of_mem h place levels
  obtain ⟨text, _⟩ := piece
  subst hcontent
  exact ⟨_, hdiagnostics (List.mem_cons_self ..), rfl⟩

end Scan

/-- Pieces from two places on that are alike but for blanks and lines that do not count.  The places go with each other
in front of all that is written down with its place. -/
inductive Alike (moved : Shift) : Cursor → List Piece → Cursor → List Piece → Prop
  | nil {place : Cursor} : Alike moved place [] (place.shift moved) []
  | token {place : Cursor} {text : List Char} {kind : Kind} {pieces pieces' : List Piece} :
      (place.shift moved).after text = (place.after text).shift moved →
      Alike moved (place.after text) pieces ((place.shift moved).after text) pieces' →
      Alike moved place (⟨text, .token kind⟩ :: pieces) (place.shift moved) (⟨text, .token kind⟩ :: pieces')
  | fault {place : Cursor} {text text' : List Char} {cause : Fault} {pieces pieces' : List Piece} :
      Scan.shown text' cause = Scan.shown text cause →
      Alike moved (place.after text) pieces ((place.shift moved).after text') pieces' →
      Alike moved place (⟨text, .fault cause⟩ :: pieces) (place.shift moved) (⟨text', .fault cause⟩ :: pieces')
  | newline {place place' : Cursor} {text text' : List Char} {tabbed : Bool} {width : Option Nat}
      {pieces pieces' : List Piece} :
      place'.after text' = (place.after text).shift moved →
      Alike moved (place.after text) pieces (place'.after text') pieces' →
      Alike moved place (⟨text, .newline tabbed width⟩ :: pieces) place' (⟨text', .newline tabbed width⟩ :: pieces')
  | blank {place place' : Cursor} {text : List Char} {pieces pieces' : List Piece} :
      Alike moved (place.after text) pieces place' pieces' → Alike moved place (⟨text, .blank⟩ :: pieces) place' pieces'
  | skip {place place' : Cursor} {text : List Char} {content : Content} {pieces pieces' : List Piece} :
      content = .blank ∨ content = .newline false none →
      Alike moved place pieces (place'.after text) pieces' → Alike moved place pieces place' (⟨text, content⟩ :: pieces')

namespace Alike

variable {moved : Shift} {place place' : Cursor} {pieces pieces' : List Piece}

theorem ofPieces_eq (h : Alike moved place pieces place' pieces') (hmargin : moved.margin = moved.offset)
    (levels : Levels) : Scan.ofPieces place' levels pieces' = (Scan.ofPieces place levels pieces).shift moved := by
  have hempty : ∀ place kind, (empty place kind).shift moved = empty (place.shift moved) kind := by
    intro place kind
    simp only [empty, Token.shift, Cursor.shift, Shift.offsetOf_eq hmargin]
  induction h generalizing levels with
  | nil => simp [Scan.ofPieces, Scan.shift, hempty]
  | token hstop _ ih =>
    simp only [Scan.ofPieces, ih, Scan.shift_prepend]
    rw [hstop]
    simp only [List.map_cons, List.map_nil, Token.shift, Cursor.shift, Shift.offsetOf_eq hmargin]
  | fault hshown _ ih =>
    simp only [Scan.ofPieces, ih, Scan.shift_prepend, hshown]
    rfl
  | @newline _ _ _ _ tabbed width _ _ hnext _ ih =>
    simp only [Scan.ofPieces]
    rw [hnext] at ih ⊢
    cases width with
    | none =>
      simp only [ih, Scan.shift_prepend]
      cases tabbed <;> rfl
    | some width =>
      simp only [ih, Scan.shift_prepend, List.map_map, Function.comp_def, hempty]
      cases tabbed <;> rfl
  | blank _ ih => exact ih levels
  | skip hcontent _ ih =>
    rcases hcontent with rfl | rfl
    · exact ih levels
    · exact ih levels

/-- The same pieces in front, where the places go with each other. -/
theorem append {front : List Piece}
    (hplaces : ∀ taken, taken <+: front.flatMap Piece.text → place'.after taken = (place.after taken).shift moved)
    (h : Alike moved (place.after (front.flatMap Piece.text)) pieces (place'.after (front.flatMap Piece.text)) pieces') :
    Alike moved place (front ++ pieces) place' (front ++ pieces') := by
  induction front generalizing place place' with
  | nil => exact h
  | cons piece front ih =>
    obtain ⟨text, content⟩ := piece
    rw [List.flatMap_cons, Cursor.after_append, Cursor.after_append] at h
    have hstart : place' = place.shift moved := hplaces [] (List.nil_prefix)
    have hnext : place'.after text = (place.after text).shift moved :=
      hplaces text ⟨front.flatMap Piece.text, by rw [List.flatMap_cons]⟩
    have hrest : Alike moved (place.after text) (front ++ pieces) (place'.after text) (front ++ pieces') := by
      refine ih (fun taken htaken => ?_) h
      rw [← Cursor.after_append, ← Cursor.after_append]
      apply hplaces
      rw [List.flatMap_cons]
      exact List.prefix_append_right_inj text |>.2 htaken
    subst hstart
    cases content with
    | blank => exact .blank (.skip (.inl rfl) hrest)
    | token kind => exact .token hnext hrest
    | fault cause => exact .fault rfl hrest
    | newline tabbed width => exact .newline hnext hrest

end Alike

end Token

end Offside
