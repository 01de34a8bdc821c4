import Offside.Proofs.Token.Tiling

/-!
# Words

The names of identifiers and the texts of reserved words are words: ASCII letters, digits and underscores, without a
digit in front.
-/

namespace Offside.Token

open Cut

variable {first : Char} {rest : List Char}

/-- ASCII letters, digits and underscores, at least one of them, and no digit in front. -/
structure IsWord (text : String) : Prop where
  ne_nil : text.toList ≠ []
  mem : ∀ c ∈ text.toList, c.isAlpha = true ∨ c.isDigit = true ∨ c = '_'
  head : ∀ c ∈ text.toList.head?, c.isDigit = false

theorem isWord_ofList (hfirst : isWordStart first = true)
    (hdigit : first.isDigit = false) (hrest : ∀ c ∈ rest, isWordPart c = true) :
    IsWord (String.ofList (first :: rest)) where
  ne_nil := by simp
  mem := by
    simp only [isWordStart, Bool.or_eq_true, decide_eq_true_eq] at hfirst
    simp only [isWordPart, Char.isAlphanum, Bool.or_eq_true, decide_eq_true_eq] at hrest
    simp only [String.toList_ofList, List.forall_mem_cons]
    grind
  head := by simpa using hdigit

/-- Identifiers are named by words, and reserved words are words. -/
def Kind.Worded (kind : Kind) (text : String) : Prop :=
  match kind with
  | .identifier name => IsWord name
  | .keyword _ => IsWord text
  | _ => True

theorem worded_wordKind {text : String} (h : IsWord text) : (wordKind text).Worded text := by
  unfold wordKind
  split
  · exact h
  · exact h

theorem Cut.worded_ofFirst {kind : Kind} (h : (ofFirst first rest).piece.content = .token kind) :
    kind.Worded (String.ofList (ofFirst first rest).piece.text) := by
  rcases cases_of_token h with ⟨_, rfl⟩ | ⟨_, rfl⟩ | ⟨_, rfl⟩ | ⟨hstart, hdigit, htext, rfl⟩
  · trivial
  · trivial
  · trivial
  · rw [htext]
    exact worded_wordKind (isWord_ofList hstart hdigit fun c hc => List.mem_takeWhile_imp hc)

theorem worded_pieces (text : List Char) : ∀ piece ∈ pieces text, ∀ kind, piece.content = .token kind →
    kind.Worded (String.ofList piece.text) := by
  fun_induction pieces text with
  | case1 => exact fun _ hmem => absurd hmem List.not_mem_nil
  | case2 first rest ih => exact List.forall_mem_cons.2 ⟨fun _ h => worded_ofFirst h, ih⟩

namespace Scan

/-- A token stands for the layout or for one of the pieces. -/
theorem mem_tokens_ofPieces {pieces : List Piece} {place : Cursor} {levels : Levels} {token : Token}
    (h : token ∈ (ofPieces place levels pieces).tokens) : token.kind.isPlain = false ∨
      ∃ piece ∈ pieces, piece.content = .token token.kind ∧ token.lexeme = String.ofList piece.text := by
  induction pieces generalizing place levels with
  | nil =>
    left
    simp only [ofPieces, List.mem_append, List.mem_map, List.mem_singleton] at h
    rcases h with ⟨_, -, rfl⟩ | rfl <;> rfl
  | cons piece pieces ih =>
    have hlater : ∀ {place levels}, token ∈ (ofPieces place levels pieces).tokens → token.kind.isPlain = false ∨
        ∃ other ∈ piece :: pieces, other.content = .token token.kind ∧ token.lexeme = String.ofList other.text := by
      intro place levels hmem
      cases ih hmem with
      | inl hlayout => exact Or.inl hlayout
      | inr hpiece =>
        obtain ⟨other, hother, hcontent⟩ := hpiece
        exact Or.inr ⟨other, List.mem_cons_of_mem piece hother, hcontent⟩
    obtain ⟨text, content⟩ := piece
    cases content with
    | blank => exact hlater h
    | fault cause => exact hlater h
    | token kind =>
      cases List.mem_cons.1 h with
      | inl heq =>
        subst heq
        exact Or.inr ⟨_, List.mem_cons_self, rfl, rfl⟩
      | inr hmem => exact hlater hmem
    | newline tabbed width =>
      cases width with
      | none => exact hlater h
      | some width =>
        cases List.mem_append.1 h with
        | inl hlayout =>
          obtain ⟨kind, hkind, rfl⟩ := List.mem_map.1 hlayout
          exact Or.inl (isPlain_change levels width kind hkind)
        | inr hmem => exact hlater hmem

theorem worded_of_mem_tokens {source : String} {token : Token} (h : token ∈ (ofSource source).tokens) :
    token.kind.Worded token.lexeme := by
  cases mem_tokens_ofPieces h with
  | inl hlayout =>
    unfold Kind.Worded
    split <;> simp_all [Kind.isPlain]
  | inr hpiece =>
    obtain ⟨piece, hpiece, hcontent, hlexeme⟩ := hpiece
    rw [hlexeme]
    exact worded_pieces source.toList piece hpiece token.kind hcontent

end Scan

end Offside.Token
