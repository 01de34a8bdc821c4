import Mathlib.Data.List.TakeWhile
import Offside.Proofs.Grammar.Spelling

/-!
# Words in front of a list of tokens

The tokens up to a place in a list spell a tree if they are a word of its language.  Where the tokens end first, the
ends of blocks may be missing.
-/

namespace Offside.Grammar

open Offside.Grammar.Parser

variable {tokens middle rest : List Token} {first second : Language Token} {kind : Token.Kind} {e : Expr}

/-! ## Words that end with the tokens -/

/-- The tokens up to `rest` are a word of a language, but for block ends missing at the end of all tokens. -/
def Closes (words : Language Token) (tokens rest : List Token) : Prop :=
  ∃ used closing, tokens = used ++ rest ∧ used ++ closing ∈ words ∧
    (∀ token ∈ closing, token.kind = .dedent) ∧ (closing ≠ [] → rest = [])

theorem closes_of_mem {word : List Token} (h : word ∈ first) : Closes first (word ++ rest) rest :=
  ⟨word, [], rfl, by simpa using h, by simp, by simp⟩

theorem Closes.mul (h : Closes first tokens middle) (hnext : Closes second middle rest) :
    Closes (first * second) tokens rest := by
  obtain ⟨used, closing, rfl, hword, hdedent, hend⟩ := h
  obtain ⟨used', closing', rfl, hword', hdedent', hend'⟩ := hnext
  by_cases hclosing : closing = []
  · subst hclosing
    refine ⟨used ++ used', closing', by simp, ?_, hdedent', hend'⟩
    rw [List.append_nil] at hword
    rw [List.append_assoc]
    exact Language.append_mem_mul hword hword'
  · -- The tokens have ended already, so the second word is missing as a whole.
    have hempty := hend hclosing
    obtain ⟨rfl, rfl⟩ := List.append_eq_nil_iff.1 hempty
    refine ⟨used, closing ++ closing', by simp, ?_, ?_, fun _ => rfl⟩
    · rw [← List.append_assoc]
      exact Language.append_mem_mul hword hword'
    · intro token hmem
      rcases List.mem_append.1 hmem with hmem | hmem
      · exact hdedent token hmem
      · exact hdedent' token hmem

theorem Closes.mono (hsub : ∀ word ∈ first, word ∈ second) (h : Closes first tokens rest) :
    Closes second tokens rest := by
  obtain ⟨used, closing, htokens, hword, hclosing⟩ := h
  exact ⟨used, closing, htokens, hsub _ hword, hclosing⟩

theorem closes_one : Closes 1 tokens tokens := closes_of_mem Language.nil_mem_one

theorem closes_single {token : Token} {p : Token → Prop} (h : p token) : Closes (single p) (token :: rest) rest :=
  ⟨[token], [], rfl, ⟨token, rfl, h⟩, by simp, by simp⟩

theorem Takes.closes (h : Takes kind tokens rest) : Closes (tokenOf kind) tokens rest := by
  obtain ⟨token, rfl, hkind⟩ := h
  exact closes_single hkind

theorem closes_layout : Closes layout tokens (skipped tokens) := by
  have h : tokens.takeWhile (·.kind.isLayout) ∈ layout := fun _ hmem =>
    List.mem_takeWhile_imp (p := fun token : Token => token.kind.isLayout) hmem
  have hcloses : Closes layout (tokens.takeWhile (·.kind.isLayout) ++ skipped tokens) (skipped tokens) :=
    closes_of_mem h
  rwa [skipped, List.takeWhile_append_dropWhile] at hcloses

/-- The end of a block is missing where the tokens end. -/
theorem closes_dedent_nil : Closes (tokenOf .dedent) [] [] :=
  ⟨[], [⟨.dedent, "", 0, 0, 0⟩], rfl, ⟨_, rfl, rfl⟩, by simp, fun _ => rfl⟩

theorem Takes.length (h : Takes kind tokens rest) : tokens.length = rest.length + 1 := by
  obtain ⟨token, rfl, -⟩ := h
  rfl

/-! ## Lists of words -/

theorem sepBy_cons (separator part : Language Token) (parts : List (Language Token)) :
    sepBy separator (part :: parts) = part * (parts.map (separator * ·)).prod := by
  induction parts generalizing part with
  | nil => simp [sepBy]
  | cons next parts ih => rw [sepBy, ih, List.map_cons, List.prod_cons, mul_assoc, mul_assoc]

/-- The layout behind an element may be counted with the comma that follows. -/
theorem mul_prod_map_mul (word : Language Token) (parts : List (Language Token)) :
    word * (parts.map (· * word)).prod = (parts.map (word * ·)).prod * word := by
  induction parts with
  | nil => simp
  | cons part parts ih =>
    calc
      word * ((part :: parts).map (· * word)).prod = word * part * (word * (parts.map (· * word)).prod) := by
        simp only [List.map_cons, List.prod_cons, mul_assoc]
      _ = ((part :: parts).map (word * ·)).prod * word := by
        rw [ih, List.map_cons, List.prod_cons]
        simp only [mul_assoc]

theorem layout_mul_layout : layout * layout = layout := by
  ext word
  rw [Language.mem_mul]
  constructor
  · rintro ⟨front, hfront, back, hback, rfl⟩ token hmem
    rcases List.mem_append.1 hmem with hmem | hmem
    · exact hfront token hmem
    · exact hback token hmem
  · exact fun hword => ⟨[], fun _ hmem => absurd hmem (List.not_mem_nil), word, hword, rfl⟩

theorem sepBy_looseComma (part : Language Token) (parts : List (Language Token)) :
    part * layout * (parts.map fun next => tokenOf Symbol.comma * (layout * next * layout)).prod =
      sepBy looseComma (part :: parts) * layout := by
  have hparts : (parts.map fun next => tokenOf Symbol.comma * (layout * next * layout)) =
      (parts.map (tokenOf Symbol.comma * layout * ·)).map (· * layout) := by
    simp [mul_assoc]
  have hcommas : ((parts.map (tokenOf Symbol.comma * layout * ·)).map (layout * ·)) =
      parts.map (looseComma * ·) := by
    simp [looseComma, mul_assoc]
  rw [hparts, mul_assoc, mul_prod_map_mul, hcommas, sepBy_cons, mul_assoc]

theorem argumentWords_cons (first : Expr) (others : List Expr) : argumentWords (Expr.spellings (first :: others)) =
    tokenOf Symbol.leftParen * layout * (layout * first.spelling * layout *
      (others.map fun e => tokenOf Symbol.comma * (layout * e.spelling * layout)).prod) *
        (layout * tokenOf Symbol.rightParen) := by
  have hwords := sepBy_looseComma first.spelling (others.map Expr.spelling)
  rw [List.map_map] at hwords
  calc
    argumentWords (Expr.spellings (first :: others)) = tokenOf Symbol.leftParen * (layout * layout) *
        (sepBy looseComma (first.spelling :: others.map Expr.spelling) * layout) *
          (layout * tokenOf Symbol.rightParen) := by
      rw [argumentWords, Expr.spellings_eq_map, layout_mul_layout, List.map_cons]
      simp only [mul_assoc]
      rw [← mul_assoc layout layout, layout_mul_layout]
    _ = _ := by
      rw [← hwords]
      simp only [mul_assoc]
      rfl

theorem mem_elementWords_single (part : Language Token) : ∀ word ∈ part * layout, word ∈ elementWords [part] := by
  intro word hword
  rw [elementWords, sepBy, mul_add]
  exact (Language.mem_add _ _ _).2 (.inl hword)

theorem mem_elementWords_cons (part : Language Token) (parts : List (Language Token)) :
    ∀ word ∈ part * looseComma * elementWords parts, word ∈ elementWords (part :: parts) := by
  intro word hword
  cases parts with
  | nil =>
    rw [elementWords, mul_one] at hword
    rw [elementWords, sepBy, mul_add]
    exact (Language.mem_add _ _ _).2 (.inr hword)
  | cons next parts => simpa only [elementWords, sepBy, mul_assoc] using hword

theorem mem_caseWords_of_mul (part : Language Token) (parts : List (Language Token)) (default : Option (Language Token)) :
    ∀ word ∈ part * caseWords parts default, word ∈ caseWords (part :: parts) default := by
  intro word hword
  cases default with
  | none => rwa [caseWords, List.prod_cons]
  | some default =>
    obtain ⟨front, hfront, back, ⟨before, after, rfl, hback⟩, rfl⟩ := Language.mem_mul.1 hword
    refine ⟨part :: before, after, rfl, ?_⟩
    rw [List.prod_cons, mul_assoc, mul_assoc, ← mul_assoc before.prod]
    exact Language.append_mem_mul hfront hback

theorem mem_caseWords_of_default (default : Language Token) (parts : List (Language Token)) :
    ∀ word ∈ default * parts.prod, word ∈ caseWords parts (some default) := by
  intro word hword
  refine ⟨[], parts, rfl, ?_⟩
  rwa [List.prod_nil, one_mul]

/-! ## Parts of expressions -/

theorem spelling?_eq_elim (lead : Language Token) (value : Option Expr) :
    Expr.spelling? lead value = value.elim 1 (lead * ·.spelling) := by
  cases value <;> rw [Expr.spelling?] <;> rfl

theorem closes_literal {token : Token} {value : Literal} (h : literal? token.kind = some value) :
    Closes value.spelling (token :: rest) rest := by
  unfold literal? at h
  split at h <;> cases h <;> exact closes_single ‹_›

theorem eq_append_of_splitLast {text front back : List Char} (h : Regex.splitLast text = some (front, back)) :
    text = front ++ '/' :: back := by
  induction text generalizing front with
  | nil => cases h
  | cons c text ih =>
    rw [Regex.splitLast] at h
    split at h
    · rename_i front' back' hsplit
      cases h
      rw [ih hsplit, List.cons_append]
    · split at h
      · rename_i hslash
        cases h
        rw [hslash, List.nil_append]
      · cases h

theorem eq_append_of_split? {text pattern flags : List Char} (h : Regex.split? text = some (pattern, flags)) :
    text = '/' :: (pattern ++ '/' :: flags) := by
  unfold Regex.split? at h
  split at h
  · rename_i body
    obtain ⟨⟨front, back⟩, hsplit, h⟩ := Option.bind_eq_some_iff.1 h
    obtain ⟨-, hparts⟩ := Option.ite_none_right_eq_some.1 h
    cases hparts
    rw [eq_append_of_splitLast hsplit]
  · cases h

theorem token_of_updateOp? {op : UpdateOp} (h : updateOp? kind = some op) : kind = op.token := by
  unfold updateOp? at h
  split at h <;> cases h <;> rfl

theorem assignment?_spelling {target value : Expr} (h : assignment? target value = some e) :
    e.spelling = target.spelling * tokenOf Symbol.equal * value.spelling := by
  unfold assignment? at h
  split at h <;> cases h <;> simp only [Expr.spelling]

theorem rounds_ofDepth (n : Nat) : (Inner.ofDepth n).rounds = n := by
  cases n <;> rfl

end Offside.Grammar
