import Offside.Proofs.Binary64.ReadBack
import Offside.Proofs.JavaScript.Lexeme

/-!
# Cutting text into lexemes

How each kind of lexeme is cut off the front of a text.  What stands behind it has to be known only as far as it
could run into the lexeme: a word or a number is followed by nothing that could go on with it, a number by no
point, and a mark by nothing that makes it longer.
-/

namespace Offside.JavaScript

open Script (Operator)

variable {c : Char} {text rest : List Char}

/-! ## Marks -/

namespace Mark

/-- Whether a mark and the character behind it are the front of a longer mark. -/
def extended (mark : Mark) (c : Char) : Bool :=
  all.any fun other => (mark.text.toList ++ [c]).isPrefixOf other.text.toList

/-- The characters that stand behind the first one of some mark. -/
def followers : List Char := ['.', '=', '*', '+', '-', '<', '>', '&', '|', '?', '/']

theorem ofText?_text : ∀ mark ∈ all, ofText? mark.text.toList = some mark := by
  decide +kernel

/-- The table of marks is gone through once, for all that is needed of their characters. -/
theorem text_of_mem_all {mark : Mark} (hmark : mark ∈ all) :
    (0 < mark.text.toList.length ∧ mark.text.toList.length ≤ 4) ∧ (∀ c ∈ mark.text.toList.tail, c ∈ followers) ∧
    ∀ c ∈ mark.text.toList.head?, c.toNat ≤ 127 ∧ c.isAlpha = false ∧ c ≠ '$' ∧ c ≠ '_' ∧ c.isDigit = false ∧
      c ≠ '"' ∧ isBlank c = false := by
  have hall : all.all (fun mark => (0 < mark.text.toList.length && mark.text.toList.length ≤ 4) &&
      (mark.text.toList.tail.all followers.contains && mark.text.toList.head?.all fun c => c.toNat ≤ 127 &&
        !c.isAlpha && c ≠ '$' && c ≠ '_' && !c.isDigit && c ≠ '"' && !isBlank c)) = true := by
    decide +kernel
  obtain ⟨hlength, hchars⟩ := Bool.and_eq_true_iff.1 (List.all_eq_true.1 hall mark hmark)
  obtain ⟨htail, hhead⟩ := Bool.and_eq_true_iff.1 hchars
  refine ⟨by simpa using hlength, by simpa using htail, fun c hc => ?_⟩
  rw [Option.mem_def.1 hc] at hhead
  simpa [and_assoc] using hhead

theorem mem_followers_of_extended {mark : Mark} {c : Char} (hmark : mark ∈ all)
    (h : mark.extended c = true) : c ∈ followers := by
  obtain ⟨other, hother, hprefix⟩ := List.any_eq_true.1 h
  apply (text_of_mem_all hother).2.1
  obtain ⟨rest, hrest⟩ := List.isPrefixOf_iff_prefix.1 hprefix
  rw [← hrest]
  cases htext : mark.text.toList with
  | nil => simpa [htext] using (text_of_mem_all hmark).1.1
  | cons first text => simp

/-- Marks that no mark goes on with. -/
def closed : List Mark :=
  [.leftParen, .rightParen, .leftBracket, .rightBracket, .leftBrace, .rightBrace, .comma, .semicolon, .colon,
    .tilde, .increment, .decrement, .ellipsis]

theorem closed_subset_all : ∀ mark ∈ closed, mark ∈ all := by
  decide

theorem not_extended_of_mem_closed {mark : Mark} (hmark : mark ∈ closed) (c : Char) : mark.extended c = false := by
  have hall : closed.all (fun mark => all.all fun other => !mark.text.toList.isPrefixOf other.text.toList ||
      decide (other.text.toList.length ≤ mark.text.toList.length)) = true := by
    decide +kernel
  by_contra h
  have hextended : mark.extended c = true := by simpa using h
  obtain ⟨other, hother, hprefix⟩ := List.any_eq_true.1 hextended
  have hlonger := List.isPrefixOf_iff_prefix.1 hprefix
  have hfront : mark.text.toList.isPrefixOf other.text.toList = true :=
    List.isPrefixOf_iff_prefix.2 ((List.prefix_append _ _).trans hlonger)
  have hshort := List.all_eq_true.1 (List.all_eq_true.1 hall mark hmark) other hother
  have hlength := hlonger.length_le
  simp only [hfront, Bool.not_true, Bool.false_or, decide_eq_true_eq] at hshort
  rw [List.length_append, List.length_singleton] at hlength
  omega

theorem ofText?_eq_none_of_not_extended {mark : Mark} {c : Char} (h : mark.extended c = false)
    (rest : List Char) : ofText? (mark.text.toList ++ c :: rest) = none := by
  rw [ofText?, List.find?_eq_none]
  intro other hother heq
  have hprefix : (mark.text.toList ++ [c]).isPrefixOf other.text.toList = true := by
    rw [List.isPrefixOf_iff_prefix, eq_of_beq heq]
    exact ⟨rest, by simp⟩
  have hextended : mark.extended c = true := List.any_eq_true.2 ⟨other, hother, hprefix⟩
  simp [hextended] at h

/-- A mark is found again in front of anything that does not make it longer. -/
theorem longest?_append {mark : Mark} (hmark : mark ∈ all) {rest : List Char}
    (hrest : ∀ c ∈ rest.head?, mark.extended c = false) : longest? (mark.text.toList ++ rest) = some (mark, rest) := by
  obtain ⟨hpositive, hshort⟩ := (text_of_mem_all hmark).1
  have hself := ofText?_text mark hmark
  have hexact : (ofText? ((mark.text.toList ++ rest).take mark.text.toList.length)).map
      (fun found => (found, (mark.text.toList ++ rest).drop mark.text.toList.length)) =
        some (mark, rest) := by
    rw [List.take_left, hself, List.drop_left]
    rfl
  have hlonger : ∀ size, mark.text.toList.length < size →
      (ofText? ((mark.text.toList ++ rest).take size)).map
        (fun found => (found, (mark.text.toList ++ rest).drop size)) =
          if rest = [] then some (mark, rest) else none := by
    intro size hsize
    cases rest with
    | nil =>
      rw [if_pos rfl, List.append_nil, List.take_of_length_le hsize.le, hself,
        List.drop_of_length_le hsize.le]
      rfl
    | cons c rest =>
      obtain ⟨more, rfl⟩ : ∃ more, size = mark.text.toList.length + (more + 1) :=
        ⟨size - mark.text.toList.length - 1, by omega⟩
      rw [if_neg (by simp), List.take_length_add_append, List.take_succ_cons,
        ofText?_eq_none_of_not_extended (hrest c rfl)]
      rfl
  rw [longest?]
  generalize mark.text.toList.length = size at *
  interval_cases size <;> simp only [List.findSome?_cons, hexact] <;> split_ifs at hlonger <;> simp [hlonger]

end Mark

/-- A text is cut into lexemes, whatever these and the text behind it are cut into. -/
def Cuts (letters : Letters) (text : List Char) (cut : List Lexeme) (rest : List Char) : Prop :=
  lexemes letters (text ++ rest) = (lexemes letters rest).map (cut ++ ·)

section
variable {letters : Letters}

namespace Cuts

theorem append {a b rest : List Char} {cutA cutB : List Lexeme} (ha : Cuts letters a cutA (b ++ rest))
    (hb : Cuts letters b cutB rest) : Cuts letters (a ++ b) (cutA ++ cutB) rest := by
  unfold Cuts at ha hb ⊢
  rw [List.append_assoc, ha, hb, Option.map_map]
  congr 1
  funext cut
  exact (List.append_assoc cutA cutB cut).symm

theorem empty (rest : List Char) : Cuts letters [] [] rest := by
  simp [Cuts]

theorem blank (rest : List Char) : Cuts letters [' '] [] rest := by
  simp [Cuts, lexemes_blank]

theorem of_lexeme? {first : Char} {text rest : List Char} {lexeme : Lexeme}
    (hblank : isBlank first = false) (h : lexeme? letters first (text ++ rest) = some (lexeme, rest)) :
    Cuts letters (first :: text) [lexeme] rest :=
  lexemes_of_lexeme? hblank h

/-- A mark is cut off in front of anything that does not make it longer. -/
theorem mark {mark : Mark} (hmark : mark ∈ Mark.all) {rest : List Char}
    (hrest : ∀ c ∈ rest.head?, mark.extended c = false) : Cuts letters mark.text.toList [.mark mark] rest := by
  have hlongest := Mark.longest?_append hmark hrest
  have hhead := (Mark.text_of_mem_all hmark).2.2
  cases htext : mark.text.toList with
  | nil => simpa [htext] using (Mark.text_of_mem_all hmark).1.1
  | cons first text =>
    rw [htext] at hlongest hhead
    obtain ⟨hascii, halpha, hdollar, hline, hdigit, hquote, hblank⟩ := hhead first rfl
    have hstart : isStart letters first = false := by
      simp [isStart, halpha, hdollar, hline, hascii]
    apply of_lexeme? hblank
    rw [lexeme?, if_neg (by simp [hstart]), if_neg (by simp [hdigit]), if_neg hquote,
      ← List.cons_append, hlongest]
    rfl

theorem closed (mark : Mark) (hmark : mark ∈ Mark.closed) (rest : List Char) :
    Cuts letters mark.text.toList [.mark mark] rest :=
  Cuts.mark (Mark.closed_subset_all mark hmark) fun c _ => Mark.not_extended_of_mem_closed hmark c

/-- A mark between blanks. -/
theorem spaced (mark : Mark) (hmark : mark ∈ Mark.all) (rest : List Char) :
    Cuts letters (' ' :: mark.text.toList ++ [' ']) [.mark mark] rest := by
  have hblank : mark.extended ' ' = false := by
    by_contra h
    exact absurd (Mark.mem_followers_of_extended hmark (by simpa using h)) (by decide)
  have hmark : Cuts letters mark.text.toList [.mark mark] ([' '] ++ rest) :=
    Cuts.mark hmark (by simpa using hblank)
  exact ((Cuts.blank _).append hmark).append (Cuts.blank rest)

end Cuts

/-! ## Words -/

theorem isStart_of_isBlank (h : isBlank c = true) : isStart letters c = false := by
  rcases (by simpa [isBlank] using h : c = ' ' ∨ c = '\t') with rfl | rfl <;> simp [isStart]

theorem isStart_of_isDigit (h : c.isDigit = true) : isStart letters c = false := by
  have hrange : 48 ≤ c.toNat ∧ c.toNat ≤ 57 := by
    simpa [Char.isDigit, UInt32.le_iff_toNat_le] using h
  have halpha : c.isAlpha = false := by
    change (decide (65 ≤ c.val ∧ c.val ≤ 90) || 97 ≤ c.val && c.val ≤ 122) = false
    simp only [UInt32.le_iff_toNat_le, Bool.or_eq_false_iff, Bool.and_eq_false_iff, decide_eq_false_iff_not]
    change ¬ (65 ≤ c.toNat ∧ c.toNat ≤ 90) ∧ (¬ 97 ≤ c.toNat ∨ ¬ c.toNat ≤ 122)
    omega
  have hdollar : c ≠ '$' := by
    rintro rfl
    exact absurd hrange.1 (by decide)
  have hline : c ≠ '_' := by
    rintro rfl
    exact absurd hrange.2 (by decide)
  have hascii : c.toNat ≤ 127 := by omega
  simp [isStart, halpha, hdollar, hline, hascii]

theorem isStart_of_not_isPart (h : isPart letters c = false) : isStart letters c = false := by
  simp only [isPart, Bool.or_eq_false_iff] at h
  exact h.1.1

theorem isDigit_of_not_isPart (h : isPart letters c = false) : c.isDigit = false := by
  simp only [isPart, Bool.or_eq_false_iff] at h
  exact h.1.2

theorem takeWhile_append_of_stop {p : Char → Bool}
    (htext : ∀ c ∈ text, p c = true) (hrest : ∀ c ∈ rest.head?, p c = false) : (text ++ rest).takeWhile p = text := by
  rw [List.takeWhile_append_of_pos htext]
  cases rest with
  | nil => simp
  | cons c rest => simp [hrest c rfl]

theorem dropWhile_append_of_stop {p : Char → Bool}
    (htext : ∀ c ∈ text, p c = true) (hrest : ∀ c ∈ rest.head?, p c = false) : (text ++ rest).dropWhile p = rest := by
  rw [List.dropWhile_append_of_pos htext]
  cases rest with
  | nil => simp
  | cons c rest => simp [hrest c rfl]

theorem Cuts.word {text : String} (hword : isWord letters text = true)
    (hrest : ∀ c ∈ rest.head?, isPart letters c = false) : Cuts letters text.toList [.word text] rest := by
  unfold isWord at hword
  cases htext : text.toList with
  | nil => simp [htext] at hword
  | cons first tail =>
    simp only [htext, Bool.and_eq_true, List.all_eq_true] at hword
    obtain ⟨hstart, htail⟩ := hword
    have hblank : isBlank first = false := by
      by_contra hblank
      have hnot : isStart letters first = false := isStart_of_isBlank (by simpa using hblank)
      simp [hstart] at hnot
    apply Cuts.of_lexeme? hblank
    rw [lexeme?, if_pos hstart, takeWhile_append_of_stop htail hrest,
      dropWhile_append_of_stop htail hrest, ← htext, String.ofList_toList]

/-! ## Numbers -/

theorem fraction_of_head (h : rest.head? ≠ some '.') : fraction rest = ([], rest) := by
  unfold fraction
  split
  · simp at h
  · rfl

theorem Cuts.numeral {whole places : List Char} (h : Binary64.Numeral text whole places)
    (hpart : ∀ c ∈ rest.head?, isPart letters c = false) (hpoint : rest.head? ≠ some '.') :
    Cuts letters text [.number (Binary64.ofDecimal whole places)] rest := by
  obtain ⟨first, digits, rfl⟩ : ∃ first digits, whole = first :: digits :=
    List.exists_cons_of_ne_nil h.whole_ne_nil
  have hfirst : first.isDigit = true := h.isDigit_whole first List.mem_cons_self
  have hdigits : ∀ c ∈ digits, c.isDigit = true :=
    fun c hmem => h.isDigit_whole c (List.mem_cons_of_mem first hmem)
  have hstop : ∀ c ∈ rest.head?, c.isDigit = false :=
    fun c hc => isDigit_of_not_isPart (hpart c hc)
  have hblank : isBlank first = false := by
    by_contra hblank
    rcases (by simpa [isBlank, -not_or, or_iff_not_imp_left] using hblank : first = ' ' ∨ first = '\t')
      with rfl | rfl <;> simp at hfirst
  have hzero : (first = '0' && !digits.isEmpty) = false := by
    rcases h.head_whole with hlone | hhead
    · simp_all
    · simp_all
  have hafter : rest.head?.any (isStart letters) = false := by
    cases rest with
    | nil => rfl
    | cons c rest => exact isStart_of_not_isPart (hpart c rfl)
  have hnumber : ∀ tail : List Char, tail.takeWhile Char.isDigit = digits →
      fraction (tail.dropWhile Char.isDigit) = (places, rest) →
        lexeme? letters first tail = some (.number (Binary64.ofDecimal (first :: digits) places), rest) := by
    intro tail htake hdrop
    rw [lexeme?, if_neg (by simp [isStart_of_isDigit hfirst]), if_pos hfirst, number?, htake, hdrop]
    simp [hzero, hafter]
  rw [h.eq]
  split
  · rename_i hplaces
    apply Cuts.of_lexeme? hblank
    apply hnumber
    · exact takeWhile_append_of_stop hdigits hstop
    · rw [dropWhile_append_of_stop hdigits hstop, fraction_of_head hpoint, hplaces]
  · rw [List.cons_append]
    apply Cuts.of_lexeme? hblank
    have hpointed : ∀ c ∈ ('.' :: places ++ rest).head?, c.isDigit = false := by simp
    rw [List.append_assoc]
    apply hnumber
    · exact takeWhile_append_of_stop hdigits hpointed
    · rw [dropWhile_append_of_stop hdigits hpointed, List.cons_append, fraction,
        takeWhile_append_of_stop h.isDigit_fraction hstop, dropWhile_append_of_stop h.isDigit_fraction hstop]

/-! ## Strings -/

theorem stringBody?_escape (c : Char) (rest : List Char) : stringBody? (Text.Quoted.escape c ++ rest) =
      (stringBody? rest).map fun (value, after) => (c :: value, after) := by
  unfold Text.Quoted.escape
  split
  case h_8 hquote hslash _ _ hline hreturn _ =>
    split
    · rename_i hcontrol
      have hcode : ∀ code < 32, unicode? '0' '0' (Text.Quoted.hexDigit (code / 16))
          (Text.Quoted.hexDigit (code % 16)) = some (Char.ofNat code) := by
        decide
      simp only [List.cons_append, List.nil_append, stringBody?]
      rw [hcode c.toNat hcontrol, Char.ofNat_toNat]
      cases stringBody? rest <;> rfl
    · rw [List.cons_append, List.nil_append, stringBody?]
      · have hplain : ¬ (c = '\\' || c = '\n' || c = '\r') = true := by
          simp only [Bool.or_eq_true, decide_eq_true_eq]
          rintro ((h | h) | h)
          exacts [hslash h, hline h, hreturn h]
        rw [if_neg hplain]
        cases stringBody? rest <;> rfl
      all_goals simp_all
  all_goals
    rw [List.cons_append, List.cons_append, List.nil_append, stringBody?]
    · cases stringBody? rest <;> rfl
    all_goals simp

theorem stringBody?_flatMap_escape (value rest : List Char) :
    stringBody? (value.flatMap Text.Quoted.escape ++ '"' :: rest) = some (value, rest) := by
  induction value with
  | nil => rw [List.flatMap_nil, List.nil_append, stringBody?]
  | cons c value ih => rw [List.flatMap_cons, List.append_assoc, stringBody?_escape, ih]; rfl

theorem Cuts.quoted (value : String) (rest : List Char) :
    Cuts letters (Text.Quoted.encode value).toList [.string value] rest := by
  rw [Text.Quoted.encode, String.toList_ofList, List.cons_append]
  apply Cuts.of_lexeme? (by decide)
  have hstart : isStart letters '"' = false := by simp [isStart]
  rw [lexeme?, if_neg (by simp [hstart]), if_neg (by decide), if_pos rfl, List.append_assoc,
    List.singleton_append, stringBody?_flatMap_escape, Option.map_some]
  simp

end

end Offside.JavaScript
