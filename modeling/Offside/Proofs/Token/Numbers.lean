import Offside.Proofs.JavaScript.Spelling
import Offside.Proofs.Token.LineNumbers
import Offside.Proofs.Token.Spacing

/-!
# Numbers

Where a token starts with a digit, the scanner takes the longest text that has the form of a number.  It is a number if
all its separators stand in front of digits, and a fault otherwise.  Its value is that of the text without the
separators, and the text that a script has for this value is read as the same number again.
-/

namespace Offside.Token

open String (utf8Len)

/-! ## The form of a number -/

/-- Digits and separators. -/
def Digits (text : List Char) : Prop := ∀ c ∈ text, c.isDigit = true ∨ c = '_'

/-- A point, a digit, and digits and separators, or nothing. -/
def IsFraction (text : List Char) : Prop :=
  text = [] ∨ ∃ d rest, text = '.' :: d :: rest ∧ d.isDigit = true ∧ Digits rest

/-- At least one digit or separator, and a fraction. -/
def IsNumber (text : List Char) : Prop :=
  ∃ whole part, text = whole ++ part ∧ whole ≠ [] ∧ Digits whole ∧ IsFraction part

/-- The longest front of a text that has a form. -/
def Longest (form : List Char → Prop) (front text : List Char) : Prop :=
  form front ∧ front <+: text ∧ ∀ other, form other → other <+: text → other <+: front

/-- Every separator stands in front of a digit. -/
def Separated (text : List Char) : Prop := ∀ front back, text = front ++ '_' :: back → ∃ d ∈ back.head?, d.isDigit = true

theorem separated_cons {c : Char} {rest : List Char} :
    Separated (c :: rest) ↔ (c = '_' → ∃ d ∈ rest.head?, d.isDigit = true) ∧ Separated rest := by
  constructor
  · intro h
    exact ⟨fun hc => h [] rest (by rw [hc]; rfl), fun front back heq => h (c :: front) back (by rw [heq]; rfl)⟩
  · rintro ⟨hfirst, hrest⟩ front back heq
    cases front with
    | nil =>
      obtain ⟨hc, rfl⟩ := List.cons.inj heq
      exact hfirst hc
    | cons _ front => exact hrest front back (List.cons.inj heq).2

theorem separated_of_not_mem {text : List Char} (h : '_' ∉ text) : Separated text := by
  rintro front back rfl
  simp at h

namespace Cut

theorem separatorsHold_iff (text : List Char) : separatorsHold text = true ↔ Separated text := by
  fun_induction separatorsHold text with
  | case1 => simp [Separated]
  | case2 c => simp [separated_cons, separated_of_not_mem]
  | case3 c d rest ih => simp [separated_cons, ← ih, or_iff_not_imp_left]

theorem isDigitOrSeparator_iff {c : Char} : isDigitOrSeparator c = true ↔ c.isDigit = true ∨ c = '_' := by
  simp [isDigitOrSeparator]

theorem isDigitOrSeparator_of_isDigit {text : List Char} (h : ∀ c ∈ text, c.isDigit = true) :
    ∀ c ∈ text, isDigitOrSeparator c = true :=
  fun c hc => isDigitOrSeparator_iff.2 (.inl (h c hc))

theorem digits_takeWhile (text : List Char) : Digits (text.takeWhile isDigitOrSeparator) :=
  fun _ hc => isDigitOrSeparator_iff.1 (List.mem_takeWhile_imp hc)

end Cut

/-- A front of digits and separators ends where the others do at the latest. -/
theorem Digits.prefix_takeWhile {front text : List Char} (hdigits : Digits front) (h : front <+: text) :
    front <+: text.takeWhile Cut.isDigitOrSeparator := by
  obtain ⟨back, rfl⟩ := h
  rw [List.takeWhile_append_of_pos fun c hc => Cut.isDigitOrSeparator_iff.2 (hdigits c hc)]
  exact List.prefix_append _ _

theorem ne_of_isDigit {first c : Char} (h : first.isDigit = true) (hc : c.isDigit = false) : first ≠ c := by
  rintro rfl
  rw [h] at hc
  cases hc

theorem Digits.filter_eq {text : List Char} (h : Digits text) : text.filter (· ≠ '_') = text.filter Char.isDigit := by
  refine List.filter_congr fun c hc => ?_
  rcases h c hc with hdigit | rfl
  · simp [hdigit, ne_of_isDigit hdigit (c := '_') rfl]
  · rfl

namespace Cut

variable {first : Char}

theorem text_number (hdigit : first.isDigit = true) (rest : List Char) :
    (number first rest).piece.text = (first :: rest).takeWhile isDigitOrSeparator ++
      (fraction ((first :: rest).dropWhile isDigitOrSeparator)).1 := by
  have hfirst : isDigitOrSeparator first = true := isDigitOrSeparator_iff.2 (.inl hdigit)
  simp [number, hfirst]

theorem isFraction_fraction (text : List Char) : IsFraction (fraction text).1 := by
  rcases fraction_cases text with hnil | ⟨d, rest, hdigit, hpart⟩
  · exact .inl hnil
  · exact .inr ⟨d, _, hpart, hdigit, digits_takeWhile rest⟩

/-- A number is read as far as its form goes. -/
theorem longest_number (hdigit : first.isDigit = true) (rest : List Char) :
    Longest IsNumber (number first rest).piece.text (first :: rest) := by
  have hwhole : (number first rest).whole = first :: rest := whole_number first rest
  refine ⟨⟨_, _, text_number hdigit rest, ?_, digits_takeWhile _, isFraction_fraction _⟩, ⟨_, hwhole⟩, ?_⟩
  · simp [isDigitOrSeparator_iff.2 (.inl hdigit)]
  · rintro _ ⟨whole, part, rfl, -, hdigits, hpart⟩ hprefix
    rw [text_number hdigit]
    rcases hpart with rfl | ⟨d, tail, rfl, hd, htail⟩
    · rw [List.append_nil] at hprefix ⊢
      exact (hdigits.prefix_takeWhile hprefix).trans (List.prefix_append _ _)
    · -- The point ends the whole part of both, and the fraction of the scanner goes on to the end of all digits.
      obtain ⟨back, heq⟩ := hprefix
      have hpoint : ∀ c ∈ ('.' :: d :: (tail ++ back)).head?, isDigitOrSeparator c = false := by
        simp [isDigitOrSeparator]
      have hall : ∀ c ∈ whole, isDigitOrSeparator c = true := fun c hc => isDigitOrSeparator_iff.2 (hdigits c hc)
      obtain ⟨htake, hdrop⟩ := takeWhile_append_of_head hpoint whole
      rw [List.takeWhile_eq_self_iff.2 hall] at htake
      rw [List.dropWhile_eq_nil_iff.2 hall, List.nil_append] at hdrop
      rw [← heq, List.append_assoc, List.cons_append, List.cons_append, htake, hdrop, fraction, if_pos hd,
        List.prefix_append_right_inj, List.cons_prefix_cons, List.cons_prefix_cons]
      exact ⟨rfl, rfl, htail.prefix_takeWhile (List.prefix_append _ _)⟩

theorem ofFirst_digit (h : first.isDigit = true) (rest : List Char) : ofFirst first rest = number first rest := by
  have hne : ∀ c : Char, c.isDigit = false → first ≠ c := fun _ => ne_of_isDigit h
  simp [ofFirst, h, hne ' ' rfl, hne '\r' rfl, hne '\t' rfl, hne '\n' rfl, hne '#' rfl, hne '"' rfl, hne '\x27' rfl,
    hne '\x60' rfl]

end Cut

/-! ## Decimal text -/

/-- Digits and the places behind the point, which is left out if there are none. -/
def decimal (whole places : List Char) : List Char := if places = [] then whole else whole ++ '.' :: places

theorem mem_decimal {whole places : List Char} (hwhole : ∀ c ∈ whole, c.isDigit = true)
    (hplaces : ∀ c ∈ places, c.isDigit = true) : ∀ c ∈ decimal whole places, c.isDigit = true ∨ c = '.' := by
  intro c hc
  unfold decimal at hc
  split at hc
  · exact .inl (hwhole c hc)
  · rcases List.mem_append.1 hc with hc | hc
    · exact .inl (hwhole c hc)
    · exact (List.mem_cons.1 hc).symm.imp_left (hplaces c)

theorem pieces_number {first : Char} {digits part : List Char} (hwhole : ∀ c ∈ first :: digits, c.isDigit = true)
    (hhead : ∀ c ∈ part.head?, Cut.isDigitOrSeparator c = false) (hpart : Cut.fraction part = (part, []))
    (hline : '_' ∉ first :: digits ++ part) : pieces (first :: digits ++ part) =
      [⟨first :: digits ++ part, .token (.number (Binary64.ofDecimal (first :: digits) (part.filter Char.isDigit)))⟩] := by
  have hhold := (Cut.separatorsHold_iff _).2 (separated_of_not_mem hline)
  have hself : (first :: digits).filter Char.isDigit = first :: digits := List.filter_eq_self.2 hwhole
  obtain ⟨hfirst, hdigits⟩ := List.forall_mem_cons.1 hwhole
  obtain ⟨htake, hdrop⟩ := Cut.takeWhile_append_of_head hhead digits
  rw [List.takeWhile_eq_self_iff.2 (Cut.isDigitOrSeparator_of_isDigit hdigits)] at htake
  rw [List.dropWhile_eq_nil_iff.2 (Cut.isDigitOrSeparator_of_isDigit hdigits), List.nil_append] at hdrop
  rw [List.cons_append, pieces, Cut.ofFirst_digit hfirst, Cut.number]
  simp only [htake, hdrop, hpart, hhold, if_true, Cut.numberValue, hself]
  rw [pieces]
  rfl

/-- Digits with a fraction are cut off as one number. -/
theorem pieces_decimal {whole places : List Char} (hne : whole ≠ []) (hwhole : ∀ c ∈ whole, c.isDigit = true)
    (hplaces : ∀ c ∈ places, c.isDigit = true) : pieces (decimal whole places) =
      [⟨decimal whole places, .token (.number (Binary64.ofDecimal whole places))⟩] := by
  have hline : '_' ∉ decimal whole places := fun hmem => absurd (mem_decimal hwhole hplaces _ hmem) (by decide)
  obtain ⟨first, digits, rfl⟩ := List.exists_cons_of_ne_nil hne
  cases places with
  | nil =>
    have hpieces := @pieces_number first digits [] hwhole
    rw [List.append_nil] at hpieces
    exact hpieces (by simp) rfl hline
  | cons d places =>
    obtain ⟨hd, hrest⟩ := List.forall_mem_cons.1 hplaces
    have hrun := Cut.isDigitOrSeparator_of_isDigit hrest
    have hpart : Cut.fraction ('.' :: d :: places) = ('.' :: d :: places, []) := by
      rw [Cut.fraction, if_pos hd, List.takeWhile_eq_self_iff.2 hrun, List.dropWhile_eq_nil_iff.2 hrun]
    have hfilter : ('.' :: d :: places).filter Char.isDigit = d :: places := by
      rw [List.filter_cons_of_neg (by decide), List.filter_eq_self.2 hplaces]
    have hpieces := pieces_number hwhole (by simp [Cut.isDigitOrSeparator]) hpart hline
    rw [hfilter] at hpieces
    exact hpieces

/-- The scan of a text that is one number. -/
def Scan.ofNumber (value : Binary64) (text : String) : Scan :=
  ⟨[⟨.number value, text, 0, text.utf8ByteSize, 1⟩, ⟨.eof, "", text.utf8ByteSize, text.utf8ByteSize, 1⟩], []⟩

theorem Scan.ofSource_decimal {whole places : List Char} (hne : whole ≠ []) (hwhole : ∀ c ∈ whole, c.isDigit = true)
    (hplaces : ∀ c ∈ places, c.isDigit = true) : ofSource (String.ofList (decimal whole places)) =
      ofNumber (Binary64.ofDecimal whole places) (String.ofList (decimal whole places)) := by
  have hline : (decimal whole places).count '\n' = 0 :=
    List.count_eq_zero.2 fun hmem => absurd (mem_decimal hwhole hplaces _ hmem) (by decide)
  rw [ofSource, String.toList_ofList, pieces_decimal hne hwhole hplaces]
  simp [ofPieces, prepend, empty, ofNumber, Cursor.after_eq, Cursor.start, hline, String.utf8ByteSize_ofList]

namespace Cut

/-- Without its separators, a number is its digits and its places. -/
theorem filter_text_number {first : Char} (hdigit : first.isDigit = true) (rest : List Char) :
    ∃ whole places, whole ≠ [] ∧ (∀ c ∈ whole, c.isDigit = true) ∧ (∀ c ∈ places, c.isDigit = true) ∧
      (number first rest).piece.text.filter (· ≠ '_') = decimal whole places ∧
      (number first rest).piece.content =
        if separatorsHold (number first rest).piece.text then .token (.number (Binary64.ofDecimal whole places))
        else .fault .looseSeparator := by
  have hwhole := (digits_takeWhile (first :: rest)).filter_eq
  rw [List.takeWhile_cons_of_pos (isDigitOrSeparator_iff.2 (.inl hdigit))] at hwhole
  refine ⟨(first :: rest.takeWhile isDigitOrSeparator).filter Char.isDigit,
    (fraction (rest.dropWhile isDigitOrSeparator)).1.filter Char.isDigit, ?_, ?_, ?_, ?_, rfl⟩
  · simp [hdigit]
  · exact fun c hc => (List.mem_filter.1 hc).2
  · exact fun c hc => (List.mem_filter.1 hc).2
  · rw [number, List.filter_append, hwhole, decimal]
    rcases isFraction_fraction (rest.dropWhile isDigitOrSeparator) with hpart | ⟨d, tail, hpart, hd, htail⟩
    · simp [hpart]
    · have hne : d ≠ '_' := ne_of_isDigit hd rfl
      simpa [hpart, hd, hne] using htail.filter_eq

end Cut

/-- The pieces from a place on are those of the text from there on. -/
theorem pieces_flatMap_text {text : List Char} {front later : List Piece} (h : pieces text = front ++ later) :
    pieces (later.flatMap Piece.text) = later := by
  induction front generalizing text with
  | nil =>
    rw [List.nil_append] at h
    rw [← h, flatMap_text_pieces]
  | cons piece front ih =>
    cases text with
    | nil => simp [pieces] at h
    | cons first rest =>
      rw [pieces] at h
      exact ih (List.cons.inj h).2

end Offside.Token
