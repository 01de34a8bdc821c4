import Mathlib.Tactic.IntervalCases
import Mathlib.Tactic.Linarith
import Mathlib.Tactic.Ring
import Offside.Binary64.Decimal

/-!
# Numbers read back from their text

The text of a finite number is the shortest decimal that rounds to it.  Sizes of magnitudes in units grow
strictly, so at most one magnitude is nearest to a decimal, and the decimal that passed the test `roundsTo`
is read as the magnitude it was tested for.  The last part takes the text apart into digits and a fraction.
-/

namespace Offside.Binary64

variable {magnitude digits : Nat} {decimal : Decimal}

/-! ## Sizes -/

theorem units_eq (magnitude : Nat) : units magnitude = if magnitude < 2 ^ 52 then magnitude
      else (2 ^ 52 + magnitude % 2 ^ 52) * 2 ^ (magnitude / 2 ^ 52 - 1) := rfl

theorem units_of_lt (h : magnitude < 2 ^ 52) : units magnitude = magnitude := by
  rw [units_eq, if_pos h]

/-- The size of a significand of 53 bits that is scaled by a power of two.  The first significand behind
them is the least one of the next power. -/
theorem units_scaled {scale significand : Nat} (hlow : 2 ^ 52 ≤ significand) (hhigh : significand ≤ 2 ^ 53) :
    units (scale * 2 ^ 52 + significand) = significand * 2 ^ scale := by
  have hnormal : ¬ scale * 2 ^ 52 + significand < 2 ^ 52 := by omega
  rw [units_eq, if_neg hnormal]
  by_cases htop : significand = 2 ^ 53
  · subst htop
    have hquotient : (scale * 2 ^ 52 + 2 ^ 53) / 2 ^ 52 = scale + 2 := by omega
    have hremainder : (scale * 2 ^ 52 + 2 ^ 53) % 2 ^ 52 = 0 := by omega
    rw [hquotient, hremainder, show scale + 2 - 1 = scale + 1 by omega]
    ring
  · have hquotient : (scale * 2 ^ 52 + significand) / 2 ^ 52 = scale + 1 := by omega
    have hremainder : (scale * 2 ^ 52 + significand) % 2 ^ 52 = significand - 2 ^ 52 := by omega
    rw [hquotient, hremainder, show scale + 1 - 1 = scale by omega, Nat.add_sub_cancel' hlow]

theorem eq_scaled_of_le (h : 2 ^ 52 ≤ magnitude) : ∃ scale significand, 2 ^ 52 ≤ significand ∧ significand < 2 ^ 53 ∧
      magnitude = scale * 2 ^ 52 + significand := by
  refine ⟨magnitude / 2 ^ 52 - 1, magnitude % 2 ^ 52 + 2 ^ 52, ?_, ?_, ?_⟩ <;> omega

theorem units_lt_units_succ (magnitude : Nat) : units magnitude < units (magnitude + 1) := by
  by_cases hsmall : magnitude < 2 ^ 52
  · rw [units_of_lt hsmall]
    by_cases hnext : magnitude + 1 < 2 ^ 52
    · rw [units_of_lt hnext]
      omega
    · have hedge : magnitude + 1 = 0 * 2 ^ 52 + 2 ^ 52 := by omega
      rw [hedge, units_scaled (by omega) (by omega)]
      omega
  · obtain ⟨scale, significand, hlow, hhigh, rfl⟩ := eq_scaled_of_le (not_lt.1 hsmall)
    rw [units_scaled hlow hhigh.le, Nat.add_assoc, units_scaled (by omega) (by omega)]
    exact Nat.mul_lt_mul_of_pos_right (by omega) (Nat.two_pow_pos scale)

theorem units_strictMono : StrictMono units := strictMono_nat_of_lt_succ units_lt_units_succ

/-- `floorOfUnits` finds the two neighbouring magnitudes that a size lies between. -/
theorem units_floorOfUnits (size : Nat) : units (floorOfUnits size) ≤ size ∧ size < units (floorOfUnits size + 1) := by
  by_cases hsmall : size < 2 ^ 52
  · have hfloor : floorOfUnits size = size := if_pos hsmall
    rw [hfloor]
    have hnext := units_lt_units_succ size
    rw [units_of_lt hsmall] at hnext ⊢
    exact ⟨le_rfl, hnext⟩
  · have hfloor : floorOfUnits size =
        (size.log2 - 52) * 2 ^ 52 + size / 2 ^ (size.log2 - 52) := if_neg hsmall
    have hlow : 2 ^ size.log2 ≤ size := Nat.log2_self_le (by omega)
    have hhigh : size < 2 ^ (size.log2 + 1) := Nat.lt_log2_self
    have hlog : 52 ≤ size.log2 := (Nat.le_log2 (by omega)).2 (not_lt.1 hsmall)
    obtain ⟨scale, hscale⟩ : ∃ scale, size.log2 = scale + 52 := ⟨_, (Nat.sub_add_cancel hlog).symm⟩
    rw [hfloor, hscale, Nat.add_sub_cancel]
    rw [hscale] at hlow hhigh
    have hpositive : 0 < 2 ^ scale := Nat.two_pow_pos scale
    have hleast : 2 ^ 52 ≤ size / 2 ^ scale := by
      rw [Nat.le_div_iff_mul_le hpositive, ← Nat.pow_add, Nat.add_comm]
      exact hlow
    have hgreatest : size / 2 ^ scale < 2 ^ 53 := by
      rw [Nat.div_lt_iff_lt_mul hpositive, ← Nat.pow_add, Nat.add_comm]
      exact hhigh
    rw [units_scaled hleast hgreatest.le, Nat.add_assoc, units_scaled (by omega) (by omega)]
    refine ⟨Nat.div_mul_le_self size _, ?_⟩
    rw [Nat.mul_comm]
    exact Nat.lt_mul_div_succ size hpositive

/-! ## Rounding -/

theorem roundsTo_iff {num den : Nat} : roundsTo magnitude num den = true ↔
      let twice := 2 * (num * Nat.pow 2 1074)
      let low := (units (magnitude - 1) + units magnitude) * den
      let high := (units magnitude + units (magnitude + 1)) * den
      if magnitude % 2 = 0 then low ≤ twice ∧ twice ≤ high else low < twice ∧ twice < high := by
  unfold roundsTo
  generalize Nat.pow 2 1074 = scale
  dsimp only
  split <;> simp

/-- A ratio that is close enough to a finite magnitude is rounded to it. -/
theorem nearest_of_roundsTo {num den : Nat} (hpositive : 0 < magnitude)
    (hfinite : magnitude < infinity) (hden : 0 < den)
    (hrounds : roundsTo magnitude num den = true) : nearest num den = magnitude := by
  rw [roundsTo_iff] at hrounds
  simp only [nearest]
  generalize num * Nat.pow 2 1074 = size at hrounds ⊢
  obtain ⟨hbelow, habove⟩ := units_floorOfUnits (size / den)
  generalize floorOfUnits (size / den) = below at hbelow habove ⊢
  have hbelow : units below * den ≤ size := (Nat.le_div_iff_mul_le hden).1 hbelow
  have habove : size < units (below + 1) * den := (Nat.div_lt_iff_lt_mul hden).1 habove
  have hlow : (units (magnitude - 1) + units magnitude) * den ≤ 2 * size := by
    split at hrounds <;> omega
  have hhigh : 2 * size ≤ (units magnitude + units (magnitude + 1)) * den := by
    split at hrounds <;> omega
  have hle : below ≤ magnitude := by
    by_contra hgreater
    have hunits : units (magnitude + 1) ≤ units below := units_strictMono.monotone (by omega)
    have hstep := units_lt_units_succ magnitude
    have := Nat.mul_le_mul_right den hunits
    have := Nat.mul_lt_mul_of_pos_right hstep hden
    rw [Nat.add_mul] at hhigh
    omega
  have hge : magnitude ≤ below + 1 := by
    by_contra hless
    have hunits : units (below + 1) ≤ units (magnitude - 1) := units_strictMono.monotone (by omega)
    have hstep : units (magnitude - 1) < units magnitude := units_strictMono (by omega)
    have := Nat.mul_le_mul_right den hunits
    have := Nat.mul_lt_mul_of_pos_right hstep hden
    rw [Nat.add_mul] at hlow
    omega
  rw [if_neg (by omega)]
  -- the ratio lies in the step above the magnitude or in the step below it
  obtain rfl | hpred : below = magnitude ∨ magnitude = below + 1 := by omega
  · split at hrounds <;> (repeat' split) <;> omega
  · subst hpred
    rw [Nat.add_sub_cancel] at hrounds hlow
    split at hrounds <;> (repeat' split) <;> omega

theorem nearest_zero : nearest 0 1 = 0 := by
  unfold nearest
  generalize Nat.pow 2 1074 = scale
  rw [Nat.zero_mul]
  decide

/-! ## Shortest decimals -/

/-- Whether a decimal is rounded to a magnitude. -/
def Decimal.StandsFor (decimal : Decimal) (magnitude : Nat) : Prop :=
  roundsTo magnitude (decimal.digits * Nat.pow 10 decimal.exponent.toNat)
    (Nat.pow 10 (-decimal.exponent).toNat) = true

theorem standsFor_of_onGrid? {exponent : Int}
    (h : onGrid? magnitude exponent = some decimal) : decimal.StandsFor magnitude := by
  simp only [onGrid?] at h
  split at h
  · rename_i hdown
    cases h
    exact (Bool.and_eq_true_iff.1 hdown).1
  · split at h
    · rename_i hup
      cases h
      exact hup
    · cases h

theorem five_pow_mul_two_pow (n : Nat) : Nat.pow 5 n * Nat.pow 2 n = Nat.pow 10 n :=
  (Nat.mul_pow 5 2 n).symm

theorem ten_pow_pos (n : Nat) : 0 < Nat.pow 10 n := Nat.pow_pos (by decide)

/-- Every magnitude is a point of the finest grid. -/
theorem standsFor_finest (hpositive : 0 < magnitude) :
    Decimal.StandsFor ⟨units magnitude * Nat.pow 5 1074, -1074⟩ magnitude := by
  have hscale := five_pow_mul_two_pow 1074
  have hpower := ten_pow_pos 1074
  have hbefore : units (magnitude - 1) < units magnitude := units_strictMono (by omega)
  have hbehind := units_lt_units_succ magnitude
  rw [Decimal.StandsFor, roundsTo_iff]
  simp only [show (-1074 : Int).toNat = 0 by rfl, show (-(-1074 : Int)).toNat = 1074 by rfl]
  rw [show Nat.pow 10 0 = 1 from rfl, Nat.mul_one, Nat.mul_assoc, hscale]
  generalize Nat.pow 10 1074 = power at hpower ⊢
  have hlow : (units (magnitude - 1) + units magnitude) * power < 2 * (units magnitude * power) := by
    nlinarith
  have hhigh : 2 * (units magnitude * power) < (units magnitude + units (magnitude + 1)) * power := by
    nlinarith
  split
  · exact ⟨hlow.le, hhigh.le⟩
  · exact ⟨hlow, hhigh⟩

theorem standsFor_shortestFrom (hpositive : 0 < magnitude) (fineness : Nat) :
    (shortestFrom magnitude fineness).StandsFor magnitude := by
  induction fineness with
  | zero => exact standsFor_finest hpositive
  | succ fineness ih =>
    rw [shortestFrom]
    split
    · rename_i hgrid
      exact standsFor_of_onGrid? hgrid
    · exact ih

theorem digits_pos_of_standsFor (hpositive : 0 < magnitude) (h : decimal.StandsFor magnitude) : 0 < decimal.digits := by
  by_contra hzero
  have hsize : 0 < units magnitude := (Nat.zero_le _).trans_lt (units_strictMono hpositive)
  have hden := ten_pow_pos (-decimal.exponent).toNat
  rw [Decimal.StandsFor, roundsTo_iff, Nat.eq_zero_of_not_pos hzero] at h
  simp only [Nat.zero_mul, Nat.mul_zero] at h
  have := Nat.mul_pos (Nat.add_pos_right (units (magnitude - 1)) hsize) hden
  split at h <;> omega

/-! ## Digits -/

theorem digitsValue_eq (digits : List Char) : digitsValue digits = Nat.ofDigitChars 10 digits 0 := rfl

theorem digitsValue_toDigits (n : Nat) : digitsValue (Nat.toDigits 10 n) = n :=
  Nat.ofDigitChars_ten_toDigits

theorem digitsValue_append_zeros (digits : List Char) (zeros : Nat) :
    digitsValue (digits ++ List.replicate zeros '0') = digitsValue digits * 10 ^ zeros := by
  rw [digitsValue_eq, Nat.ofDigitChars_append, Nat.ofDigitChars_replicate_zero, Nat.mul_comm]
  rfl

theorem digitsValue_zeros_append (zeros : Nat) (digits : List Char) :
    digitsValue (List.replicate zeros '0' ++ digits) = digitsValue digits := by
  rw [digitsValue_eq, Nat.ofDigitChars_append, Nat.ofDigitChars_replicate_zero, Nat.mul_zero]
  rfl

theorem isDigit_toDigits {n : Nat} : ∀ c ∈ Nat.toDigits 10 n, c.isDigit = true := by
  intro c hmem
  exact Nat.isDigit_of_mem_toDigits (by decide) (by decide) hmem

theorem head?_toDigits_append (n : Nat) (rest : List Char) :
    (Nat.toDigits 10 n ++ rest).head? = (Nat.toDigits 10 n).head? := by
  cases hdigits : Nat.toDigits 10 n with
  | nil => exact absurd hdigits Nat.toDigits_ne_nil
  | cons first digits => rfl

/-- A positive number is written without a zero in front. -/
theorem head?_toDigits_ne_zero {n : Nat} (hpositive : 0 < n) : (Nat.toDigits 10 n).head? ≠ some '0' := by
  induction n using Nat.strongRecOn with
  | ind n ih =>
    by_cases hsmall : n < 10
    · rw [Nat.toDigits_of_lt_base hsmall]
      interval_cases n <;> decide
    · rw [Nat.toDigits_of_base_le (by decide) (by omega), head?_toDigits_append]
      exact ih (n / 10) (by omega) (by omega)

/-- How a number is written: digits without needless zeros in front, and a fraction unless it is whole. -/
structure Numeral (text whole fraction : List Char) : Prop where
  eq : text = if fraction = [] then whole else whole ++ '.' :: fraction
  isDigit_whole : ∀ c ∈ whole, c.isDigit = true
  isDigit_fraction : ∀ c ∈ fraction, c.isDigit = true
  whole_ne_nil : whole ≠ []
  head_whole : whole = ['0'] ∨ whole.head? ≠ some '0'

theorem numeral_append_zeros (hpositive : 0 < digits) (zeros : Nat) :
    Numeral (Nat.toDigits 10 digits ++ List.replicate zeros '0')
      (Nat.toDigits 10 digits ++ List.replicate zeros '0') [] where
  eq := rfl
  isDigit_whole := by
    intro c hmem
    rcases List.mem_append.1 hmem with hmem | hmem
    · exact isDigit_toDigits c hmem
    · rw [List.eq_of_mem_replicate hmem]
      decide
  isDigit_fraction := by simp
  whole_ne_nil := by simp
  head_whole := by
    rw [head?_toDigits_append]
    exact Or.inr (head?_toDigits_ne_zero hpositive)

/-- The digits of a number, with zeros in front up to a count. -/
def zeroPadded (count digits : Nat) : List Char :=
  List.replicate (count - (Nat.toDigits 10 digits).length) '0' ++ Nat.toDigits 10 digits

theorem isDigit_zeroPadded {count : Nat} : ∀ c ∈ zeroPadded count digits, c.isDigit = true := by
  intro c hmem
  rcases List.mem_append.1 hmem with hmem | hmem
  · rw [List.eq_of_mem_replicate hmem]
    decide
  · exact isDigit_toDigits c hmem

theorem le_length_zeroPadded (count digits : Nat) : count ≤ (zeroPadded count digits).length := by
  simp only [zeroPadded, List.length_append, List.length_replicate]
  omega

theorem digitsValue_zeroPadded (count digits : Nat) : digitsValue (zeroPadded count digits) = digits := by
  rw [zeroPadded, digitsValue_zeros_append, digitsValue_toDigits]

/-- Zeros in front only fill a number up to the count. -/
theorem zeroPadded_head (count : Nat) (hpositive : 0 < digits) :
    (zeroPadded count digits).length = count ∨ (zeroPadded count digits).head? ≠ some '0' := by
  by_cases hshort : (Nat.toDigits 10 digits).length ≤ count
  · left
    simp only [zeroPadded, List.length_append, List.length_replicate]
    omega
  · right
    rw [zeroPadded, Nat.sub_eq_zero_of_le (by omega)]
    simpa using head?_toDigits_ne_zero hpositive

theorem numeral_point (hpositive : 0 < digits) (n : Nat) : let padded := zeroPadded (n + 2) digits
    let split := padded.length - (n + 1)
    Numeral (padded.take split ++ '.' :: padded.drop split) (padded.take split)
      (padded.drop split) := by
  intro padded split
  have hlong : n + 2 ≤ padded.length := le_length_zeroPadded (n + 2) digits
  have hdrop : padded.drop split ≠ [] := by
    rw [← List.length_pos_iff, List.length_drop]
    omega
  refine ⟨?_, ?_, ?_, ?_, ?_⟩
  · rw [if_neg hdrop]
  · exact fun c hmem => isDigit_zeroPadded c (List.mem_of_mem_take hmem)
  · exact fun c hmem => isDigit_zeroPadded c (List.mem_of_mem_drop hmem)
  · rw [← List.length_pos_iff, List.length_take]
    omega
  · have hhead : (padded.take split).head? = padded.head? := by
      rw [List.head?_take, if_neg (by omega)]
    rcases zeroPadded_head (n + 2) hpositive with hexact | hnonzero
    · by_cases hzero : padded.head? = some '0'
      · left
        have hexact : padded.length = n + 2 := hexact
        have hone : split = 1 := by omega
        rw [hone]
        cases hpadded : padded with
        | nil => simp [hpadded] at hzero
        | cons first rest => simpa [hpadded] using hzero
      · exact Or.inr (hhead ▸ hzero)
    · exact Or.inr (hhead ▸ hnonzero)

theorem exists_numeral_positional (hpositive : 0 < decimal.digits) :
    ∃ whole fraction, Numeral decimal.positional whole fraction ∧
      ofDecimal whole fraction = ofRatio (decimal.digits * Nat.pow 10 decimal.exponent.toNat)
        (Nat.pow 10 (-decimal.exponent).toNat) := by
  obtain ⟨digits, exponent⟩ := decimal
  cases exponent with
  | ofNat zeros =>
    refine ⟨_, _, numeral_append_zeros hpositive zeros, ?_⟩
    rw [ofDecimal, List.append_nil, digitsValue_append_zeros, digitsValue_toDigits]
    simp
  | negSucc n =>
    refine ⟨_, _, numeral_point hpositive n, ?_⟩
    have hlong := le_length_zeroPadded (n + 2) digits
    rw [ofDecimal, List.take_append_drop, digitsValue_zeroPadded, List.length_drop,
      show (zeroPadded (n + 2) digits).length - ((zeroPadded (n + 2) digits).length - (n + 1)) =
        n + 1 by omega]
    simp [Int.neg_negSucc]

/-- The text of a finite number is a numeral that reads back as the number. -/
theorem exists_numeral_magnitudeText (hfinite : magnitude < infinity) :
    ∃ whole fraction, Numeral (magnitudeText magnitude) whole fraction ∧
      ofDecimal whole fraction = ⟨false, magnitude⟩ := by
  by_cases hzero : magnitude = 0
  · subst hzero
    refine ⟨['0'], [], ⟨rfl, by simp, by simp, by simp, Or.inl rfl⟩, ?_⟩
    have hvalue : ofDecimal ['0'] [] = ofRatio 0 1 := rfl
    rw [hvalue, ofRatio, nearest_zero]
  · have hpositive := Nat.pos_of_ne_zero hzero
    have hstands : (shortest magnitude).StandsFor magnitude :=
      standsFor_shortestFrom hpositive _
    have hden := ten_pow_pos (-(shortest magnitude).exponent).toNat
    obtain ⟨whole, fraction, hnumeral, hvalue⟩ :=
      exists_numeral_positional (digits_pos_of_standsFor hpositive hstands)
    refine ⟨whole, fraction, ?_, ?_⟩
    · rw [magnitudeText, if_neg hzero]
      exact hnumeral
    · rw [hvalue, ofRatio, nearest_of_roundsTo hpositive hfinite hden hstands]

end Offside.Binary64
