import Mathlib.Algebra.Ring.Parity
import Mathlib.Data.List.DropRight
import Offside.Proofs.Grammar.Shapes
import Offside.Script.Text

/-!
# The text of regular expressions

A pattern is written between slashes on one line, so slashes and line breaks in it are escaped.  What is written is
closed by its last slash, and writing it once more changes nothing.  Read in units, it is the pattern again, but for a
line break behind a backslash: that backslash takes the one which is put in, and a letter is left behind.
-/

namespace Offside

namespace Script

variable {escaped : Bool}

/-! ## Backslashes -/

/-- The number of backslashes at the end of a text. -/
def backslashes (text : List Char) : Nat := (text.rtakeWhile (· = '\\')).length

/-- Whether an open backslash stands behind a text, told whether one stands in front. -/
def opens (escaped : Bool) (text : List Char) : Bool := text.foldl (fun escaped c => c = '\\' && !escaped) escaped

theorem opens_cons (escaped : Bool) (c : Char) (text : List Char) :
    opens escaped (c :: text) = opens (c = '\\' && !escaped) text := rfl

/-- A backslash is open behind an odd number of them. -/
theorem opens_iff (text : List Char) : opens false text = true ↔ Odd (backslashes text) := by
  induction text using List.reverseRecOn with
  | nil => simp [opens, backslashes]
  | append_singleton text c ih =>
    have hopens : opens false (text ++ [c]) = (c = '\\' && !opens false text) := by simp [opens]
    rw [hopens, backslashes, List.rtakeWhile_concat]
    by_cases hc : c = '\\'
    · simp only [hc, decide_true, Bool.true_and, Bool.not_eq_true', if_true, List.length_append, List.length_singleton,
        Nat.odd_add_one]
      rw [← backslashes, ← ih, Bool.not_eq_true]
    · simp [hc]

theorem not_odd_backslashes_of_pairedEnd {pattern : List Char} (h : Grammar.Regex.PairedEnd pattern) :
    ¬ Odd (backslashes pattern) := by
  rw [Nat.not_odd_iff_even]
  refine h (pattern.rdropWhile (· = '\\')) _ ?_ fun hlast => ?_
  · have hall : pattern.rtakeWhile (· = '\\') = List.replicate (backslashes pattern) '\\' :=
      List.eq_replicate_iff.2 ⟨rfl, fun c hc => by simpa using List.mem_rtakeWhile_imp hc⟩
    rw [← hall, List.rdropWhile_append_rtakeWhile]
  · have hne : pattern.rdropWhile (· = '\\') ≠ [] := fun hnil => by simp [hnil] at hlast
    rw [List.getLast?_eq_some_getLast hne] at hlast
    exact List.rdropWhile_last_not _ _ hne (by simpa using hlast)

/-! ## Escaping -/

/-- A line break, and the letter that stands for it behind a backslash. -/
def IsBreak (c letter : Char) : Prop := c = '\n' ∧ letter = 'n' ∨ c = '\r' ∧ letter = 'r'

/-- How one character of a pattern is written. -/
theorem regexText_cases (escaped : Bool) (c : Char) (rest : List Char) :
    (c = '/' ∧ escaped = false ∧ regexText escaped (c :: rest) = '\\' :: '/' :: regexText false rest) ∨
      (∃ letter, IsBreak c letter ∧ regexText escaped (c :: rest) = '\\' :: letter :: regexText false rest) ∨
      c ≠ '\n' ∧ c ≠ '\r' ∧ (c = '/' → escaped = true) ∧
        regexText escaped (c :: rest) = c :: regexText (c = '\\' && !escaped) rest := by
  by_cases hslash : c = '/' ∧ escaped = false
  · obtain ⟨rfl, rfl⟩ := hslash
    exact .inl ⟨rfl, rfl, rfl⟩
  by_cases hnewline : c = '\n'
  · subst hnewline
    exact .inr (.inl ⟨'n', .inl ⟨rfl, rfl⟩, rfl⟩)
  by_cases hreturn : c = '\r'
  · subst hreturn
    exact .inr (.inl ⟨'r', .inr ⟨rfl, rfl⟩, rfl⟩)
  · have hescaped : c = '/' → escaped = true := fun hc => by simpa using fun he => hslash ⟨hc, he⟩
    have hopen : (c = '/' && !escaped) = false := by simpa using hescaped
    refine .inr (.inr ⟨hnewline, hreturn, hescaped, ?_⟩)
    simp only [regexText, hopen, hnewline, hreturn, if_false, Bool.false_eq_true, List.singleton_append]

/-- Nothing is left to be escaped: each slash stands behind an open backslash, and no line ends. -/
def Safe (escaped : Bool) : List Char → Prop
  | [] => True
  | c :: rest => c ≠ '\n' ∧ c ≠ '\r' ∧ (c = '/' → escaped = true) ∧ Safe (c = '\\' && !escaped) rest

theorem safe_regexText (escaped : Bool) (text : List Char) : Safe escaped (regexText escaped text) := by
  induction text generalizing escaped with
  | nil => trivial
  | cons c rest ih =>
    rcases regexText_cases escaped c rest with ⟨rfl, rfl, heq⟩ | ⟨letter, hletter, heq⟩ | ⟨hnewline, hreturn, hslash, heq⟩
    · rw [heq]
      simpa [Safe] using ih false
    · rw [heq]
      rcases hletter with ⟨-, rfl⟩ | ⟨-, rfl⟩ <;> simpa [Safe] using ih false
    · rw [heq]
      exact ⟨hnewline, hreturn, hslash, ih _⟩

theorem regexText_of_safe {text : List Char} (h : Safe escaped text) : regexText escaped text = text := by
  induction text generalizing escaped with
  | nil => rfl
  | cons c rest ih =>
    obtain ⟨hnewline, hreturn, hslash, hrest⟩ := h
    rcases regexText_cases escaped c rest with ⟨hc, hescaped, -⟩ | ⟨letter, hletter, -⟩ | ⟨-, -, -, heq⟩
    · rw [hslash hc] at hescaped
      cases hescaped
    · exact absurd hletter (by simp [IsBreak, hnewline, hreturn])
    · rw [heq, ih hrest]

theorem Safe.opens_of_slash {front back : List Char} (h : Safe escaped (front ++ '/' :: back)) :
    opens escaped front = true := by
  induction front generalizing escaped with
  | nil => exact h.2.2.1 rfl
  | cons c front ih => exact ih h.2.2.2

theorem Safe.not_mem {text : List Char} (h : Safe escaped text) : '\n' ∉ text ∧ '\r' ∉ text := by
  induction text generalizing escaped with
  | nil => simp
  | cons c rest ih =>
    obtain ⟨hnewline, hreturn, -, hrest⟩ := h
    simp [ih hrest, Ne.symm hnewline, Ne.symm hreturn]

theorem opens_regexText (escaped : Bool) (text : List Char) : opens escaped (regexText escaped text) = opens escaped text := by
  induction text generalizing escaped with
  | nil => rfl
  | cons c rest ih =>
    rcases regexText_cases escaped c rest with ⟨rfl, rfl, heq⟩ | ⟨letter, hletter, heq⟩ | ⟨-, -, -, heq⟩
    · rw [heq]
      exact ih false
    · rw [heq, opens_cons, opens_cons, opens_cons]
      rcases hletter with ⟨rfl, rfl⟩ | ⟨rfl, rfl⟩ <;> exact ih false
    · rw [heq, opens_cons, opens_cons, ih]

end Script

/-! ## The closing slash -/

namespace JavaScript

variable {inClass : Bool}

/-- Reads a regular expression behind its opening slash up to the one that closes it, and what follows.  A slash behind
a backslash or in a class does not close it. -/
def regexBody? (inClass : Bool) : List Char → Option (List Char × List Char)
  | '\\' :: c :: rest => (regexBody? inClass rest).map fun (body, after) => ('\\' :: c :: body, after)
  | c :: rest =>
    if c = '/' && !inClass then some ([], rest)
    else (regexBody? (if inClass then c ≠ ']' else c = '[') rest).map fun (body, after) => (c :: body, after)
  | [] => none

/-- A front of a regular expression behind which the reading goes on. -/
def Passes (inClass : Bool) (front : List Char) (inClass' : Bool) : Prop :=
  ∀ tail, regexBody? inClass (front ++ tail) = (regexBody? inClass' tail).map fun (body, after) => (front ++ body, after)

theorem passes_escape (inClass : Bool) (c : Char) : Passes inClass ['\\', c] inClass := fun tail => by
  rw [List.cons_append, List.singleton_append, regexBody?]
  rfl

theorem passes_plain {c : Char} (hescape : c ≠ '\\') (hslash : c ≠ '/') :
    Passes inClass [c] (if inClass then c ≠ ']' else c = '[') := by
  intro tail
  rw [List.singleton_append, regexBody?]
  · simp [hslash]
  · exact fun _ _ heq => absurd heq hescape

theorem Passes.append {inClass' inClass'' : Bool} {front back : List Char} (h : Passes inClass front inClass')
    (hback : Passes inClass' back inClass'') : Passes inClass (front ++ back) inClass'' := by
  intro tail
  rw [List.append_assoc, h, hback, Option.map_map]
  congr 1
  funext read
  simp

open Script

/-- What is written for a pattern is closed by the slash behind it. -/
def Closed (inClass : Bool) (pattern : List Char) : Prop :=
  ∀ after, regexBody? inClass (regexText false pattern ++ '/' :: after) = some (regexText false pattern, after)

section
variable {inClass inClass' : Bool} {c : Char} {text front rest : List Char}

theorem Closed.of_passes (hfront : Passes inClass front inClass') (h : Closed inClass' rest)
    (htext : regexText false text = front ++ regexText false rest) : Closed inClass text := by
  intro after
  rw [htext, List.append_assoc, hfront, h]
  rfl

/-- A plain character is written as it is or as an escape. -/
theorem Closed.plain (hc : c ≠ '\\') (h : Closed (if inClass then c ≠ ']' else c = '[') rest) :
    Closed inClass (c :: rest) := by
  rcases regexText_cases false c rest with ⟨rfl, -, heq⟩ | ⟨letter, hletter, heq⟩ | ⟨-, -, hslash, heq⟩
  · refine Closed.of_passes (passes_escape inClass '/') ?_ heq
    cases inClass <;> exact h
  · refine Closed.of_passes (passes_escape inClass letter) ?_ heq
    rcases hletter with ⟨rfl, -⟩ | ⟨rfl, -⟩ <;> cases inClass <;> exact h
  · rw [decide_eq_false hc, Bool.false_and] at heq
    exact Closed.of_passes (passes_plain hc fun hclose => by simpa using hslash hclose) h heq

/-- An escape is written as it is, or as an escaped backslash and a letter. -/
theorem Closed.escape (h : Closed inClass rest) : Closed inClass ('\\' :: c :: rest) := by
  have hopen : regexText false ('\\' :: c :: rest) = '\\' :: regexText true (c :: rest) := rfl
  rcases regexText_cases true c rest with ⟨-, habsurd, -⟩ | ⟨letter, hletter, heq⟩ | ⟨-, -, -, heq⟩
  · cases habsurd
  · have hpasses : Passes inClass [letter] inClass := by
      rcases hletter with ⟨-, rfl⟩ | ⟨-, rfl⟩ <;> cases inClass <;> exact passes_plain (by decide) (by decide)
    exact Closed.of_passes ((passes_escape inClass '\\').append hpasses) h (by rw [hopen, heq]; rfl)
  · rw [Bool.not_true, Bool.and_false] at heq
    exact Closed.of_passes (passes_escape inClass c) h (by rw [hopen, heq]; rfl)

end

theorem closed_of_balanced {depth : Nat} {pattern : List Char}
    (h : Grammar.Regex.balanced depth inClass pattern = true) : Closed inClass pattern := by
  fun_induction Grammar.Regex.balanced depth inClass pattern with
  | case1 depth inClass =>
    obtain ⟨-, rfl⟩ : depth = 0 ∧ inClass = false := by simpa using h
    intro after
    simp [regexText, regexBody?]
  | case2 | case7 => cases h
  | case3 _ _ _ _ ih => exact (ih h).escape
  | case4 _ _ _ hescape ih => exact (ih h).plain hescape
  | case5 _ _ _ hclass _ ih | case6 _ _ _ hclass _ _ ih | case8 _ _ hclass _ _ _ _ ih =>
    rw [Bool.eq_false_of_not_eq_true hclass]
    exact (ih h).plain (by decide)
  | case9 _ _ c _ hescape hclass hopen _ _ ih =>
    rw [Bool.eq_false_of_not_eq_true hclass]
    refine Closed.plain hescape ?_
    rw [if_neg Bool.false_ne_true, decide_eq_false hopen]
    exact ih h

end JavaScript

namespace Script

/-- Regular expressions end where they should.  The text of one is its pattern and its flags between slashes, and no
slash is among the flags.  In what is written for the pattern an odd number of backslashes stands in front of each slash,
and no odd number of them at the end, so that it is closed by its last slash, and is no comment.  Nothing in it has to be
escaped again. -/
theorem regexText_of_split? {text pattern flags : List Char} (h : Grammar.Regex.split? text = some (pattern, flags)) :
    let written := regexText false pattern
    let literal := (literalText (.regex (String.ofList pattern) (String.ofList flags))).toList
    (text = '/' :: (pattern ++ '/' :: flags) ∧ '/' ∉ flags) ∧
      (∀ front back, written = front ++ '/' :: back → Odd (backslashes front)) ∧ ¬ Odd (backslashes written) ∧
      literal = '/' :: (written ++ '/' :: flags) ∧
      (∀ after, JavaScript.regexBody? false (written ++ '/' :: (flags ++ after)) = some (written, flags ++ after)) ∧
      ¬ ['/', '/'] <+: literal ∧ ¬ ['/', '*'] <+: literal ∧ regexText false written = written := by
  intro written literal
  obtain ⟨hflags, hne, hfirst, hbalanced⟩ := Grammar.Regex.valid_of_split? h
  have hletters := (Grammar.Regex.nodup_of_validFlags hflags).2
  have hsafe : Safe false written := safe_regexText false pattern
  have hliteral : literal = '/' :: (written ++ '/' :: flags) := by simp [literal, literalText, written]
  have hhead : ∃ c tail, written = c :: tail ∧ c ≠ '/' ∧ c ≠ '*' := by
    obtain ⟨c, rest, rfl⟩ := List.exists_cons_of_ne_nil hne
    rcases regexText_cases false c rest with ⟨-, -, heq⟩ | ⟨letter, -, heq⟩ | ⟨-, -, hslash, heq⟩
    · exact ⟨_, _, heq, by decide, by decide⟩
    · exact ⟨_, _, heq, by decide, by decide⟩
    · refine ⟨_, _, heq, fun hc => by simpa using hslash hc, fun hc => ?_⟩
      subst hc
      exact absurd (hfirst '*' rfl) (by decide)
  obtain ⟨c, tail, hwritten, hslash, hstar⟩ := hhead
  refine ⟨⟨Grammar.eq_append_of_split? h, fun hmem => absurd (hletters '/' hmem) (by decide)⟩, fun front back heq => ?_, ?_,
    hliteral, fun after => ?_, ?_, ?_, regexText_of_safe hsafe⟩
  · rw [heq] at hsafe
    exact (opens_iff front).1 hsafe.opens_of_slash
  · rw [← opens_iff, opens_regexText, opens_iff]
    exact not_odd_backslashes_of_pairedEnd (Grammar.Regex.pairedEnd_of_balanced hbalanced)
  · exact JavaScript.closed_of_balanced hbalanced (flags ++ after)
  · rw [hliteral, hwritten]
    simpa using Ne.symm hslash
  · rw [hliteral, hwritten]
    simpa using Ne.symm hstar

/-- A class with a slash, a slash behind three backslashes, and a line break behind one. -/
theorem regexText_of_split?_class :
    Grammar.Regex.split? "/[/]\\\\\\/\\\n/g".toList = some ("[/]\\\\\\/\\\n".toList, ['g']) ∧
      JavaScript.regexBody? false "[\\/]\\\\\\/\\\\n/g;".toList = some ("[\\/]\\\\\\/\\\\n".toList, "g;".toList) := by
  have h : Grammar.Regex.split? "/[/]\\\\\\/\\\n/g".toList = some ("[/]\\\\\\/\\\n".toList, ['g']) := by decide +kernel
  have hwritten : regexText false "[/]\\\\\\/\\\n".toList = "[\\/]\\\\\\/\\\\n".toList := by decide +kernel
  have hbody := (regexText_of_split? h).2.2.2.2.1 [';']
  rw [hwritten] at hbody
  exact ⟨h, hbody⟩

/-! ## Units -/

/-- A unit of a pattern: a plain character, or a character behind a backslash. -/
inductive RegexUnit
  | plain (c : Char)
  | escaped (c : Char)
deriving DecidableEq

/-- The units of a pattern, from left to right. -/
def units : List Char → List RegexUnit
  | '\\' :: c :: rest => .escaped c :: units rest
  | c :: rest => .plain c :: units rest
  | [] => []

namespace RegexUnit

/-- What a unit is read as: a line break or a slash may be written behind a backslash, and a line break as a letter as
well. -/
def reading : RegexUnit → RegexUnit
  | .escaped 'n' | .escaped '\n' => .plain '\n'
  | .escaped 'r' | .escaped '\r' => .plain '\r'
  | .escaped '/' => .plain '/'
  | unit => unit

/-- The units that are written for one. -/
def written : RegexUnit → List RegexUnit
  | .escaped '\n' => [.escaped '\\', .plain 'n']
  | .escaped '\r' => [.escaped '\\', .plain 'r']
  | .plain '\n' => [.escaped 'n']
  | .plain '\r' => [.escaped 'r']
  | .plain '/' => [.escaped '/']
  | unit => [unit]

/-- How what is written for a unit is read: as the unit, but for a line break behind a backslash.  This backslash takes
the one that is put in, and the letter is left. -/
theorem map_reading_written (unit : RegexUnit) : unit.written.map reading =
    if unit = .escaped '\n' then [.escaped '\\', .plain 'n']
    else if unit = .escaped '\r' then [.escaped '\\', .plain 'r'] else [unit.reading] := by
  unfold written
  split <;> simp_all [reading]

/-- A line break behind a backslash. -/
def breaksLine (unit : RegexUnit) : Bool := unit = .escaped '\n' || unit = .escaped '\r'

theorem length_written (unit : RegexUnit) : unit.written.length = 1 + unit.breaksLine.toNat := by
  unfold written
  split <;> simp_all [breaksLine]

end RegexUnit

open RegexUnit

theorem units_plain {c : Char} (hc : c ≠ '\\') (rest : List Char) : units (c :: rest) = .plain c :: units rest := by
  rw [units]
  exact fun _ _ heq => absurd heq hc

/-- What is written for a pattern is written unit by unit. -/
theorem units_regexText (pattern : List Char) : units (regexText false pattern) = (units pattern).flatMap written := by
  fun_induction units pattern with
  | case1 c rest ih =>
    have hopen : regexText false ('\\' :: c :: rest) = '\\' :: regexText true (c :: rest) := rfl
    rw [hopen, List.flatMap_cons, ← ih]
    rcases regexText_cases true c rest with ⟨-, habsurd, -⟩ | ⟨letter, hletter, heq⟩ | ⟨hnewline, hreturn, -, heq⟩
    · cases habsurd
    · rw [heq, units]
      rcases hletter with ⟨rfl, rfl⟩ | ⟨rfl, rfl⟩ <;> rw [units_plain (by decide)] <;> rfl
    · have hwritten : written (.escaped c) = [.escaped c] := by
        unfold written
        split <;> simp_all
      rw [heq, units, hwritten, Bool.not_true, Bool.and_false, List.singleton_append]
  | case2 c rest hescape ih =>
    rw [List.flatMap_cons, ← ih]
    rcases regexText_cases false c rest with ⟨rfl, -, heq⟩ | ⟨letter, hletter, heq⟩ | ⟨hnewline, hreturn, hslash, heq⟩
    · rw [heq, units]
      rfl
    · rw [heq, units]
      rcases hletter with ⟨rfl, rfl⟩ | ⟨rfl, rfl⟩ <;> rfl
    · have hwritten : written (.plain c) = [.plain c] := by
        unfold written
        split <;> simp_all
      rw [heq, hwritten]
      by_cases hc : c = '\\'
      · -- A backslash that no character follows is the last unit.
        subst hc
        cases rest with
        | nil => rfl
        | cons next rest => exact absurd rfl (hescape next rest rfl)
      · rw [units_plain hc, decide_eq_false hc, Bool.false_and, List.singleton_append]
  | case3 => rfl

theorem length_flatMap_written (pattern : List RegexUnit) :
    (pattern.flatMap written).length = pattern.length + pattern.countP breaksLine := by
  induction pattern with
  | nil => rfl
  | cons unit rest ih =>
    rw [List.flatMap_cons, List.length_append, length_written, ih, List.length_cons, List.countP_cons]
    cases unit.breaksLine <;> simp <;> omega

/-- What is written for some units is read as these if and only if none is a line break behind a backslash. -/
theorem map_reading_flatMap_written (pattern : List RegexUnit) :
    (pattern.flatMap written).map reading = pattern.map reading ↔ ∀ unit ∈ pattern, unit.breaksLine = false := by
  constructor
  · -- Each such line break is written as two units, and no unit is lost.
    intro h
    have hlength := congrArg List.length h
    rw [List.length_map, List.length_map, length_flatMap_written] at hlength
    have hnone : pattern.countP breaksLine = 0 := by omega
    simpa using List.countP_eq_zero.1 hnone
  · intro h
    induction pattern with
    | nil => rfl
    | cons unit rest ih =>
      obtain ⟨hunit, hrest⟩ := List.forall_mem_cons.1 h
      have hread : unit.written.map reading = [unit.reading] := by
        obtain ⟨hnewline, hreturn⟩ : unit ≠ .escaped '\n' ∧ unit ≠ .escaped '\r' := by simpa [breaksLine] using hunit
        rw [map_reading_written, if_neg hnewline, if_neg hreturn]
      rw [List.flatMap_cons, List.map_append, hread, ih hrest, List.singleton_append, List.map_cons]

theorem mem_regexText {c : Char} (hc : c ∉ ['\n', '\r', '\\', '/', 'n', 'r']) (escaped : Bool) (pattern : List Char) :
    c ∈ regexText escaped pattern ↔ c ∈ pattern := by
  induction pattern generalizing escaped with
  | nil => rfl
  | cons first rest ih =>
    rcases regexText_cases escaped first rest with ⟨rfl, -, heq⟩ | ⟨letter, hletter, heq⟩ | ⟨-, -, -, heq⟩
    · rw [heq]
      simp_all
    · rw [heq]
      rcases hletter with ⟨rfl, rfl⟩ | ⟨rfl, rfl⟩ <;> simp_all
    · rw [heq, List.mem_cons, List.mem_cons, ih]

/-- The characters that end a line in a script. -/
def lineTerminators : List Char := ['\n', '\r', '\u2028', '\u2029']

/-- What is written for a pattern holds no newline and no carriage return, and no other end of a line unless the pattern
does.  It is read as the pattern unit by unit, but for line breaks behind a backslash, which are read as a backslash and
a letter; so it is the same throughout if and only if there are none. -/
theorem reading_units_regexText (pattern : List Char) :
    let written := regexText false pattern
    ('\n' ∉ written ∧ '\r' ∉ written) ∧
      ((∀ c ∈ lineTerminators, c ∉ written) ↔ '\u2028' ∉ pattern ∧ '\u2029' ∉ pattern) ∧
      (units written).map reading = (units pattern).flatMap (fun unit =>
        if unit = .escaped '\n' then [.escaped '\\', .plain 'n']
        else if unit = .escaped '\r' then [.escaped '\\', .plain 'r'] else [unit.reading]) ∧
      ((units written).map reading = (units pattern).map reading ↔
        RegexUnit.escaped '\n' ∉ units pattern ∧ RegexUnit.escaped '\r' ∉ units pattern) := by
  intro written
  obtain ⟨hnewline, hreturn⟩ := (safe_regexText false pattern).not_mem
  refine ⟨⟨hnewline, hreturn⟩, ?_, ?_, ?_⟩
  · have hline : '\u2028' ∈ written ↔ '\u2028' ∈ pattern := mem_regexText (by decide) false pattern
    have hparagraph : '\u2029' ∈ written ↔ '\u2029' ∈ pattern := mem_regexText (by decide) false pattern
    simp only [lineTerminators, List.forall_mem_cons, List.not_mem_nil, false_imp_iff, implies_true, and_true]
    rw [hline, hparagraph]
    exact ⟨fun h => h.2.2, fun h => ⟨hnewline, hreturn, h⟩⟩
  · rw [units_regexText, List.map_flatMap]
    exact List.flatMap_congr fun unit _ => map_reading_written unit
  · rw [units_regexText, map_reading_flatMap_written]
    simp only [breaksLine, Bool.or_eq_false_iff, decide_eq_false_iff_not]
    constructor
    · exact fun h => ⟨fun hmem => (h _ hmem).1 rfl, fun hmem => (h _ hmem).2 rfl⟩
    · exact fun h unit hmem => ⟨fun heq => h.1 (heq ▸ hmem), fun heq => h.2 (heq ▸ hmem)⟩

/-- A line break behind a backslash comes out as two units, and an end of a line that is no line break stays one. -/
theorem exists_reading_ne : (∃ text pattern flags, Grammar.Regex.split? text = some (pattern, flags) ∧
      (units (regexText false pattern)).map reading ≠ (units pattern).map reading) ∧
    ∃ text pattern flags, Grammar.Regex.split? text = some (pattern, flags) ∧ ∃ c ∈ lineTerminators, c ∈ regexText false pattern :=
  ⟨⟨"/a\\\nb/".toList, "a\\\nb".toList, [], by decide +kernel, by decide +kernel⟩,
    "/a\u2028b/".toList, "a\u2028b".toList, [], by decide +kernel, '\u2028', by decide, by decide +kernel⟩

end Script

end Offside
