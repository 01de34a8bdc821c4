import Mathlib.Data.List.Basic

/-!
# Nested brackets

A text is nested if its brackets pair up: each closes the last one that is open, of its own kind, and none is left
open.  A machine that keeps the brackets still to be closed tells which texts are nested, and over a nested text it
comes back to what it started with.
-/

namespace Offside.Text

/-- The bracket that closes what a character opens. -/
def closer? : Char → Option Char
  | '(' => some ')'
  | '[' => some ']'
  | '{' => some '}'
  | _ => none

def isCloser (c : Char) : Bool := c = ')' || c = ']' || c = '}'

/-- Whether a character is a bracket of any kind. -/
def isBracket (c : Char) : Bool := (closer? c).isSome || isCloser c

theorem eq_of_isBracket {c : Char} (h : isBracket c = true) : c ∈ ['(', ')', '[', ']', '{', '}'] := by
  simp only [isBracket, isCloser, Bool.or_eq_true, decide_eq_true_eq] at h
  unfold closer? at h
  split at h <;> simp_all [or_assoc]

/-- What holds of no bracket tells other characters from brackets. -/
theorem isBracket_of {p : Char → Bool} (hp : ['(', ')', '[', ']', '{', '}'].all (!p ·) = true) {c : Char}
    (h : p c = true) : isBracket c = false := by
  cases hc : isBracket c with
  | false => rfl
  | true =>
    have hnot := List.all_eq_true.1 hp c (eq_of_isBracket hc)
    simp [h] at hnot

/-- Texts whose brackets pair up. -/
inductive Nested : List Char → Prop
  | nil : Nested []
  | plain {c : Char} {text : List Char} : isBracket c = false → Nested text → Nested (c :: text)
  | pair {left right : Char} {inner rest : List Char} : closer? left = some right → Nested inner → Nested rest →
      Nested (left :: (inner ++ right :: rest))

namespace Nested

variable {left right : Char} {awaited : List Char}

/-! ## The machine -/

/-- One step of the machine.  `awaited` are the brackets still to be closed, the innermost first. -/
def step (awaited : List Char) (c : Char) : Option (List Char) :=
  match closer? c with
  | some right => some (right :: awaited)
  | none =>
    if isCloser c then if awaited.head? = some c then some awaited.tail else none
    else some awaited

/-- The brackets that are to be closed behind a text, unless it closes one that is not the last. -/
def run (awaited text : List Char) : Option (List Char) := text.foldlM step awaited

@[simp]
theorem run_nil (awaited : List Char) : run awaited [] = some awaited := rfl

theorem run_cons (awaited : List Char) (c : Char) (text : List Char) :
    run awaited (c :: text) = (step awaited c).bind fun next => run next text := rfl

theorem run_append (awaited front back : List Char) :
    run awaited (front ++ back) = (run awaited front).bind fun next => run next back :=
  List.foldlM_append ..

theorem step_of_not_isBracket {c : Char} (h : isBracket c = false) (awaited : List Char) :
    step awaited c = some awaited := by
  simp only [isBracket, Bool.or_eq_false_iff, Option.isSome_eq_false_iff, Option.isNone_iff_eq_none] at h
  simp [step, h.1, h.2]

theorem step_left (h : closer? left = some right) (awaited : List Char) :
    step awaited left = some (right :: awaited) := by
  simp [step, h]

theorem step_right (h : closer? left = some right) (awaited : List Char) :
    step (right :: awaited) right = some awaited := by
  unfold closer? at h
  split at h <;> cases h <;> rfl

variable {text : List Char}

theorem run_eq (h : Nested text) (awaited : List Char) : run awaited text = some awaited := by
  induction h generalizing awaited with
  | nil => rfl
  | plain hc _ ih => rw [run_cons, step_of_not_isBracket hc, Option.bind_some, ih]
  | pair hleft _ _ hinner hrest =>
    rw [run_cons, step_left hleft, Option.bind_some, run_append, hinner, Option.bind_some, run_cons,
      step_right hleft, Option.bind_some, hrest]

/-- The text closes the given brackets, one after the other, with nested texts around them. -/
def Closes : List Char → List Char → Prop
  | [], text => Nested text
  | right :: outer, text => ∃ inner rest, text = inner ++ right :: rest ∧ Nested inner ∧ Closes outer rest

theorem closes_plain {c : Char} (hc : isBracket c = false) (h : Closes awaited text) : Closes awaited (c :: text) := by
  cases awaited with
  | nil => exact .plain hc h
  | cons right outer =>
    obtain ⟨inner, rest, rfl, hinner, hrest⟩ := h
    exact ⟨c :: inner, rest, rfl, .plain hc hinner, hrest⟩

theorem closes_left (hleft : closer? left = some right)
    (h : Closes (right :: awaited) text) : Closes awaited (left :: text) := by
  obtain ⟨inner, rest, rfl, hinner, hrest⟩ := h
  cases awaited with
  | nil => exact .pair hleft hinner hrest
  | cons next outer =>
    obtain ⟨behind, last, rfl, hbehind, hlast⟩ := hrest
    exact ⟨left :: (inner ++ right :: behind), last, by simp, .pair hleft hinner hbehind, hlast⟩

/-- What the machine ends with nothing to be closed closes what it started with. -/
theorem closes_of_run (h : run awaited text = some []) : Closes awaited text := by
  induction text generalizing awaited with
  | nil =>
    cases h
    exact .nil
  | cons c text ih =>
    rw [run_cons] at h
    obtain ⟨next, hstep, hnext⟩ := Option.bind_eq_some_iff.1 h
    have hcloses := ih hnext
    unfold step at hstep
    split at hstep
    · rename_i right hleft
      cases hstep
      exact closes_left hleft hcloses
    · rename_i hleft
      split at hstep
      · split at hstep
        · rename_i hhead
          cases hstep
          obtain ⟨outer, rfl⟩ := List.head?_eq_some_iff.1 hhead
          exact ⟨[], text, rfl, .nil, hcloses⟩
        · cases hstep
      · rename_i hright
        cases hstep
        exact closes_plain (by simpa [isBracket, hleft] using hright) hcloses

/-- The machine accepts exactly the nested texts. -/
theorem iff_run : Nested text ↔ run [] text = some [] := ⟨fun h => h.run_eq [], closes_of_run⟩

instance : DecidablePred Nested := fun _ => decidable_of_iff _ iff_run.symm

theorem of_run_eq (h : ∀ awaited, run awaited text = some awaited) : Nested text := iff_run.2 (h [])

/-! ## Texts put together -/

theorem append {front back : List Char} (hfront : Nested front) (hback : Nested back) : Nested (front ++ back) := by
  apply of_run_eq
  intro awaited
  rw [run_append, hfront.run_eq, Option.bind_some, hback.run_eq]

theorem run_filter (awaited text : List Char) : run awaited (text.filter isBracket) = run awaited text := by
  induction text generalizing awaited with
  | nil => rfl
  | cons c text ih =>
    cases hc : isBracket c with
    | true =>
      rw [List.filter_cons_of_pos hc, run_cons, run_cons]
      congr 1
      funext next
      exact ih next
    | false =>
      rw [List.filter_cons_of_neg (by simp [hc]), ih, run_cons, step_of_not_isBracket hc, Option.bind_some]

theorem congr_filter {other : List Char} (h : text.filter isBracket = other.filter isBracket) :
    Nested text ↔ Nested other := by
  rw [iff_run, iff_run, ← run_filter, h, run_filter]

theorem of_forall (h : text.all (!isBracket ·) = true) : Nested text := by
  have hfilter : text.filter isBracket = [].filter isBracket := by
    rw [List.filter_nil, List.filter_eq_nil_iff]
    simpa using h
  exact (congr_filter hfilter).2 .nil

end Nested

end Offside.Text
