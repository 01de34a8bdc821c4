import Offside.Grammar.Program

/-!
# Quiet runs

A run of a parser is quiet when it gives a value and records nothing.  Each combinator gets one rule that says
when it runs quietly, so that a run of a parser comes apart into runs of its parts.
-/

namespace Offside.Grammar

open Offside.Grammar.Parser

variable {α β : Type} {kind : Token.Kind} {a : α} {b : β} {p : Parser α} {f : Bool → Parser β} {u : Unit}
  {fault : Fault}

/-- The token that ends the input. -/
abbrev Eof := {stop : Token // stop.kind = .eof}

/-- The parser gives `a` at the front of `tokens`, leaves `rest`, and records nothing. -/
def Gives (p : Parser α) (stop : Eof) (tokens : List Token) (a : α) (rest : List Token) : Prop :=
  p stop.1 tokens = ⟨.ok a, rest, []⟩

/-- The kind of the next token. -/
def nextKind : List Token → Token.Kind
  | [] => .eof
  | token :: _ => token.kind

@[simp]
theorem nextKind_nil : nextKind [] = .eof := rfl

@[simp]
theorem nextKind_cons (token : Token) (tokens : List Token) : nextKind (token :: tokens) = token.kind := rfl

/-- Taking a token of the given kind leads from one list of tokens to another. -/
def Takes (kind : Token.Kind) (tokens rest : List Token) : Prop :=
  ∃ token, tokens = token :: rest ∧ token.kind = kind

section
variable {stop : Eof} {tokens rest : List Token}

@[simp]
theorem kind_headD : (tokens.headD stop.1).kind = nextKind tokens := by
  cases tokens with
  | nil => exact stop.2
  | cons token tokens => rfl

theorem Takes.nextKind (h : Takes kind tokens rest) : nextKind tokens = kind := by
  obtain ⟨token, rfl, hkind⟩ := h
  exact hkind

@[simp]
theorem not_takes_nil : ¬ Takes kind [] rest := by
  rintro ⟨_, ⟨⟩, -⟩

@[simp]
theorem takes_cons {token : Token} : Takes kind (token :: tokens) rest ↔ token.kind = kind ∧ rest = tokens := by
  constructor
  · rintro ⟨_, ⟨rfl, rfl⟩, hkind⟩
    exact ⟨hkind, rfl⟩
  · rintro ⟨hkind, rfl⟩
    exact ⟨token, rfl, hkind⟩

theorem exists_takes_of_nextKind (h : Grammar.nextKind tokens = kind) (hkind : kind ≠ .eof) :
    ∃ tail, Takes kind tokens tail := by
  cases tokens with
  | nil => exact absurd h.symm hkind
  | cons token tail => exact ⟨tail, token, rfl, h⟩

/-! ## The monad -/

@[simp]
theorem gives_pure {b : α} : Gives (pure a) stop tokens b rest ↔ b = a ∧ rest = tokens := by
  simp only [Gives, pure, Reply.mk.injEq, Except.ok.injEq, and_true]
  exact and_congr eq_comm eq_comm

theorem gives_bind {f : α → Parser β} : Gives (p >>= f) stop tokens b rest ↔
      ∃ a middle, Gives p stop tokens a middle ∧ Gives (f a) stop middle b rest := by
  simp only [Gives, bind]
  rcases p stop.1 tokens with ⟨_ | a, middle, notes⟩
  · simp
  · simp only [Reply.mk.injEq, Except.ok.injEq, List.append_eq_nil_iff]
    constructor
    · rintro ⟨hb, hrest, hnotes, hmore⟩
      refine ⟨a, middle, ⟨rfl, rfl, hnotes⟩, ?_⟩
      rw [← hb, ← hrest, ← hmore]
    · rintro ⟨a, middle, ⟨rfl, rfl, rfl⟩, h⟩
      rw [h]
      exact ⟨rfl, rfl, rfl, rfl⟩

theorem gives_map {f : α → β} : Gives (f <$> p) stop tokens b rest ↔ ∃ a, Gives p stop tokens a rest ∧ b = f a := by
  change Gives (p >>= fun a => pure (f a)) stop tokens b rest ↔ _
  rw [gives_bind]
  constructor
  · rintro ⟨a, middle, ha, hb⟩
    obtain ⟨rfl, rfl⟩ := gives_pure.1 hb
    exact ⟨a, ha, rfl⟩
  · rintro ⟨a, ha, rfl⟩
    exact ⟨a, rest, ha, gives_pure.2 ⟨rfl, rfl⟩⟩

theorem Gives.bind {f : α → Parser β} {middle : List Token} (h : Gives p stop tokens a middle)
    (hnext : Gives (f a) stop middle b rest) : Gives (p >>= f) stop tokens b rest :=
  gives_bind.2 ⟨a, middle, h, hnext⟩

theorem Gives.pure : Gives (Pure.pure a) stop tokens a tokens := rfl

/-! ## Looking at tokens -/

theorem gives_peek_bind {f : Token → Parser β} :
    Gives (peek >>= f) stop tokens b rest ↔ Gives (f (tokens.headD stop.1)) stop tokens b rest := by
  rfl

theorem gives_advance_bind {f : Token → Parser β} : Gives (advance >>= f) stop tokens b rest ↔
      Gives (f (tokens.headD stop.1)) stop tokens.tail b rest := by
  rfl

theorem gives_atEnd_bind : Gives (atEnd >>= f) stop tokens b rest ↔ Gives (f tokens.isEmpty) stop tokens b rest := by
  rfl

theorem gives_check_bind : Gives (check kind >>= f) stop tokens b rest ↔
      Gives (f (nextKind tokens == kind)) stop tokens b rest := by
  rw [← kind_headD]
  rfl

theorem gives_checkSecond_bind : Gives (checkSecond kind >>= f) stop tokens b rest ↔
      Gives (f (nextKind tokens.tail == kind)) stop tokens b rest := by
  rw [← kind_headD]
  rfl

/-- The tokens behind the layout tokens in front. -/
def skipped (tokens : List Token) : List Token := tokens.dropWhile (·.kind.isLayout)

theorem gives_skipLayout_bind {f : Unit → Parser β} :
    Gives (skipLayout >>= f) stop tokens b rest ↔ Gives (f ()) stop (skipped tokens) b rest := by
  rfl

/-! ## Taking tokens -/

theorem accept_apply (kind : Token.Kind) (stop : Token) (tokens : List Token) : accept kind stop tokens =
      if (tokens.headD stop).kind == kind then ⟨.ok true, tokens.tail, []⟩ else ⟨.ok false, tokens, []⟩ := by
  simp only [accept, check, peek, advance, bind, pure]
  split <;> simp_all

theorem gives_accept_true (hkind : kind ≠ .eof) :
    Gives (accept kind) stop tokens true rest ↔ Takes kind tokens rest := by
  rw [Gives, accept_apply, kind_headD, Takes]
  cases tokens with
  | nil => simp [hkind.symm]
  | cons token tail =>
    simp only [nextKind_cons, beq_iff_eq, List.tail_cons, List.cons.injEq]
    constructor
    · intro h
      split at h
      · rename_i hsame
        cases h
        exact ⟨token, ⟨rfl, rfl⟩, hsame⟩
      · cases h
    · rintro ⟨_, ⟨rfl, rfl⟩, hsame⟩
      rw [if_pos hsame]

theorem gives_accept_false : Gives (accept kind) stop tokens false rest ↔ nextKind tokens ≠ kind ∧ rest = tokens := by
  rw [Gives, accept_apply, kind_headD]
  by_cases hsame : nextKind tokens = kind
  · simp [hsame]
  · simp only [beq_iff_eq, hsame, if_false, Reply.mk.injEq, true_and, and_true, ne_eq, not_false_eq_true]
    exact eq_comm

theorem gives_accept_bind (hkind : kind ≠ .eof) : Gives (accept kind >>= f) stop tokens b rest ↔
      (∃ tail, Takes kind tokens tail ∧ Gives (f true) stop tail b rest) ∨
        (nextKind tokens ≠ kind ∧ Gives (f false) stop tokens b rest) := by
  rw [gives_bind, Bool.exists_bool]
  simp only [gives_accept_true hkind, gives_accept_false]
  constructor
  · rintro (⟨_, ⟨hne, rfl⟩, h⟩ | h)
    · exact Or.inr ⟨hne, h⟩
    · exact Or.inl h
  · rintro (h | ⟨hne, h⟩)
    · exact Or.inr h
    · exact Or.inl ⟨tokens, ⟨hne, rfl⟩, h⟩

theorem Takes.accept_bind {middle : List Token} (h : Takes kind tokens middle)
    (hnext : Gives (f true) stop middle b rest) : Gives (accept kind >>= f) stop tokens b rest := by
  obtain ⟨token, rfl, hkind⟩ := h
  have haccept : Gives (accept kind) stop (token :: middle) true middle := by simp [Gives, accept_apply, hkind]
  exact haccept.bind hnext

theorem gives_accept_bind_of_ne (h : nextKind tokens ≠ kind) (hnext : Gives (f false) stop tokens b rest) :
    Gives (accept kind >>= f) stop tokens b rest :=
  (gives_accept_false.2 ⟨h, rfl⟩).bind hnext

@[simp]
theorem not_gives_failAt {token : Token} : ¬ Gives (failAt token fault) stop tokens a rest := by
  simp [Gives, failAt]

@[simp]
theorem not_gives_fail : ¬ Gives (fail fault) stop tokens a rest := by
  simp [fail, gives_peek_bind]

@[simp]
theorem not_gives_note {token : Token} : ¬ Gives (note token fault) stop tokens u rest := by
  simp [Gives, note]

theorem gives_expect (hkind : kind ≠ .eof) : Gives (expect kind fault) stop tokens u rest ↔ Takes kind tokens rest := by
  simp only [expect, gives_accept_bind hkind, if_true, Bool.false_eq_true, if_false, not_gives_fail, and_false,
    or_false, gives_pure, true_and]
  constructor
  · rintro ⟨_, h, rfl⟩
    exact h
  · exact fun h => ⟨rest, h, rfl⟩

theorem gives_expect_bind (hkind : kind ≠ .eof) {f : Unit → Parser β} :
    Gives (expect kind fault >>= f) stop tokens b rest ↔
      ∃ tail, Takes kind tokens tail ∧ Gives (f ()) stop tail b rest := by
  rw [gives_bind]
  simp only [gives_expect hkind]
  constructor
  · rintro ⟨⟨⟩, middle, h⟩
    exact ⟨middle, h⟩
  · rintro ⟨middle, h⟩
    exact ⟨(), middle, h⟩

theorem Takes.expect_bind {f : Unit → Parser β} {middle : List Token} (h : Takes kind tokens middle)
    (hnext : Gives (f ()) stop middle b rest) : Gives (expect kind fault >>= f) stop tokens b rest :=
  Gives.bind (h.accept_bind .pure) hnext

theorem gives_afterToken (hkind : kind ≠ .eof) {a : Option α} : Gives (afterToken kind p) stop tokens a rest ↔
      (∃ tail b, Takes kind tokens tail ∧ Gives p stop tail b rest ∧ a = some b) ∨
        (nextKind tokens ≠ kind ∧ a = none ∧ rest = tokens) := by
  simp only [afterToken, gives_accept_bind hkind, if_true, Bool.false_eq_true, if_false, gives_bind, gives_pure]
  constructor
  · rintro (⟨tail, htake, b, _, hb, rfl, rfl⟩ | h)
    · exact Or.inl ⟨tail, b, htake, hb, rfl⟩
    · exact Or.inr h
  · rintro (⟨tail, b, htake, hb, rfl⟩ | h)
    · exact Or.inl ⟨tail, htake, b, rest, hb, rfl, rfl⟩
    · exact Or.inr h

/-- A token that stands for a name. -/
def IsIdent (token : Token) (name : Ident) : Prop :=
  token.kind = .identifier name.text ∧ token.line = name.line

theorem gives_ident {role : Role} {name : Ident} :
    Gives (ident role) stop tokens name rest ↔ ∃ token, tokens = token :: rest ∧ IsIdent token name := by
  cases tokens with
  | nil =>
    have hkind : stop.1.kind = .eof := stop.2
    simp [ident, gives_peek_bind, hkind]
  | cons token tail =>
    simp only [ident, gives_peek_bind, List.headD_cons]
    split
    · rename_i text hkind
      simp only [gives_advance_bind, List.tail_cons, gives_pure, List.cons.injEq]
      constructor
      · rintro ⟨rfl, rfl⟩
        exact ⟨token, ⟨rfl, rfl⟩, hkind, rfl⟩
      · rintro ⟨_, ⟨rfl, rfl⟩, htext, hline⟩
        rw [hkind] at htext
        cases htext
        exact ⟨by rw [hline], rfl⟩
    · rename_i hother
      simp only [not_gives_fail, false_iff]
      rintro ⟨_, ⟨⟩, htext, -⟩
      exact hother _ htext

theorem IsIdent.bind {token : Token} {name : Ident} (h : IsIdent token name) {role : Role} {f : Ident → Parser β}
    (hnext : Gives (f name) stop tokens b rest) : Gives (ident role >>= f) stop (token :: tokens) b rest :=
  (gives_ident.2 ⟨token, rfl, h⟩).bind hnext

theorem gives_recovering {a : Option α} :
    Gives (recovering p) stop tokens a rest ↔ ∃ b, a = some b ∧ Gives p stop tokens b rest := by
  simp only [Gives, recovering]
  rcases p stop.1 tokens with ⟨_ | b, middle, notes⟩
  · simp
  · simp only [Reply.mk.injEq, Except.ok.injEq]
    constructor
    · rintro ⟨rfl, rfl, rfl⟩
      exact ⟨b, rfl, rfl, rfl, rfl⟩
    · rintro ⟨_, rfl, rfl, rfl, rfl⟩
      exact ⟨rfl, rfl, rfl⟩

/-! ## Repetitions -/

/-- A parser that takes a token whenever it gives something, at least on short inputs. -/
structure Shrinks (item : Parser (Option α)) (stop : Eof) (bound : Nat) : Prop where
  shorter : ∀ {tokens a rest}, tokens.length ≤ bound → Gives item stop tokens (some a) rest →
    rest.length < tokens.length
  same : ∀ {tokens rest}, Gives item stop tokens none rest → rest = tokens
  atEnd : Gives item stop [] none []

end

end Offside.Grammar
