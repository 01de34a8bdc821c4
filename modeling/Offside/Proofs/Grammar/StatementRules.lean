import Offside.Proofs.Grammar.ExpressionRules

/-!
# The rules of statements

How the parsers of blocks, of the cases of a `switch` and of whole statements run quietly, told quiet runs of their
parts.  The other parsers of statements are rows of such runs.
-/

namespace Offside.Grammar

open Offside.Grammar.Parser

variable {α β : Type} {item : Parser α} {s : Stmt}

section
variable {inner : Inner} {stop : Eof} {tokens rest : List Token}

/-! ## Blocks -/

/-- The block at hand ends in front of these tokens. -/
def BlockEnd (tokens : List Token) : Prop := nextKind tokens = .dedent ∨ tokens = []

theorem gives_atBlockEnd_bind {f : Bool → Parser α} {a : α} : Gives (atBlockEnd >>= f) stop tokens a rest ↔
      Gives (f (nextKind tokens == .dedent || tokens.isEmpty)) stop tokens a rest := by
  rw [← kind_headD]
  rfl

/-- One item of a block, or nothing at its end. -/
def blockItem (item : Parser α) : Parser (Option (Option α)) := do
  if ← atBlockEnd then return none else return some (← recovering item)

/-- One item of a list that goes on up to the end of the tokens. -/
def topItem (item : Parser α) : Parser (Option (Option α)) := do
  if ← atEnd then return none else return some (← recovering item)

theorem Gives.blockItem {a : α} (hend : ¬ BlockEnd tokens) (h : Gives item stop tokens a rest) :
    Gives (blockItem item) stop tokens (some (some a)) rest := by
  rw [Grammar.blockItem, gives_atBlockEnd_bind, if_neg (by simpa [BlockEnd] using hend)]
  exact Gives.bind (gives_recovering.2 ⟨a, rfl, h⟩) .pure

theorem Gives.topItem {a : α} (hne : tokens ≠ []) (h : Gives item stop tokens a rest) :
    Gives (topItem item) stop tokens (some (some a)) rest := by
  rw [Grammar.topItem, gives_atEnd_bind, if_neg (by simpa using hne)]
  exact Gives.bind (gives_recovering.2 ⟨a, rfl, h⟩) .pure

/-! ## Statements -/

section
variable {case : Parser α} {default : Parser β} {rounds : Nat} {found : List α × Option β} {middle tail : List Token}

theorem Takes.casesOf_case {first : α} {seenDefault : Bool} (htake : Takes (.keyword .kwCase) tokens middle)
    (hfirst : Gives case stop middle first tail) (h : Gives (casesOf case default rounds seenDefault) stop tail found rest) :
    Gives (casesOf case default (rounds + 1) seenDefault) stop tokens (first :: found.1, found.2) rest := by
  obtain ⟨token, rfl, hkind⟩ := htake
  rw [casesOf, gives_atBlockEnd_bind, nextKind_cons, hkind]
  exact Takes.accept_bind ⟨token, rfl, hkind⟩ (hfirst.bind (h.bind .pure))

theorem Takes.casesOf_default {content : β} (htake : Takes (.keyword .kwDefault) tokens middle)
    (hcontent : Gives default stop middle content tail) (h : Gives (casesOf case default rounds true) stop tail found rest) :
    Gives (casesOf case default (rounds + 1) false) stop tokens (found.1, some (found.2.getD content)) rest := by
  obtain ⟨token, rfl, hkind⟩ := htake
  rw [casesOf, gives_atBlockEnd_bind, nextKind_cons, hkind]
  exact gives_accept_bind_of_ne (by simp [hkind]) (Takes.accept_bind ⟨token, rfl, hkind⟩
    (hcontent.bind (h.bind .pure)))

end

/-- No word in front makes these tokens another statement than an expression. -/
def ExpressionAt (inner : Inner) (tokens : List Token) : Prop :=
  nextKind tokens ≠ .indent ∧ (∀ word, nextKind tokens = .keyword word → worded? inner word = none) ∧
    (nextKind tokens = .keyword .kwAsync → nextKind tokens.tail ≠ .keyword .kwFunction)

section
variable {middle tail : List Token}

theorem Takes.declaration_async {decl : Function Stmt} (hasync : Takes (.keyword .kwAsync) tokens middle)
    (hfunction : Takes (.keyword .kwFunction) middle tail)
    (h : Gives (functionDeclaration inner true) stop tail decl rest) :
    Gives (declaration inner) stop tokens (.function decl) rest := by
  obtain ⟨token, rfl, htoken⟩ := hasync
  obtain ⟨second, rfl, hsecond⟩ := hfunction
  simp only [declaration, gives_peek_bind, List.headD_cons, htoken, gives_checkSecond_bind]
  rw [List.tail_cons, nextKind_cons, hsecond, if_pos (by simp)]
  exact gives_advance_bind.2 (gives_advance_bind.2 (h.bind .pure))

theorem Takes.declaration_word {word : Keyword} {p : Parser Stmt} (htake : Takes (.keyword word) tokens tail)
    (hword : worded? inner word = some p) (h : Gives p stop tail s rest) :
    Gives (declaration inner) stop tokens s rest := by
  obtain ⟨token, rfl, htoken⟩ := htake
  simp only [declaration, gives_peek_bind, List.headD_cons, htoken]
  split
  · rename_i hasync
    cases hasync
    cases hword
  · rename_i word' _ hsame
    cases hsame
    rw [hword]
    exact gives_advance_bind.2 h
  · rename_i hindent
    cases hindent
  · rename_i hnot _
    exact absurd rfl (hnot _)

theorem Takes.declaration_block {content : List Stmt} (htake : Takes .indent tokens tail)
    (h : Gives (block inner) stop tail content rest) : Gives (declaration inner) stop tokens (.block content) rest := by
  obtain ⟨token, rfl, htoken⟩ := htake
  simp only [declaration, gives_peek_bind, List.headD_cons, htoken]
  exact gives_advance_bind.2 (h.bind .pure)

theorem ExpressionAt.declaration (hat : ExpressionAt inner tokens)
    (h : Gives (expressionStatement inner) stop tokens s rest) : Gives (declaration inner) stop tokens s rest := by
  obtain ⟨hindent, hword, hsecond⟩ := hat
  simp only [Grammar.declaration, gives_peek_bind, kind_headD]
  split
  · rename_i hkind
    rw [gives_checkSecond_bind, if_neg (by simpa using hsecond hkind)]
    exact h
  · rename_i word _ hkind
    rw [hword word hkind]
    exact h
  · rename_i hkind
    exact absurd hkind hindent
  · exact h

end

/-! ## Programs -/

theorem ofBody_apply {stop : Token} {reply : Reply (List (Option Stmt))}
    (h : many (topItem (Inner.ofDepth (tokens.length + 1)).declaration) (tokens.length + 1) stop tokens = reply) :
    Parse.ofBody stop tokens = match reply.outcome with
      | .ok statements => ⟨statements.filterMap id, reply.notes⟩
      | .error diagnostic => ⟨[], reply.notes ++ [diagnostic]⟩ := by
  subst h
  rfl

theorem ofBody_eq {items : List (Option Stmt)}
    (h : Gives (many (topItem (Inner.ofDepth (tokens.length + 1)).declaration) (tokens.length + 1)) stop tokens items
      rest) : Parse.ofBody stop.1 tokens = ⟨items.filterMap id, []⟩ :=
  ofBody_apply h

theorem exists_gives_of_ofBody (h : (Parse.ofBody stop.1 tokens).diagnostics = []) : ∃ items rest,
    Gives (many (topItem (Inner.ofDepth (tokens.length + 1)).declaration) (tokens.length + 1)) stop tokens items rest ∧
      (Parse.ofBody stop.1 tokens).program = items.filterMap id := by
  rcases hreply : many (topItem (Inner.ofDepth (tokens.length + 1)).declaration) (tokens.length + 1) stop.1 tokens with
    ⟨diagnostic | items, rest, notes⟩
  · rw [ofBody_apply hreply] at h
    simp at h
  · have hnotes : notes = [] := by rwa [ofBody_apply hreply] at h
    subst hnotes
    exact ⟨items, rest, hreply, by rw [ofBody_apply hreply]⟩

/-- The words that go on with a statement in front of them. -/
def goesOn : Token.Kind → Bool
  | .keyword word =>
    match word with
    | .kwElif | .kwElse | .kwCatch | .kwFinally => true
    | _ => false
  | _ => false

/-- The `eof` that ends a parse: the first one, or one put behind the last token. -/
def Parse.firstEof (tokens : List Token) : Eof where
  val := (tokens.dropWhile fun token => token.kind ≠ .eof).headD (Parse.missingEof tokens)
  property := by
    cases hdrop : tokens.dropWhile fun token => decide (token.kind ≠ .eof) with
    | nil =>
      rw [List.headD_nil, Parse.missingEof]
      split <;> rfl
    | cons token rest =>
      have hhead := List.head?_dropWhile_not (fun token : Token => decide (token.kind ≠ .eof)) tokens
      rw [hdrop] at hhead
      simpa using hhead

/-- The tokens before the first `eof` are parsed. -/
theorem exists_ofTokens_eq (tokens : List Token) : ∃ stop : Eof,
    Parse.ofTokens tokens = Parse.ofBody stop.1 (tokens.takeWhile fun token => token.kind ≠ .eof) :=
  ⟨Parse.firstEof tokens, rfl⟩

end

end Offside.Grammar
