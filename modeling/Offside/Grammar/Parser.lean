import Offside.Diagnostic
import Offside.Grammar.Fault
import Offside.Token
import Offside.Tree

/-!
# Parsers

A parser takes tokens from the front of a list and either gives a value or fails with a diagnostic.  In
both cases it tells which tokens are left and which diagnostics it recorded on the way without failing.
The list has no `eof` token; the token that ended it is known beside it, for diagnostics at the end.
-/

namespace Offside.Grammar

/-- What a parser gives back. -/
structure Reply (α : Type) where
  outcome : Except Diagnostic α
  rest : List Token
  notes : List Diagnostic

/-- A parser, told the token that ends the input and the tokens before it. -/
def Parser (α : Type) : Type := Token → List Token → Reply α

/-- The diagnostic of a fault at a token.  Layout tokens have no text and are named instead. -/
def diagnosticAt (token : Token) (fault : Fault) : Diagnostic :=
  let lexeme := match token.kind with
    | .indent => "indent"
    | .dedent => "dedent"
    | _ => token.lexeme
  ⟨.syntactic, token.line, lexeme, fault.message⟩

namespace Parser

instance : Monad Parser where
  pure a := fun _ tokens => ⟨.ok a, tokens, []⟩
  bind p f := fun stop tokens =>
    match p stop tokens with
    | ⟨.ok a, rest, notes⟩ =>
      let next := f a stop rest
      ⟨next.outcome, next.rest, notes ++ next.notes⟩
    | ⟨.error diagnostic, rest, notes⟩ => ⟨.error diagnostic, rest, notes⟩

/-- The next token, which stays. -/
def peek : Parser Token := fun stop tokens => ⟨.ok (tokens.headD stop), tokens, []⟩

/-- Takes the next token.  Nothing is taken at the end. -/
def advance : Parser Token := fun stop tokens => ⟨.ok (tokens.headD stop), tokens.tail, []⟩

def atEnd : Parser Bool := fun _ tokens => ⟨.ok tokens.isEmpty, tokens, []⟩

/-- Whether the next token has the given kind. -/
def check (kind : Token.Kind) : Parser Bool := return (← peek).kind == kind

/-- Whether the token behind the next one has the given kind. -/
def checkSecond (kind : Token.Kind) : Parser Bool := fun stop tokens =>
  ⟨.ok ((tokens.tail.headD stop).kind == kind), tokens, []⟩

/-- Takes the next token if it has the given kind, and tells whether it had. -/
def accept (kind : Token.Kind) : Parser Bool := do
  if ← check kind then
    let _ ← advance
    return true
  else return false

/-- Fails at a token. -/
def failAt (token : Token) (fault : Fault) : Parser α := fun _ tokens =>
  ⟨.error (diagnosticAt token fault), tokens, []⟩

/-- Fails at the next token. -/
def fail (fault : Fault) : Parser α := do failAt (← peek) fault

/-- Records a fault at a token and goes on. -/
def note (token : Token) (fault : Fault) : Parser Unit := fun _ tokens =>
  ⟨.ok (), tokens, [diagnosticAt token fault]⟩

/-- Takes a token of the given kind or fails. -/
def expect (kind : Token.Kind) (fault : Fault) : Parser Unit := do
  if ← accept kind then return () else fail fault

/-- Takes an identifier or fails. -/
def ident (role : Role) : Parser Ident := do
  let token ← peek
  match token.kind with
  | .identifier name =>
    let _ ← advance
    return ⟨name, token.line⟩
  | _ => fail (.noName role)

/-- Drops the layout tokens in front. -/
def skipLayout : Parser Unit := fun _ tokens =>
  ⟨.ok (), tokens.dropWhile (·.kind.isLayout), []⟩

/-- Repeats a parser until it gives nothing, at most `rounds` times, and collects the values. -/
def many (item : Parser (Option α)) : (rounds : Nat) → Parser (List α)
  | 0 => return []
  | rounds + 1 => do
    match ← item with
    | none => return []
    | some a => return a :: (← many item rounds)

/-- Repeats a parser on a changing value until it gives nothing, at most `rounds` times. -/
def iterate (step : α → Parser (Option α)) : (rounds : Nat) → α → Parser α
  | 0, a => return a
  | rounds + 1, a => do
    match ← step a with
    | none => return a
    | some next => iterate step rounds next

/-- Runs a parser if a token of the given kind can be taken. -/
def afterToken (kind : Token.Kind) (p : Parser α) : Parser (Option α) := do
  if ← accept kind then return some (← p) else return none

end Parser

end Offside.Grammar
