import Offside.Grammar.Statement

/-!
# Programs

The parsers of the grammar are tied together here.  `Inner.ofDepth` gives the parsers that can go `n` tokens
deep; a list of tokens is never nested deeper than it is long, so its length is depth enough.
-/

namespace Offside.Grammar

open Offside.Grammar.Parser

namespace Inner

/-- The parsers for what stands at most `n` tokens deep. -/
def ofDepth : (n : Nat) → Inner
  | 0 => ⟨0, fail .noExpression, fail .noExpression, fail .noExpression, fail .noExpression,
      fail .noExpression⟩
  | n + 1 =>
    let inner := ofDepth n
    ⟨n + 1, Grammar.expression inner, Grammar.exponent inner, Grammar.unary inner,
      Grammar.worded inner, Grammar.declaration inner⟩

end Inner

/-- What parsing gives: the statements that could be parsed, and the syntactic diagnostics. -/
structure Parse where
  program : Program
  diagnostics : List Diagnostic

namespace Parse

/-- The statements of a list of tokens without `eof`, up to its end. -/
def ofBody (stop : Token) (tokens : List Token) : Parse :=
  let inner := Inner.ofDepth (tokens.length + 1)
  let reply := many (do
    if ← atEnd then return none else return some (← recovering inner.declaration))
    (tokens.length + 1) stop tokens
  match reply.outcome with
  | .ok statements => ⟨statements.filterMap id, reply.notes⟩
  | .error diagnostic => ⟨[], reply.notes ++ [diagnostic]⟩

/-- The token that ends a list which does not end by itself. -/
def missingEof (tokens : List Token) : Token :=
  match tokens.getLast? with
  | some last => ⟨.eof, "", last.stop, last.stop, last.line⟩
  | none => ⟨.eof, "", 0, 0, 1⟩

/-- Parses the tokens before the first `eof`.  Nothing stops a parse: what fails is left out and
recorded. -/
def ofTokens (tokens : List Token) : Parse :=
  let isBody (token : Token) : Bool := token.kind ≠ .eof
  ofBody ((tokens.dropWhile isBody).headD (missingEof tokens)) (tokens.takeWhile isBody)

end Parse

end Offside.Grammar
