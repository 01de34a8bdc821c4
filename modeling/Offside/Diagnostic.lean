/-!
# Diagnostics

Scanning and parsing go on after a problem and record a diagnostic for each one.  A source text is
rejected with all the diagnostics of the first stage that recorded any.
-/

namespace Offside

/-- The stage that records a diagnostic. -/
inductive Stage
  | lexical
  | syntactic
deriving DecidableEq, Repr

/-- A problem of the source text: where it is, the offending text (empty at the end of the
source), and what is wrong. -/
structure Diagnostic where
  stage : Stage
  line : Nat
  lexeme : String
  message : String
deriving DecidableEq, Repr

/-- The line printed for a diagnostic. -/
def Diagnostic.display (d : Diagnostic) : String :=
  let place := if d.lexeme.isEmpty then "end" else "\"" ++ d.lexeme ++ "\""
  "[Line: " ++ toString d.line ++ "] Error at " ++ place ++ ": " ++ d.message

/-- Why a source text has no script: the failing stage and all its diagnostics. -/
structure Rejection where
  stage : Stage
  diagnostics : List Diagnostic
deriving DecidableEq, Repr

/-- How a failing stage is called in messages. -/
def Stage.adjective : Stage → String
  | .lexical => "lexical"
  | .syntactic => "syntax"

/-- One line for a whole rejection: the number of diagnostics and the first of them. -/
def Rejection.message (r : Rejection) : String :=
  let first := (r.diagnostics.head?.map Diagnostic.display).getD ""
  toString r.diagnostics.length ++ " " ++ r.stage.adjective ++ " error(s); first: " ++ first

end Offside
