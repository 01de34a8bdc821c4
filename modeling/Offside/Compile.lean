import Offside.Grammar.Program
import Offside.Script.Lowering
import Offside.Script.Text
import Offside.Token.Layout

/-!
# Compiling

The JavaScript text of a source text: it is scanned, parsed, lowered and written.  A stage that records
diagnostics is the last one.
-/

namespace Offside

namespace Program

/-- What the first statement can say about strict mode. -/
inductive Directive
  | strict | unstrict
deriving DecidableEq, Repr

/-- The directive that a statement is. -/
def directive? : Stmt → Option Directive
  | .expression (.literal (.string value)) =>
    if value = "use strict" then some .strict
    else if value = "unstrict" then some .unstrict
    else none
  | _ => none

/-- The directive at the start of a program, and the statements without it. -/
def splitDirective : Program → Option Directive × List Stmt
  | [] => (none, [])
  | first :: rest =>
    match directive? first with
    | some directive => (some directive, rest)
    | none => (none, first :: rest)

def pragma : String := "\"use strict\";\n"

/-- The script of a program as text: the pragma unless the program opts out, the helpers it needs, and its
statements. -/
def script (program : Program) : String :=
  let (directive, body) := splitDirective program
  let opening := if directive = some .unstrict then "" else pragma
  opening ++ (blockNeeds body).text ++ Script.blockText 0 (lowerBlock 0 body)

end Program

/-- Compiles a source text to a script. -/
def compile (source : String) : Except Rejection String :=
  let scan := Token.Scan.ofSource source
  if scan.diagnostics.isEmpty then
    let parse := Grammar.Parse.ofTokens scan.tokens
    if parse.diagnostics.isEmpty then .ok parse.program.script
    else .error ⟨.syntactic, parse.diagnostics⟩
  else .error ⟨.lexical, scan.diagnostics⟩

end Offside
