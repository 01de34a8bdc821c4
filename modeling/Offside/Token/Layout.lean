import Offside.Diagnostic
import Offside.Token.Piece

/-!
# Layout

Indentation is read against the open levels, the widths of the blocks that a line stands in.  A wider line
opens a level and gets an `indent` token, a narrower line closes every wider level with a `dedent` token
each, and the levels still open at the end of the source are closed before the final `eof`.
-/

namespace Offside.Token

/-- A place in the source: a byte offset and a line. -/
structure Cursor where
  offset : Nat
  line : Nat
deriving DecidableEq, Repr

namespace Cursor

/-- The place before the first character. -/
def start : Cursor := ⟨0, 1⟩

/-- The place behind one more character. -/
def step (place : Cursor) (c : Char) : Cursor :=
  ⟨place.offset + c.utf8Size, if c = '\n' then place.line + 1 else place.line⟩

/-- The place behind a stretch of text. -/
def after (place : Cursor) (text : List Char) : Cursor := text.foldl step place

end Cursor

/-- The widths of the open indentation levels, innermost first.  The level of width zero is always
open and not listed. -/
abbrev Levels := List Nat

namespace Levels

/-- The width of the innermost level. -/
def top (levels : Levels) : Nat := levels.headD 0

/-- The layout tokens of a line of the given width. -/
def change (levels : Levels) (width : Nat) : List Kind :=
  if levels.top < width then [.indent]
  else (levels.takeWhile (width < ·)).map fun _ => .dedent

/-- The levels open on a line of the given width. -/
def settle (levels : Levels) (width : Nat) : Levels :=
  if levels.top < width then width :: levels else levels.dropWhile (width < ·)

end Levels

/-- A token without text at a place. -/
def empty (place : Cursor) (kind : Kind) : Token := ⟨kind, "", place.offset, place.offset, place.line⟩

/-- What scanning gives: the tokens and the lexical diagnostics. -/
structure Scan where
  tokens : List Token
  diagnostics : List Diagnostic
deriving DecidableEq, Repr

namespace Scan

/-- Puts tokens and diagnostics in front. -/
def prepend (tokens : List Token) (diagnostics : List Diagnostic) (scan : Scan) : Scan :=
  ⟨tokens ++ scan.tokens, diagnostics ++ scan.diagnostics⟩

/-- The offending text that is shown for a faulty piece. -/
def shown (text : List Char) : Fault → String
  | .openComment => "#*"
  | .openString quote => String.singleton quote
  | .looseSeparator | .strayCharacter => String.ofList text

def tabDiagnostic (line : Nat) : Diagnostic :=
  ⟨.lexical, line, "\\t", "Tabs are not allowed in indentation."⟩

/-- The tokens and diagnostics of the pieces that follow a place, under the levels open there. -/
def ofPieces (place : Cursor) (levels : Levels) : List Piece → Scan
  | [] => ⟨levels.map (fun _ => empty place .dedent) ++ [empty place .eof], []⟩
  | ⟨text, content⟩ :: pieces =>
    let next := place.after text
    match content with
    | .blank => ofPieces next levels pieces
    | .token kind =>
      let token := ⟨kind, String.ofList text, place.offset, next.offset, place.line⟩
      (ofPieces next levels pieces).prepend [token] []
    | .fault cause =>
      let diagnostic := ⟨.lexical, place.line, shown text cause, cause.message⟩
      (ofPieces next levels pieces).prepend [] [diagnostic]
    | .newline tabbed width =>
      let diagnostics := if tabbed then [tabDiagnostic next.line] else []
      match width with
      | none => (ofPieces next levels pieces).prepend [] diagnostics
      | some width =>
        let tokens := (levels.change width).map (empty next)
        (ofPieces next (levels.settle width) pieces).prepend tokens diagnostics

/-- Scans a source text.  Nothing stops a scan: what is malformed is left out and recorded. -/
def ofSource (source : String) : Scan := ofPieces .start [] (pieces source.toList)

end Scan

end Offside.Token
