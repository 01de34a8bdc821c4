import Offside.Compile
import Offside.Proofs.Grammar.Totality
import Offside.Proofs.Token.BlankLines
import Offside.Proofs.Token.Returns
import Offside.Proofs.Tree.Renumbering

/-!
# Line breaks

Neither the blank lines of a source nor the marks that end its lines show in the script.  A blank line moves the line
numbers behind it, and a return in front of every newline moves none.
-/

namespace Offside

open Token

/-- A rejection with other line numbers. -/
def Rejection.reline (g : Nat → Nat) (rejection : Rejection) : Rejection :=
  ⟨rejection.stage, rejection.diagnostics.map (Diagnostic.reline g)⟩

theorem Rejection.reline_id (rejection : Rejection) : rejection.reline id = rejection := by
  rw [reline, Diagnostic.map_reline_id]

namespace Grammar.Parse

/-- Tokens that end in their only `eof` are parsed alike at other places. -/
theorem ofTokens_shift (moved : Shift) {before : List Token} (hbefore : ∀ token ∈ before, token.kind ≠ .eof)
    (stop : Eof) : ofTokens ((before ++ [stop.1]).map (Token.shift moved)) =
      (ofTokens (before ++ [stop.1])).reline moved.line := by
  have hmoved : ∀ token ∈ before.map (Token.shift moved), token.kind ≠ .eof := by
    intro token htoken
    obtain ⟨token, hmem, rfl⟩ := List.mem_map.1 htoken
    exact hbefore token hmem
  rw [ofTokens_append hbefore stop, ← ofBody_shift, List.map_append, List.map_singleton]
  exact ofTokens_append hmoved ⟨stop.1.shift moved, stop.2⟩ []

theorem ofTokens_shift_ofSource (moved : Shift) (source : String) :
    ofTokens ((Scan.ofSource source).tokens.map (Token.shift moved)) =
      (ofTokens (Scan.ofSource source).tokens).reline moved.line := by
  have htokens : (Scan.ofSource source).tokens = (Scan.ofSource source).beforeEof ++ [empty _ .eof] :=
    Scan.tokens_eq_beforeEof_append (plain_pieces source.toList)
  rw [htokens]
  exact ofTokens_shift moved (fun _ => Scan.kind_ne_eof_of_mem_beforeEof) ⟨_, rfl⟩

end Grammar.Parse

/-- Texts whose pieces are alike compile alike. -/
theorem compile_of_alike {moved : Shift} {source source' : String}
    (h : Alike moved .start (pieces source.toList) .start (pieces source'.toList)) (hmargin : moved.margin = moved.offset) :
    compile source' = (compile source).mapError (Rejection.reline moved.line) := by
  have hscan : Scan.ofSource source' = (Scan.ofSource source).shift moved := h.ofPieces_eq hmargin []
  have hscript : Program.script (reline moved.line (Grammar.Parse.ofTokens (Scan.ofSource source).tokens).program) =
      Program.script (Grammar.Parse.ofTokens (Scan.ofSource source).tokens).program := by
    rw [← relineBlock_eq, Program.script_reline]
  simp only [compile, hscan, Scan.shift, Grammar.Parse.ofTokens_shift_ofSource, Grammar.Parse.reline, List.isEmpty_map,
    hscript]
  split
  · split <;> rfl
  · rfl

/-- A blank line put in behind a newline changes nothing but the line numbers behind it.  No string or block comment
may be open there, since the line would be part of it. -/
theorem compile_insert_blankLine {front line : String} (hline : BlankLine line.toList)
    (hclosed : ∀ d ∈ (Scan.ofSource (front ++ "\n")).diagnostics,
      d.message ≠ "Unterminated string." ∧ d.message ≠ "Unterminated block comment.") (back : String) :
    compile (front ++ "\n" ++ line ++ "\n" ++ back) = (compile (front ++ "\n" ++ back)).mapError
      (Rejection.reline fun l => if l ≤ front.toList.count '\n' + 1 then l else l + 1) := by
  have hpieces : ∀ piece ∈ pieces (front.toList ++ ['\n']), ∀ cause, piece.content = .fault cause →
      cause.isOpen = false := by
    intro piece hmem cause hcause
    have hsource : (front ++ "\n").toList = front.toList ++ ['\n'] := by simp
    rw [← hsource] at hmem
    obtain ⟨d, hd, hmessage⟩ := Scan.exists_diagnostic_of_mem hmem hcause .start []
    have hnot := hclosed d hd
    rw [hmessage] at hnot
    cases cause with
    | openComment => exact absurd rfl hnot.2
    | openString quote => exact absurd rfl hnot.1
    | looseSeparator | strayCharacter => rfl
  have halike : Alike ((Cursor.start.after front.toList).insertion line.toList) .start
      (pieces (front ++ "\n" ++ back).toList) .start (pieces (front ++ "\n" ++ line ++ "\n" ++ back).toList) := by
    simpa using alike_blankLine hline hpieces .start back.toList
  have hplace : (Cursor.start.after front.toList).line = front.toList.count '\n' + 1 := by
    rw [Cursor.line_after, Nat.add_comm]
    rfl
  rw [← hplace]
  exact compile_of_alike halike rfl

/-- A comment line in a block, behind a closed block comment and in front of a line that does not parse. -/
theorem compile_insert_blankLine_comment :
    BlankLine "   # note".toList ∧
      (∀ d ∈ (Scan.ofSource ("if a:\n  x = '#' #* b\n *#;" ++ "\n")).diagnostics,
        d.message ≠ "Unterminated string." ∧ d.message ≠ "Unterminated block comment.") ∧
      compile ("if a:\n  x = '#' #* b\n *#;" ++ "\n" ++ "   # note" ++ "\n" ++ "  y = )\n") =
        (compile ("if a:\n  x = '#' #* b\n *#;" ++ "\n" ++ "  y = )\n")).mapError
          (Rejection.reline fun l => if l ≤ "if a:\n  x = '#' #* b\n *#;".toList.count '\n' + 1 then l else l + 1) := by
  have hline : BlankLine "   # note".toList := .comment 3 (by decide) (by decide)
  have hclosed : ∀ d ∈ (Scan.ofSource ("if a:\n  x = '#' #* b\n *#;" ++ "\n")).diagnostics,
      d.message ≠ "Unterminated string." ∧ d.message ≠ "Unterminated block comment." := by decide +kernel
  exact ⟨hline, hclosed, compile_insert_blankLine hline hclosed _⟩

/-- With a return in front of every newline a source compiles to the same script, or fails in the same way. -/
theorem compile_crlf {source : String} (hstrings : ∀ token ∈ (Scan.ofSource source).tokens,
    token.kind.isString = true → '\n' ∉ token.lexeme.toList) :
    compile (String.ofList (crlf source.toList)) = compile source := by
  have hpieces : ∀ piece ∈ pieces source.toList, ∀ value, piece.content = .token (.string value) →
      '\n' ∉ piece.text := by
    intro piece hmem value hvalue
    obtain ⟨token, htoken, hkind, hlexeme⟩ := Scan.exists_token_of_mem hmem hvalue .start []
    have hnot := hstrings token htoken (by rw [hkind]; rfl)
    rwa [hlexeme, String.toList_ofList] at hnot
  have halike := alike_crlf (follows_returnShift source.toList) hpieces
  have hcompile : compile (String.ofList (crlf source.toList)) =
      (compile source).mapError (Rejection.reline (returnShift source.toList).line) :=
    compile_of_alike (by rwa [String.toList_ofList]) rfl
  have hreline : Rejection.reline (returnShift source.toList).line = id := funext Rejection.reline_id
  rw [hcompile, hreline]
  cases compile source <;> rfl

/-- A block comment and a line comment over the ends of lines, and a string. -/
theorem compile_crlf_comments :
    (∀ token ∈ (Scan.ofSource "if a: # b\n  x = 'c';\n#* d\n*# y = )\n").tokens,
      token.kind.isString = true → '\n' ∉ token.lexeme.toList) ∧
      compile (String.ofList (crlf "if a: # b\n  x = 'c';\n#* d\n*# y = )\n".toList)) =
        compile "if a: # b\n  x = 'c';\n#* d\n*# y = )\n" := by
  have hstrings : ∀ token ∈ (Scan.ofSource "if a: # b\n  x = 'c';\n#* d\n*# y = )\n").tokens,
      token.kind.isString = true → '\n' ∉ token.lexeme.toList := by decide +kernel
  exact ⟨hstrings, compile_crlf hstrings⟩

end Offside
