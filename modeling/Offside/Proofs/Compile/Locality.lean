import Offside.Proofs.Grammar.Shapes
import Offside.Proofs.Script.Generator

/-!
# Writing is local

The names and the literals of a program are written without line breaks, whatever its strings and patterns hold.  So
what the generator writes for a statement is lines of its own: each is told apart by the number of blocks around it, and
the state of the generator matters only by its depth and by the number of the next fresh name.
-/

namespace Offside

open Branching (nodes)
open Text (Texture)

/-! ## Literals on one line -/

namespace Script

theorem oneLine_encode (value : String) : '\n' ∉ (Text.Quoted.encode value).toList := by
  have hhex : ∀ n < 16, Text.Quoted.hexDigit n ≠ '\n' := by decide
  have hescape (c : Char) : '\n' ∉ Text.Quoted.escape c := by
    fun_cases Text.Quoted.escape c with
    | case8 hcontrol =>
      have hhigh := hhex (c.toNat / 16) (by omega)
      have hlow := hhex (c.toNat % 16) (by omega)
      simp [hhigh.symm, hlow.symm]
    | case9 => simp_all [eq_comm]
    | _ => decide
  simp [Text.Quoted.encode, hescape]

theorem oneLine_regexText (escaped : Bool) (text : List Char) : '\n' ∉ regexText escaped text := by
  induction text generalizing escaped with
  | nil => exact List.not_mem_nil
  | cons c text ih =>
    rw [regexText, List.mem_append, not_or]
    refine ⟨?_, ih _⟩
    split
    · decide
    · split
      · decide
      · split
        · decide
        · rename_i hbreak _
          exact fun hmem => hbreak (List.mem_singleton.1 hmem).symm

theorem oneLine_literalText {value : Literal}
    (h : ∀ pattern flags, value = .regex pattern flags → '\n' ∉ flags.toList) :
    '\n' ∉ (literalText value).toList := by
  cases value with
  | number x => exact (isPlain_numberText x).2
  | string value => exact oneLine_encode value
  | boolean b => cases b <;> decide
  | null => decide
  | undefined => decide
  | regex pattern flags =>
    have hflags := h pattern flags rfl
    have hpattern := oneLine_regexText false pattern.toList
    simp [literalText, hflags, hpattern]

end Script

/-! ## Statements of a parsed program -/

/-- The spaces in front of a line if `depth` more blocks are around it. -/
def Line.indent (depth : Nat) : Line → String
  | .code .. => String.ofList (List.replicate (4 * depth) ' ')
  | .raw _ => ""

theorem Line.text_eq_indent_append (depth : Nat) (line : Line) : line.text depth = line.indent depth ++ line.text 0 := by
  cases line with
  | raw content => simp [Line.text, Line.indent]
  | code inner text =>
    rw [Line.text, Line.text, Line.indent, Script.line, Script.line, Nat.zero_add, Nat.mul_add,
      ← List.replicate_append_replicate, String.ofList_append]
    simp only [String.append_assoc]

/-- The text that a generator has written. -/
def Generator.text (g : Generator) : String := Line.join 0 g.lines

theorem Line.Laid.oneLine {a b : Nat} {lines : List Line} (h : Laid .oneLine a lines b) :
    ∀ depth text, Line.code depth text ∈ lines → '\n' ∉ text.toList := by
  intro depth text hline
  induction h with
  | nil => cases hline
  | raw _ ih => exact ih (by simpa using hline)
  | plain htext _ ih | enter htext _ ih | reopen htext _ ih | close htext _ ih =>
    cases List.mem_cons.1 hline with
    | inl hhere =>
      cases hhere
      exact fun hbreak => htext (by simp [hbreak])
    | inr hthere => exact ih hthere

namespace Program

theorem oneLine_of_mem_names {source : String} {name : Ident} (h : name ∈ names (ofSource source)) :
    '\n' ∉ name.text.toList := by
  intro hbreak
  have hclass := (isWord_of_mem_names h).mem '\n' hbreak
  revert hclass
  decide

theorem oneLine_of_mem_literals {source : String} {value : Literal} (h : value ∈ literals (ofSource source)) :
    '\n' ∉ (Script.literalText value).toList := by
  apply Script.oneLine_literalText
  intro pattern flags hregex
  subst hregex
  obtain ⟨e, he, hvalue⟩ := List.mem_flatMap.1 h
  have hwellFormed := (Grammar.derives_of_mem_expressions
    (Grammar.stmtDerives_ofTokens (Token.Scan.ofSource source).tokens) he).wellFormed
  cases e with
  | literal value =>
    rw [← List.mem_singleton.1 hvalue] at hwellFormed
    exact fun hbreak => absurd (hwellFormed.letters _ hbreak) (by decide)
  | _ => cases hvalue

/-- What the generator writes for a statement of a parsed program are lines of the statement's own, which depend on the
number of the next fresh name only: code on one line each, and the raw code in the statement.  They are put behind what
is written, each line of code behind four more spaces for every open block; the generator is left as deep as it was, has
closed no block that was not open, needs the helpers of the statement as well, and has counted its loops and the `try`
statements with an `else` in it.  What is added is the text of the lowered statement. -/
theorem statement_local {source : String} {s : Stmt} (hs : s ∈ statements (ofSource source)) (next : Nat) :
    ∃ lines : List Line,
      (∀ depth text, Line.code depth text ∈ lines → '\n' ∉ text.toList) ∧
      lines.filterMap Line.rawCode? = (nodes s).filterMap Stmt.rawCode? ∧
      ∀ g : Generator, g.next = next →
        g.statement s = ⟨g.lines ++ lines.map (Line.deepen g.depth), g.depth, g.cuts, g.needs ++ s.needs,
          g.next + ((nodes s).filter Stmt.isNumbered).length⟩ ∧
        (g.statement s).text = g.text ++ (s.lower g.next).text g.depth ∧
        (s.lower g.next).text g.depth = String.join (lines.map fun line => line.indent g.depth ++ line.text 0) := by
  obtain ⟨lines, hlaid, hcodes, htext, hrun⟩ := writes_statement (T := .oneLine)
    (fun _ hname => oneLine_of_mem_names hname) (fun _ hvalue => oneLine_of_mem_literals hvalue) s hs next
  have hnumbered : s.labels = ((nodes s).filter Stmt.isNumbered).length := by
    have hblock := blockLabels_eq_length [s]
    simpa [blockLabels, numbered, statements] using hblock
  refine ⟨lines, hlaid.oneLine, ?_, fun g hnext => ?_⟩
  · have hown : (nodes s).filterMap Stmt.rawCode? = Output.rawCodes [s] := by simp [Output.rawCodes, statements]
    rw [hcodes, hown, Generator.rawCodes_cons]
    exact (List.append_nil _).symm
  · have hstatement := hrun g.depth g hnext rfl
    have hadded : (s.lower g.next).text g.depth = Line.join g.depth lines := by
      rw [hnext]
      exact (htext g.depth).symm
    refine ⟨?_, ?_, ?_⟩
    · rw [hstatement, hnext, ← hnumbered]
      rfl
    · rw [hstatement, hadded, Generator.text, Generator.text, Line.join_append, Line.join_map_deepen, Nat.zero_add]
    · rw [hadded, Line.join]
      simp only [← Line.text_eq_indent_append]

/-- A loop around a `try` with an `else`, which copies code with a line break in it. -/
theorem statement_local_loop :
    ∃ s ∈ statements (ofSource "for x in y:\n    try: JSRAW \"a\n b\";\n    else: z(\"\\n\");\n"),
      (nodes s).filterMap Stmt.rawCode? = ["a\n b"] ∧ ((nodes s).filter Stmt.isNumbered).length = 2 ∧
      ∃ lines : List Line,
        (∀ depth text, Line.code depth text ∈ lines → '\n' ∉ text.toList) ∧
        lines.filterMap Line.rawCode? = (nodes s).filterMap Stmt.rawCode? ∧
        ∀ g : Generator, g.next = 7 →
          g.statement s = ⟨g.lines ++ lines.map (Line.deepen g.depth), g.depth, g.cuts, g.needs ++ s.needs,
            g.next + ((nodes s).filter Stmt.isNumbered).length⟩ ∧
          (g.statement s).text = g.text ++ (s.lower g.next).text g.depth ∧
          (s.lower g.next).text g.depth =
            String.join (lines.map fun line => line.indent g.depth ++ line.text 0) := by
  have hfacts : 0 < (ofSource "for x in y:\n    try: JSRAW \"a\n b\";\n    else: z(\"\\n\");\n").length ∧
      ∀ s ∈ ofSource "for x in y:\n    try: JSRAW \"a\n b\";\n    else: z(\"\\n\");\n",
        (nodes s).filterMap Stmt.rawCode? = ["a\n b"] ∧ ((nodes s).filter Stmt.isNumbered).length = 2 := by
    decide +kernel
  obtain ⟨s, hs⟩ := List.exists_mem_of_length_pos hfacts.1
  have hstatement := mem_statements.2 ⟨s, hs, Branching.mem_nodes_self s⟩
  exact ⟨s, hstatement, (hfacts.2 s hs).1, (hfacts.2 s hs).2, statement_local hstatement 7⟩

end Program

end Offside
