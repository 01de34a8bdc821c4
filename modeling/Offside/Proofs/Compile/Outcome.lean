import Offside.Compile
import Offside.Proofs.Grammar.StatementConduct
import Offside.Proofs.Tree.Parts

/-!
# Sources that compile

A source compiles if neither the scan nor the parse records a fault, and then the text is a preamble and the script of
the statements behind a leading directive.  The statements are those of the grammar.
-/

namespace Offside

namespace Program

/-- The program that a source is parsed to. -/
def ofSource (source : String) : Program := (Grammar.Parse.ofTokens (Token.Scan.ofSource source).tokens).program

/-- The statements of a program without a directive at the start. -/
def body (program : Program) : List Stmt := (splitDirective program).2

/-- The trees that are written for a program. -/
def lowered (program : Program) : List Script.Stmt := lowerBlock 0 (body program)

/-- What is written in front of them: the pragma, unless the program opts out, and the helpers. -/
def preamble (program : Program) : String :=
  (if (splitDirective program).1 = some .unstrict then "" else pragma) ++ (blockNeeds (body program)).text

/-- What is left out of a program is a literal. -/
theorem eq_body_or_literal (program : Program) :
    body program = program ∨ ∃ value, program = .expression (.literal value) :: body program := by
  cases program with
  | nil => exact Or.inl rfl
  | cons first rest =>
    simp only [body, splitDirective]
    split
    · rename_i directive hdirective
      unfold directive? at hdirective
      split at hdirective
      · exact Or.inr ⟨_, rfl⟩
      · cases hdirective
    · exact Or.inl rfl

theorem body_sublist (program : Program) : (body program).Sublist program := by
  cases eq_body_or_literal program with
  | inl hbody => simp [hbody]
  | inr hdirective =>
    obtain ⟨value, hprogram⟩ := hdirective
    have hcons := List.sublist_cons_self (.expression (.literal value)) (body program)
    rwa [← hprogram] at hcons

end Program

open Program

variable {source js : String}

theorem compile_eq_ok_iff : compile source = .ok js ↔ (Token.Scan.ofSource source).diagnostics = [] ∧
      (Grammar.Parse.ofTokens (Token.Scan.ofSource source).tokens).diagnostics = [] ∧
        js = preamble (ofSource source) ++ Script.blockText 0 (lowered (ofSource source)) := by
  simp only [compile, List.isEmpty_iff]
  by_cases hscan : (Token.Scan.ofSource source).diagnostics = []
  · rw [if_pos hscan]
    by_cases hparse : (Grammar.Parse.ofTokens (Token.Scan.ofSource source).tokens).diagnostics = []
    · rw [if_pos hparse]
      constructor
      · intro h
        exact ⟨hscan, hparse, (Except.ok.inj h).symm⟩
      · intro h
        exact congrArg Except.ok h.2.2.symm
    · rw [if_neg hparse]
      exact ⟨nofun, fun h => absurd h.2.1 hparse⟩
  · rw [if_neg hscan]
    exact ⟨nofun, fun h => absurd h.1 hscan⟩

theorem compile_eq_ok_of_toOption (h : (compile source).toOption = some js) : compile source = .ok js := by
  cases hcompile : compile source with
  | error rejection => simp [hcompile, Except.toOption] at h
  | ok text => simpa [hcompile, Except.toOption] using h

/-- The statements of a source that compiles, and no others are written. -/
theorem stmtDerives_of_compile (h : compile source = .ok js) :
    ∀ s ∈ ofSource source, Grammar.StmtDerives (Grammar.untilEof (Token.Scan.ofSource source).tokens) True s := by
  obtain ⟨-, hparse, -⟩ := compile_eq_ok_iff.1 h
  have hderives := Grammar.stmtDerives_ofTokens (Token.Scan.ofSource source).tokens
  rw [hparse] at hderives
  simpa [ofSource] using hderives

/-- The expressions of a source that compiles. -/
theorem derives_of_compile (h : compile source = .ok js) :
    ∀ e ∈ expressions (ofSource source), Grammar.Derives (Grammar.untilEof (Token.Scan.ofSource source).tokens) True e :=
  fun _ he => Grammar.derives_of_mem_expressions (stmtDerives_of_compile h) he

end Offside
