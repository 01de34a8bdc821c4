import Offside.Compile
import Offside.Proofs.Grammar.Totality
import Offside.Proofs.Token.LineNumbers

/-!
# The order of diagnostics

Scanning goes forward in the lines of a source, and so do its diagnostics.  Parsing goes forward as well, and reports
at the token in front of it, but for three faults: what cannot be assigned to is known behind the sign, what cannot be
incremented behind the operator, and a second default behind its body, so that what stood in between has reported
before.  These three are the only diagnostics that come too late.
-/

namespace Offside

namespace Grammar.Parse

/-- Tokens in the order of their lines give diagnostics in that order, but for those that are late. -/
theorem pairwise_ofBody (stop : Eof) {tokens : List Token}
    (hlines : (tokens ++ [stop.1]).Pairwise fun a b => a.line ≤ b.line) :
    (ofBody stop.1 tokens).diagnostics.Pairwise fun a b => a.line ≤ b.line ∨ IsLate b := by
  have hitems := conducts_topItems ⟨tokens, stop, .still, False, False, False, id⟩ False.elim False.elim
  rw [diagnostics_ofBody]
  exact (hitems.inOrder hlines).sorted

theorem pairwise_ofSource (source : String) :
    (ofTokens (Token.Scan.ofSource source).tokens).diagnostics.Pairwise fun a b => a.line ≤ b.line ∨ IsLate b := by
  have hlines : (Token.Scan.ofSource source).tokens.Pairwise fun a b => a.line ≤ b.line :=
    (Token.Scan.along_ofPieces .start [] (Token.pieces source.toList)).tokens_sorted
  have htokens : (Token.Scan.ofSource source).tokens = (Token.Scan.ofSource source).beforeEof ++ _ :=
    Token.Scan.tokens_eq_beforeEof_append (Token.plain_pieces source.toList)
  rw [htokens] at hlines ⊢
  rw [ofTokens_append (fun token => Token.Scan.kind_ne_eof_of_mem_beforeEof) ⟨_, rfl⟩]
  exact pairwise_ofBody ⟨_, rfl⟩ hlines

end Grammar.Parse

/-- The diagnostics of a source that is rejected are in the order of its lines, but for the three syntactic ones that
come too late. -/
theorem pairwise_line_of_compile {source : String} {rejection : Rejection} (h : compile source = .error rejection) :
    rejection.diagnostics.Pairwise fun a b =>
      a.line ≤ b.line ∨ rejection.stage = .syntactic ∧ Grammar.IsLate b := by
  simp only [compile] at h
  split at h
  · split at h
    · cases h
    · obtain rfl := Except.error.inj h
      exact (Grammar.Parse.pairwise_ofSource source).imp fun hab => hab.imp_right fun hlate => ⟨rfl, hlate⟩
  · obtain rfl := Except.error.inj h
    exact (Token.Scan.along_ofPieces .start [] (Token.pieces source.toList)).diagnostics_sorted.imp .inl

/-- A missing name, an assignment to a number, and the increment of it, which stands in front and is reported last. -/
theorem pairwise_line_of_compile_increment : ∃ a b c,
    compile "var;\n++\n(1 = 2);\n" = .error ⟨.syntactic, [a, b, c]⟩ ∧ a.line ≤ b.line ∧
      (b.line ≤ c.line ∨ Grammar.IsLate c) := by
  have h : compile "var;\n++\n(1 = 2);\n" = .error ⟨.syntactic, [⟨.syntactic, 1, ";", "Expect variable name."⟩,
      ⟨.syntactic, 3, "=", "Invalid assignment target."⟩, ⟨.syntactic, 2, "++", "Invalid increment target."⟩]⟩ := by
    decide +kernel
  have hpairs := List.pairwise_cons.1 (pairwise_line_of_compile h)
  refine ⟨_, _, _, h, by decide, ?_⟩
  exact ((List.pairwise_cons.1 hpairs.2).1 _ (by simp)).imp_right And.right

/-- Each of the three comes behind a diagnostic of a later line: the assignment around an assignment, the increment of
one, and the second default of a `switch`, which is reported behind the faults of its body. -/
theorem exists_late_diagnostic :
    (∃ a b, compile "1 =\n2 = 3;\n" = .error ⟨.syntactic, [a, b]⟩ ∧ b.line < a.line ∧
        b.message = Grammar.Fault.badAssignment.message) ∧
      (∃ a b, compile "++\n(1 = 2);\n" = .error ⟨.syntactic, [a, b]⟩ ∧ b.line < a.line ∧
        b.message = Grammar.Fault.badUpdate.message) ∧
      ∃ a b, compile "switch x:\n default: a;\n default:\n  1 = 2;\n" = .error ⟨.syntactic, [a, b]⟩ ∧
        b.line < a.line ∧ b.message = Grammar.Fault.secondDefault.message := by
  refine ⟨⟨⟨.syntactic, 2, "=", "Invalid assignment target."⟩, ⟨.syntactic, 1, "=", "Invalid assignment target."⟩, ?_,
    by decide, rfl⟩, ⟨⟨.syntactic, 2, "=", "Invalid assignment target."⟩,
    ⟨.syntactic, 1, "++", "Invalid increment target."⟩, ?_, by decide, rfl⟩,
    ⟨.syntactic, 4, "=", "Invalid assignment target."⟩,
    ⟨.syntactic, 3, "default", "Duplicate default case in switch."⟩, ?_, by decide, rfl⟩
  all_goals decide +kernel

end Offside
