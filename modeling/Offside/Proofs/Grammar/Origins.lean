import Offside.Proofs.Grammar.StatementConduct

/-!
# Where a program comes from

Parsing makes nothing up.  Every name in a program is that of an identifier, or of a reserved word where a member is
named; every number and every string is the value of a token, and regular expressions and raw code are cut from the
lexemes of strings.  A diagnostic is about one of the tokens, or about the end that is put behind them if they have
none.  This holds of the statements that are left when others fail as well.
-/

namespace Offside

/-! ## The names of a program -/

def Param.names (p : Param Expr) : List Ident := p.name :: p.cast.toList

def Function.names (decl : Function Stmt) : List Ident := decl.name :: decl.params.flatMap Param.names

/-- The names that an expression has beside those of its parts. -/
def Expr.names : Expr → List Ident
  | .variable name | .assign name _ | .get _ name | .set _ name _ => [name]
  | .lambda params _ _ => params.flatMap Param.names
  | _ => []

/-- The names of members among them. -/
def Expr.memberNames : Expr → List Ident
  | .get _ name | .set _ name _ => [name]
  | _ => []

/-- The names that a statement has beside those of its parts and of the expressions in it. -/
def Stmt.names : Stmt → List Ident
  | .function decl => decl.names
  | .classDecl name _ methods => name :: methods.flatMap Function.names
  | .forLoop name _ _ | .declare _ name _ => [name]
  | .tryBlock _ handler _ _ => handler.toList.flatMap fun caught => caught.param.toList
  | _ => []

/-- How a diagnostic shows a token: by its lexeme, or by its name if it stands for a change of indentation. -/
def Token.label (token : Token) : String :=
  if token.kind = .indent then "indent" else if token.kind = .dedent then "dedent" else token.lexeme

/-- The text stands between the first and the last character of the lexeme. -/
def Token.Quotes (token : Token) (text : List Char) : Prop :=
  ∃ first last, token.lexeme.toList = first :: (text ++ [last])

namespace Grammar

section
variable (source : List Token)

/-- A literal that is the value of a token or cut from the lexeme of one, unless it is a reserved word. -/
def LiteralFrom : Literal → Prop
  | .number value => ∃ token ∈ source, token.kind = .number value
  | .string value => ∃ token ∈ source, token.kind = .string value
  | .regex pattern flags => ∃ token ∈ source, token.kind.isString = true ∧
      token.Quotes ('/' :: (pattern.toList ++ '/' :: flags.toList))
  | .boolean _ | .null | .undefined => True

/-- The names and the literal of an expression stand in the source. -/
def ExprFrom (e : Expr) : Prop :=
  (∀ name ∈ e.names, Named source name ∨ name ∈ e.memberNames ∧ MemberNamed source name) ∧
    ∀ value, e = .literal value → LiteralFrom source value

/-- The names and the raw code of a statement stand in the source.  A lexeme that is no quoted text gives no code. -/
def StmtFrom (s : Stmt) : Prop :=
  (∀ name ∈ s.names, Named source name) ∧ ∀ code, s = .raw code →
    ∃ token ∈ source, token.kind.isString = true ∧ (token.Quotes code.toList ∨ code = "")

end

variable {source : List Token} {quiet : Prop} {name : Ident}

theorem Named.memberNamed (h : Named source name) : MemberNamed source name := by
  obtain ⟨token, htoken, hkind, hline⟩ := h
  exact ⟨token, htoken, Or.inl hkind, hline⟩

theorem ParamsNamed.of_mem_names {params : List (Param Expr)} (h : ParamsNamed source params)
    (hname : name ∈ params.flatMap Param.names) : Named source name := by
  obtain ⟨p, hp, hname⟩ := List.mem_flatMap.1 hname
  have hparam := h.named p hp
  cases List.mem_cons.1 hname with
  | inl heq => exact heq ▸ hparam.name
  | inr hcast => exact hparam.cast name (Option.mem_toList.1 hcast)

theorem HeadDerives.of_mem_names {decl : Function Stmt} (h : HeadDerives source quiet decl)
    (hname : name ∈ decl.names) : Named source name := by
  cases List.mem_cons.1 hname with
  | inl heq => exact heq ▸ h.name
  | inr hparam => exact h.params.toParamsNamed.of_mem_names hparam

theorem Derives.of_mem_names {e : Expr} (h : Derives source quiet e) (hname : name ∈ e.names) :
    Named source name ∨ name ∈ e.memberNames ∧ MemberNamed source name := by
  cases h with
  | lambda hparams => exact Or.inl (hparams.of_mem_names hname)
  | assign h | «variable» h => exact Or.inl (List.mem_singleton.1 hname ▸ h)
  | get _ _ h | set _ _ h => exact Or.inr ⟨hname, List.mem_singleton.1 hname ▸ h⟩
  | _ => cases hname

theorem StmtDerives.of_mem_names {s : Stmt} (h : StmtDerives source quiet s) (hname : name ∈ s.names) :
    Named source name := by
  cases h with
  | function hhead => exact hhead.of_mem_names hname
  | classDecl hclass _ hheads =>
    cases List.mem_cons.1 hname with
    | inl heq => exact heq ▸ hclass
    | inr hmethod =>
      obtain ⟨decl, hdecl, hname⟩ := List.mem_flatMap.1 hmethod
      exact (hheads decl hdecl).of_mem_names hname
  | forLoop h | declare h => exact List.mem_singleton.1 hname ▸ h
  | tryBlock _ hparam =>
    obtain ⟨caught, hcaught, hname⟩ := List.mem_flatMap.1 hname
    exact hparam caught (Option.mem_toList.1 hcaught) name (Option.mem_toList.1 hname)
  | _ => cases hname

/-! ## Literals and raw code -/

theorem quotes_quotedText (token : Token) : token.Quotes (quotedText token) ∨ quotedText token = [] := by
  unfold quotedText
  split
  · rename_i first rest hlexeme
    split
    · rename_i last hlast
      split
      · refine Or.inl ⟨first, last, ?_⟩
        rw [hlexeme, List.dropLast_append_getLast? last hlast]
      · exact Or.inr rfl
    · exact Or.inr rfl
  · exact Or.inr rfl

theorem Derives.literalFrom {value : Literal} (h : Derives source quiet (.literal value)) :
    LiteralFrom source value := by
  cases h with
  | @literal token _ htoken hvalue =>
    unfold literal? at hvalue
    split at hvalue <;> cases hvalue
    case h_5 hkind | h_6 hkind => exact ⟨token, htoken, hkind⟩
    all_goals trivial
  | @regex token pattern flags htoken hstring hsplit =>
    have htext := eq_append_of_split? hsplit
    rw [LiteralFrom, String.toList_ofList, String.toList_ofList, ← htext]
    refine ⟨token, htoken, hstring, (quotes_quotedText token).resolve_right fun hnil => ?_⟩
    rw [hnil] at htext
    cases htext

theorem Derives.exprFrom {e : Expr} (h : Derives source quiet e) : ExprFrom source e :=
  ⟨fun _ hname => h.of_mem_names hname, fun _ hvalue => (hvalue ▸ h).literalFrom⟩

theorem StmtDerives.stmtFrom {s : Stmt} (h : StmtDerives source quiet s) : StmtFrom source s := by
  refine ⟨fun _ hname => h.of_mem_names hname, fun code hcode => ?_⟩
  subst hcode
  cases h with
  | @raw token htoken hstring =>
    rw [String.toList_ofList]
    exact ⟨token, htoken, hstring, (quotes_quotedText token).imp_right fun hnil => by rw [hnil, String.ofList_nil]⟩

/-! ## Diagnostics -/

theorem diagnosticAt_eq (token : Token) (fault : Fault) :
    diagnosticAt token fault = ⟨.syntactic, token.line, token.label, fault.message⟩ := by
  simp only [diagnosticAt, Token.label]
  cases token.kind <;> rfl

/-- The end of a list is its first `eof`, or one put behind it. -/
theorem firstEof_cases (tokens : List Token) : (Parse.firstEof tokens).1 ∈ tokens ∨
    (∀ token ∈ tokens, token.kind ≠ .eof) ∧ (Parse.firstEof tokens).1 = Parse.missingEof tokens := by
  simp only [Parse.firstEof]
  cases hdrop : tokens.dropWhile fun token => decide (token.kind ≠ .eof) with
  | nil => exact Or.inr ⟨by simpa using List.dropWhile_eq_nil_iff.1 hdrop, rfl⟩
  | cons token rest =>
    have hmem : token ∈ tokens.dropWhile fun token => decide (token.kind ≠ .eof) := by
      rw [hdrop]
      exact List.mem_cons_self
    exact Or.inl ((List.dropWhile_suffix _).subset hmem)

/-- Whichever faults a parse records, its statements and expressions come from the tokens before the first `eof`, and
each diagnostic is about a token, or about the `eof` that is put behind them if there is none. -/
theorem Parse.origins_ofTokens (tokens : List Token) :
    (∀ s ∈ Program.statements (ofTokens tokens).program, StmtFrom (untilEof tokens) s) ∧
      (∀ e ∈ Program.expressions (ofTokens tokens).program, ExprFrom (untilEof tokens) e) ∧
      ∀ d ∈ (ofTokens tokens).diagnostics, ∃ token,
        (token ∈ tokens ∨ (∀ other ∈ tokens, other.kind ≠ .eof) ∧ token = missingEof tokens) ∧
          d.stage = .syntactic ∧ d.line = token.line ∧ d.lexeme = token.label := by
  have hprogram := stmtDerives_ofTokens tokens
  refine ⟨fun s hs => (stmtDerives_of_mem_statements hprogram hs).stmtFrom,
    fun e he => (derives_of_mem_expressions hprogram he).exprFrom, fun d hd => ?_⟩
  have hitems := conducts_topItems ⟨untilEof tokens, firstEof tokens, .still, False, False, False, id⟩ False.elim False.elim
  obtain ⟨token, fault, htoken, rfl⟩ := hitems.located d (diagnostics_ofBody (firstEof tokens) _ ▸ hd)
  rw [diagnosticAt_eq]
  refine ⟨token, ?_, rfl, rfl, rfl⟩
  rcases htoken with htoken | ⟨-, rfl⟩
  · exact Or.inl ((List.takeWhile_prefix _).subset htoken)
  · exact firstEof_cases tokens

end Grammar

end Offside
