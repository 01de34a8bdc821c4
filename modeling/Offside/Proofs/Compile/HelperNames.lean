import Offside.Proofs.Compile.FreshNames
import Offside.Proofs.Compile.HelperUse

/-!
# The names of helpers

A helper is declared at the top of a script, where a variable or a class of the program may not have its name.  Three
of the helpers have names with a dollar sign, which no program can declare.  The fourth one is named `range`, and it is
declared twice exactly when a program that calls it declares a variable or a class of this name at its top.
-/

namespace Offside

open Script (Helper)

/-- The name that a statement declares for the rest of its block and that may be declared there once only. -/
def Stmt.lexicalName? : Stmt → Option Ident
  | .declare .scoped name _ | .declare .constant name _ | .classDecl name _ _ => some name
  | _ => none

theorem Stmt.mem_names_of_lexicalName? {s : Stmt} {name : Ident} (h : s.lexicalName? = some name) : name ∈ s.names := by
  unfold lexicalName? at h
  split at h
  · cases h
    exact List.mem_cons_self
  · cases h
    exact List.mem_cons_self
  · cases h
    exact List.mem_cons_self
  · cases h

/-- The first line of a helper declares a function of its name. -/
theorem Script.Helper.exists_head?_lines (helper : Helper) :
    ∃ params, helper.lines.head? = some ("function " ++ helper.name ++ "(" ++ params ++ ") \x7b") := by
  cases helper with
  | membership => exact ⟨"val, obj", by decide⟩
  | iterable => exact ⟨"object", by decide⟩
  | range => exact ⟨"start, end = 0, step = 1", by decide⟩
  | deepEquals => exact ⟨"a, b", by decide⟩

namespace Program

/-- The names of the variables that are declared by `let` or `const` and of the classes at the top of a program. -/
def lexicalNames (program : Program) : List String := (program.filterMap Stmt.lexicalName?).map Ident.text

/-- The helpers in front of the script of a program. -/
def helpers (program : Program) : List Helper := Helper.all.filter (blockNeeds (body program)).contains

theorem exists_mem_names {program : Program} {text : String} (h : text ∈ lexicalNames program) :
    ∃ name ∈ names program, name.text = text := by
  obtain ⟨name, hname, htext⟩ := List.mem_map.1 h
  obtain ⟨s, hs, hlexical⟩ := List.mem_filterMap.1 hname
  have hstatement : s ∈ statements program := mem_statements.2 ⟨s, hs, Branching.mem_nodes_self s⟩
  have hmem : name ∈ (statements program).flatMap Stmt.names :=
    List.mem_flatMap.2 ⟨s, hstatement, Stmt.mem_names_of_lexicalName? hlexical⟩
  exact ⟨name, List.mem_append_left _ hmem, htext⟩

theorem eq_range_of_mem_lexicalNames {source : String} {helper : Helper}
    (h : helper.name ∈ lexicalNames (ofSource source)) : helper = .range := by
  obtain ⟨name, hname, htext⟩ := exists_mem_names h
  have hplain : isFresh helper.name = false := htext ▸ isFresh_of_isWord (isWord_of_mem_names hname)
  cases helper with
  | range => rfl
  | _ =>
    rw [isFresh_of_mem_helpers _ (by simp [Helper.name])] at hplain
    cases hplain

theorem mem_helpers_iff {source js : String} (h : compile source = .ok js) {helper : Helper} :
    helper ∈ helpers (ofSource source) ↔ Uses (body (ofSource source)) helper := by
  have hstops : ∀ e ∈ expressions (body (ofSource source)), e.stopsSlice = true := by
    intro e he
    obtain ⟨s, hs, hinside⟩ := mem_expressions.1 he
    have hmem : e ∈ expressions (ofSource source) :=
      mem_expressions.2 ⟨s, (body_sublist (ofSource source)).subset hs, hinside⟩
    exact (derives_of_compile h e hmem).stopsSlice
  have hall : helper ∈ Helper.all := by cases helper <;> decide
  rw [helpers, List.mem_filter, and_iff_right hall]
  exact contains_blockNeeds_iff hstops

/-- A helper in front of a script has the name of a variable or of a class that the program declares at its top if and
only if this name is `range` and the program calls the bare name somewhere, in whatever scope. -/
theorem helper_redeclares_iff {source js : String} (h : compile source = .ok js) :
    js = (if (splitDirective (ofSource source)).1 = some .unstrict then "" else pragma) ++
      String.join ((helpers (ofSource source)).map Helper.text) ++ Script.blockText 0 (lowered (ofSource source)) ∧
    (∀ helper : Helper, ∃ params,
      helper.lines.head? = some ("function " ++ helper.name ++ "(" ++ params ++ ") \x7b")) ∧
    ((∃ helper ∈ helpers (ofSource source), helper.name ∈ lexicalNames (ofSource source)) ↔
      "range" ∈ lexicalNames (ofSource source) ∧
        ∃ line arguments, Expr.call (.variable ⟨"range", line⟩) arguments ∈ expressions (body (ofSource source))) := by
  refine ⟨(compile_eq_ok_iff.1 h).2.2, Helper.exists_head?_lines, ?_⟩
  constructor
  · rintro ⟨helper, hhelper, hname⟩
    obtain rfl := eq_range_of_mem_lexicalNames hname
    exact ⟨hname, (mem_helpers_iff h).1 hhelper⟩
  · rintro ⟨hname, hcall⟩
    exact ⟨.range, (mem_helpers_iff h).2 hcall, hname⟩

/-- The class is declared at the top and the call stands in a lambda. -/
theorem helper_redeclares_iff_class : ∃ js : String,
    compile "class range:\nlambda: range();\n" = .ok js ∧
      ∃ helper ∈ helpers (ofSource "class range:\nlambda: range();\n"),
        helper.name ∈ lexicalNames (ofSource "class range:\nlambda: range();\n") := by
  obtain ⟨js, hjs⟩ : ∃ js, (compile "class range:\nlambda: range();\n").toOption = some js :=
    Option.isSome_iff_exists.1 (by decide +kernel)
  have h := compile_eq_ok_of_toOption hjs
  have hrange : Helper.range ∈ helpers (ofSource "class range:\nlambda: range();\n") := by
    decide +kernel
  exact ⟨js, h, (helper_redeclares_iff h).2.2.2 ⟨by decide +kernel, (mem_helpers_iff h).1 hrange⟩⟩

/-- A variable that hides `range` from the call of it, declared beside the helper. -/
theorem exists_helper_redeclared :
    compile "let range = 1;\nx = range(3);\n" =
        .ok (pragma ++ Helper.range.text ++ "let range = 1;\nx = range(3);\n") ∧
      Helper.range ∈ helpers (ofSource "let range = 1;\nx = range(3);\n") ∧
      Helper.range.name ∈ lexicalNames (ofSource "let range = 1;\nx = range(3);\n") := by
  refine ⟨?_, by decide +kernel, by decide +kernel⟩
  apply compile_eq_ok_of_toOption
  decide +kernel

end Program

end Offside
