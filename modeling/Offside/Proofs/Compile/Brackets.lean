import Offside.Proofs.Script.Generator

/-!
# Brackets of a compiled program

A program gives its script names, the texts of its literals and raw code; all other words of the script are fixed or
numbered, and what they are put together with has brackets that pair up.  So the script is nested if what the program
gives it is, and it is if the program has no brackets in its names and literals and no raw code.
-/

namespace Offside

open Branching (nodes forall_nodes)
open Script (Helper Needs)
open Text (Nested Texture isBracket)
open Text.Nested (run run_nil run_cons run_append step)

/-- The words that stand in a literal. -/
def Literal.words : Literal → List String
  | .string value => [value]
  | .regex pattern flags => [pattern, flags]
  | _ => []

namespace Script

/-! ## Literals -/

theorem isBracket_hexDigit : ∀ n < 16, isBracket (Text.Quoted.hexDigit n) = false := by decide

theorem filter_escape (c : Char) : (Text.Quoted.escape c).filter isBracket = [c].filter isBracket := by
  fun_cases Text.Quoted.escape c with
  | case8 hcontrol =>
    have hc : isBracket c = false := Text.isBracket_of (p := fun c => decide (c.toNat < 32)) (by decide) (by simpa)
    have hhigh := isBracket_hexDigit (c.toNat / 16) (by omega)
    have hlow := isBracket_hexDigit (c.toNat % 16) (by omega)
    simp only [List.filter_cons, List.filter_nil, hhigh, hlow, hc, Bool.false_eq_true, if_false]
    rfl
  | case9 => rfl
  | _ => rfl

theorem nested_encode {value : String} (h : Nested value.toList) : Nested (Text.Quoted.encode value).toList := by
  have hfilter : (Text.Quoted.encode value).toList.filter isBracket = value.toList.filter isBracket := by
    have hescape : value.toList.flatMap (fun c => (Text.Quoted.escape c).filter isBracket) =
        value.toList.filter isBracket := by
      simp only [filter_escape, ← List.filter_flatMap, List.flatMap_singleton']
    simp [Text.Quoted.encode, List.filter_flatMap, hescape, Text.isBracket, Text.closer?, Text.isCloser]
  exact (Nested.congr_filter hfilter).2 h

theorem filter_regexText (text : List Char) (escaped : Bool) :
    (regexText escaped text).filter isBracket = text.filter isBracket := by
  induction text generalizing escaped with
  | nil => rfl
  | cons c text ih =>
    have hwritten : (if c = '/' && !escaped then ['\\', '/'] else if c = '\n' then ['\\', 'n']
        else if c = '\r' then ['\\', 'r'] else [c]).filter isBracket = [c].filter isBracket := by
      split
      · simp_all; rfl
      · split
        · simp_all; rfl
        · split
          · simp_all; rfl
          · rfl
    rw [regexText, List.filter_append, ih, hwritten, ← List.filter_append, List.singleton_append]

theorem nested_literalText {value : Literal} (h : ∀ text ∈ value.words, Nested text.toList) :
    Nested (literalText value).toList := by
  cases value with
  | number x => exact (isPlain_numberText x).1
  | string value => exact nested_encode (h value List.mem_cons_self)
  | boolean b => cases b <;> decide
  | null => decide
  | undefined => decide
  | regex pattern flags =>
    have hpattern : Nested (regexText false pattern.toList) :=
      (Nested.congr_filter (filter_regexText _ _)).2 (h pattern (by simp [Literal.words]))
    have hflags : Nested flags.toList := h flags (by simp [Literal.words])
    apply Nested.of_run_eq
    intro awaited
    simp [literalText, run_append, run_cons, step, Text.closer?, Text.isCloser, hpattern.run_eq, hflags.run_eq]

end Script

/-! ## Lines -/

namespace Line

theorem run_line (depth : Nat) (text : String) (awaited : List Char) :
    run awaited (Script.line depth text).toList = run awaited text.toList := by
  have hspaces : Nested (List.replicate (4 * depth) ' ') :=
    Nested.of_forall (by simp [Text.isBracket, Text.closer?, Text.isCloser])
  have hend (next : List Char) : run next "\n".toList = some next := rfl
  simp only [Script.line, String.toList_append, String.toList_ofList, run_append, hspaces.run_eq, hend, Option.bind_some,
    Option.bind_fun_some]

/-- A brace that closes a block behind a text is still to come behind the text alone. -/
theorem run_of_closed {awaited next text : List Char} (h : run awaited (text ++ ['}']) = some next) :
    run awaited text = some ('}' :: next) := by
  rw [run_append] at h
  obtain ⟨middle, hmiddle, hclose⟩ := Option.bind_eq_some_iff.1 h
  rw [hmiddle]
  cases middle with
  | nil => cases hclose
  | cons c rest =>
    have hstep : step (c :: rest) '}' = if c = '}' then some rest else none := by simp [step, Text.closer?, Text.isCloser]
    rw [run_cons, hstep] at hclose
    split at hclose
    · rename_i hc
      cases hclose
      rw [hc]
    · cases hclose

theorem run_of_opened {awaited text : List Char} {next : Option (List Char)} (h : run awaited ('{' :: text) = next) :
    run ('}' :: awaited) text = next := h

/-- What is open in front of some lines and behind them are the braces of the blocks around. -/
theorem Laid.run_join {a b : Nat} {lines : List Line} (h : Laid .nested a lines b)
    (hraw : lines.filterMap rawCode? = []) (depth : Nat) :
    run (List.replicate a '}') (join depth lines).toList = some (List.replicate b '}') := by
  have hcons (line : Line) (lines : List Line) (awaited : List Char) : run awaited (join depth (line :: lines)).toList =
      (run awaited (line.text depth).toList).bind fun next => run next (join depth lines).toList := by
    rw [join, List.map_cons, String.join_cons, String.toList_append, run_append]
    rfl
  induction h with
  | nil => rfl
  | plain htext _ ih => rw [hcons, text, run_line, htext.run_eq, Option.bind_some, ih hraw]
  | raw _ _ => simp [rawCode?] at hraw
  | enter htext _ ih =>
    rw [hcons, text, run_line, run_of_closed (by simpa using htext.run_eq _), Option.bind_some]
    exact ih hraw
  | @reopen a _ _ _ htext _ ih =>
    have hbraces := run_of_opened (by simpa using htext.run_eq (List.replicate a '}'))
    rw [hcons, text, run_line, List.replicate_succ, run_of_closed hbraces, Option.bind_some]
    exact ih hraw
  | @close a _ _ _ htext _ ih =>
    have hbraces := run_of_opened (by simpa using htext.run_eq (List.replicate a '}'))
    rw [hcons, text, run_line, List.replicate_succ, hbraces, Option.bind_some]
    exact ih hraw

end Line

/-! ## Programs -/

namespace Script

theorem run_join (texts : List String) (awaited : List Char) :
    run awaited (String.join texts).toList = texts.foldlM (fun awaited text => run awaited text.toList) awaited := by
  rw [String.toList_join]
  induction texts generalizing awaited with
  | nil => rfl
  | cons text texts ih =>
    rw [List.flatMap_cons, run_append, List.foldlM_cons]
    congr 1
    funext next
    exact ih next

theorem nested_join {texts : List String} (h : ∀ text ∈ texts, Nested text.toList) :
    Nested (String.join texts).toList := by
  rw [Nested.iff_run, run_join]
  induction texts with
  | nil => rfl
  | cons text texts ih =>
    obtain ⟨htext, hrest⟩ := List.forall_mem_cons.1 h
    rw [List.foldlM_cons, htext.run_eq]
    exact ih hrest

/-- The lines of a helper pair up, though not each line by itself. -/
theorem nested_helper (helper : Helper) : Nested helper.text.toList := by
  have hlines : helper.lines.foldlM (fun awaited text => run awaited text.toList) [] = some [] := by
    -- The characters of a literal are found by rewriting, which is much cheaper than evaluating `String.toList`.
    cases helper <;> simp only [Helper.lines, List.foldlM_cons, List.foldlM_nil] <;>
      repeat rewrite [String.toList_ofList]
    all_goals decide +kernel
  have hend (awaited : List Char) (text : String) : run awaited (text ++ "\n").toList = run awaited text.toList := by
    rw [String.toList_append, run_append]
    exact Option.bind_fun_some _
  rw [Nested.iff_run, Helper.text, run_join, List.foldlM_map]
  simpa only [hend] using hlines

theorem nested_needs (needs : Needs) : Nested needs.text.toList := by
  apply nested_join
  rw [List.forall_mem_map]
  exact fun helper _ => nested_helper helper

end Script

/-- Code that is passed on as it is. -/
def Stmt.isRaw : Stmt → Bool
  | .raw _ => true
  | _ => false

theorem rawCodes_eq_nil {body : List Stmt} (h : ∀ s ∈ Program.statements body, s.isRaw = false) :
    Output.rawCodes body = [] := by
  rw [Output.rawCodes, List.filterMap_eq_nil_iff]
  intro s hs
  have hs := h s hs
  cases s <;> simp_all [Stmt.rawCode?, Stmt.isRaw]

namespace Program

/-- The script of a program is well nested as a whole, pragma and helpers included, if the program has no raw code and
no bracket of any kind in its names, its strings and the patterns and flags of its regular expressions. -/
theorem nested_script {program : Program} (hraw : ∀ s ∈ statements program, s.isRaw = false)
    (hnames : ∀ name ∈ names program, name.text.toList.all (!Text.isBracket ·))
    (hliterals : ∀ value ∈ literals program, ∀ text ∈ value.words, text.toList.all (!Text.isBracket ·)) :
    Nested (script program).toList := by
  have hwrites : Generator.WritesAll .nested (statements program) :=
    writes_statement (fun name hname => .of_forall (hnames name hname)) fun value hvalue =>
      Script.nested_literalText fun text htext => .of_forall (hliterals value hvalue text htext)
  have hbody : ∀ s ∈ statements (body program), s ∈ statements program := by
    intro s hs
    obtain ⟨outer, houter, hs⟩ := mem_statements.1 hs
    exact mem_statements.2 ⟨outer, (body_sublist program).subset houter, hs⟩
  have hall : Generator.WritesAll .nested (body program) := fun s hs =>
    hwrites s (hbody s (mem_statements.2 ⟨s, hs, Branching.mem_nodes_self s⟩))
  obtain ⟨lines, hlaid, hcodes, htext, -⟩ := hall.block 0
  have hnone : lines.filterMap Line.rawCode? = [] := hcodes.trans (rawCodes_eq_nil fun s hs => hraw s (hbody s hs))
  have hblock : Nested (Script.blockText 0 (lowerBlock 0 (body program))).toList := by
    have hjoin : Line.join 0 lines = Script.blockText 0 (lowerBlock 0 (body program)) := htext 0
    rw [Nested.iff_run, ← hjoin]
    exact hlaid.run_join hnone 0
  have hopening : Nested (if (splitDirective program).1 = some .unstrict then "" else pragma).toList := by
    split <;> decide
  rw [script, String.toList_append, String.toList_append]
  exact (hopening.append (Script.nested_needs _)).append hblock

/-- A class with a generator, whose parameters take what is left, and a `try` with an `else`. -/
theorem nested_script_class :
    let program :=
      ofSource "class A(B):\n    function *g(*r = [1]):\n        try: f(r\"/a/\");\n        else: h(\"s\");\n"
    (∀ s ∈ statements program, s.isRaw = false) ∧
      (names program).map Ident.text = ["A", "g", "r", "B", "f", "h"] ∧ Nested (script program).toList := by
  intro program
  have hgiven : (∀ s ∈ statements program, s.isRaw = false) ∧
      (∀ name ∈ names program, name.text.toList.all (!Text.isBracket ·)) ∧
      (∀ value ∈ literals program, ∀ text ∈ value.words, text.toList.all (!Text.isBracket ·)) ∧
      (names program).map Ident.text = ["A", "g", "r", "B", "f", "h"] := by
    decide +kernel
  obtain ⟨hraw, hnames, hliterals, htexts⟩ := hgiven
  exact ⟨hraw, htexts, nested_script hraw hnames hliterals⟩

end Program

end Offside
