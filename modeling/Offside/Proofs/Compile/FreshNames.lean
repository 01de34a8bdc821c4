import Offside.Proofs.Compile.Outcome
import Offside.Proofs.Grammar.Origins
import Offside.Proofs.Token.Words
import Offside.Proofs.Tree.Lowering

/-!
# Fresh names

A script uses names of its own, for the index and the sequence of a loop and for what a `try` with an `else` notes, and
they hold a dollar sign.  The names of a program are words, so they are none of these.  The fresh names of a script are
told apart by their numbers: the loops and the `try` statements with an `else` are numbered in the order of the
program, outer before inner.
-/

namespace Offside

open Branching (nodes parts mem_nodes forall_nodes)
open Script (Helper indexName sequenceName flagName thrownName)

/-! ## The names of a program -/

/-- All names that stand in a program. -/
def Program.names (program : List Stmt) : List Ident :=
  (statements program).flatMap Stmt.names ++ (expressions program).flatMap Expr.names

theorem isWord_of_memberNamed {source : String} {name : Ident}
    (h : Grammar.MemberNamed (Grammar.untilEof (Token.Scan.ofSource source).tokens) name) : Token.IsWord name.text := by
  obtain ⟨token, htoken, hname, -⟩ := h
  have hworded := Token.Scan.worded_of_mem_tokens ((List.takeWhile_prefix _).subset htoken)
  cases hname with
  | inl hident => rwa [hident] at hworded
  | inr hkeyword =>
    obtain ⟨hword, hlexeme⟩ := hkeyword
    rw [hlexeme] at hworded
    cases hkind : token.kind with
    | keyword word => rwa [hkind] at hworded
    | _ => simp [hkind, Token.Kind.isKeyword] at hword

theorem Program.isWord_of_mem_names {source : String} {name : Ident} (h : name ∈ names (ofSource source)) :
    Token.IsWord name.text := by
  have hderives := Grammar.stmtDerives_ofTokens (Token.Scan.ofSource source).tokens
  apply isWord_of_memberNamed
  cases List.mem_append.1 h with
  | inl hstatement =>
    obtain ⟨s, hs, hname⟩ := List.mem_flatMap.1 hstatement
    exact ((Grammar.stmtDerives_of_mem_statements hderives hs).of_mem_names hname).memberNamed
  | inr hexpression =>
    obtain ⟨e, he, hname⟩ := List.mem_flatMap.1 hexpression
    exact ((Grammar.derives_of_mem_expressions hderives he).of_mem_names hname).elim (·.memberNamed) And.right

/-! ## Names with a dollar sign -/

/-- The names that no program can have. -/
def isFresh (name : String) : Bool := name.toList.contains '$'

theorem isFresh_of_isWord {name : String} (h : Token.IsWord name) : isFresh name = false := by
  have hdollar : '$' ∉ name.toList := by
    intro hmem
    have hclass := h.mem '$' hmem
    revert hclass
    decide
  simpa [isFresh] using hdollar

theorem isFresh_of_prefix {front name : String} (h : isFresh front = true) : isFresh (front ++ name) = true := by
  simp only [isFresh, String.toList_append, List.contains_eq_mem, decide_eq_true_eq, List.mem_append] at h ⊢
  exact Or.inl h

@[simp]
theorem isFresh_indexName (label : Nat) : isFresh (indexName label) = true := isFresh_of_prefix (by decide)

@[simp]
theorem isFresh_sequenceName (label : Nat) : isFresh (sequenceName label) = true := isFresh_of_prefix (by decide)

@[simp]
theorem isFresh_flagName (label : Nat) : isFresh (flagName label) = true := isFresh_of_prefix (by decide)

@[simp]
theorem isFresh_thrownName (label : Nat) : isFresh (thrownName label) = true := isFresh_of_prefix (by decide)

theorem isFresh_of_mem {number : Nat} {name : String}
    (h : name ∈ [indexName number, sequenceName number, flagName number, thrownName number]) : isFresh name = true := by
  simp only [List.mem_cons, List.not_mem_nil, or_false] at h
  rcases h with rfl | rfl | rfl | rfl <;> simp

theorem isFresh_of_mem_helpers : ∀ name ∈ ["$_in", "$_createIterable", "$_deepEquals"], isFresh name = true := by
  decide

/-! ## The fresh names of a script -/

namespace Script

def Param.name {ε : Type} : Param ε → String
  | .plain name | .optional name _ | .rest name => name

/-- The names that a statement of a script declares by itself. -/
def Stmt.binds : Stmt → List String
  | .function decl => decl.name :: decl.params.map Param.name
  | .classDecl name _ methods => name :: methods.flatMap fun decl => decl.name :: decl.params.map Param.name
  | .forIndex index sequence _ _ => [index, sequence]
  | .tryBlock _ handler _ => handler.toList.flatMap fun caught => caught.param.toList
  | .declare _ name _ => [name]
  | _ => []

/-- The fresh names that the statements of a script declare, in order. -/
def freshNames (body : List Stmt) : List String := ((statements body).flatMap Stmt.binds).filter isFresh

@[simp]
theorem freshNames_nil : freshNames [] = [] := rfl

theorem freshNames_append (front back : List Stmt) :
    freshNames (front ++ back) = freshNames front ++ freshNames back := by
  simp [freshNames, statements]

theorem freshNames_cons (s : Stmt) (rest : List Stmt) :
    freshNames (s :: rest) = s.binds.filter isFresh ++ freshNames s.parts ++ freshNames rest := by
  have hnodes : nodes s = s :: s.parts.flatMap nodes := Branching.nodes_eq s
  simp [freshNames, statements, hnodes]

end Script

/-! ## Numbered statements -/

namespace Stmt

/-- The fresh names of a statement with a number: the index and the sequence of a loop; the flag of a `try` with an
`else`, and what was thrown if the program does not handle it. -/
def freshNames (number : Nat) : Stmt → List String
  | .forLoop .. => [indexName number, sequenceName number]
  | .tryBlock _ (some _) (some _) _ => [flagName number]
  | .tryBlock _ none (some _) _ => [flagName number, thrownName number]
  | _ => []

theorem freshNames_of_not_isNumbered {s : Stmt} (h : s.isNumbered = false) {number : Nat} :
    s.freshNames number = [] := by
  unfold freshNames
  split <;> simp_all [isNumbered]

end Stmt

/-- The numbered statements of a program, outer before inner. -/
def Program.numbered (program : List Stmt) : List Stmt := (statements program).filter Stmt.isNumbered

open Program (numbered)

theorem numbered_nil : numbered [] = [] := rfl

theorem numbered_append (front back : List Stmt) : numbered (front ++ back) = numbered front ++ numbered back := by
  simp [numbered, Program.statements]

theorem numbered_cons (s : Stmt) (rest : List Stmt) :
    numbered (s :: rest) = (if s.isNumbered then [s] else []) ++ numbered s.parts ++ numbered rest := by
  have hnodes : nodes s = s :: s.parts.flatMap nodes := Branching.nodes_eq s
  cases hs : s.isNumbered <;> simp [numbered, Program.statements, hnodes, hs]

theorem labels_step (s : Stmt) : s.labels = s.isNumbered.toNat + blockLabels s.parts := by
  cases s with
  | tryBlock body handler otherwise finalizer =>
    cases otherwise <;>
      simp [Stmt.labels, Stmt.isNumbered, Stmt.parts, blockLabels, blockLabels_append, handlerLabels_eq,
        optionLabels_eq, Nat.add_assoc]
  | _ =>
    simp [Stmt.labels, Stmt.isNumbered, Stmt.parts, blockLabels, blockLabels_append, functionLabels_eq,
      methodsLabels_eq, casesLabels_eq, optionLabels_eq, Nat.add_assoc]

/-- As many fresh numbers are used up as there are numbered statements. -/
theorem blockLabels_eq_length (body : List Stmt) : blockLabels body = (numbered body).length := by
  induction body using Program.body_induction with
  | nil => rfl
  | cons s rest hparts hrest =>
    rw [blockLabels, labels_step, hparts, hrest, numbered_cons]
    cases s.isNumbered <;> simp [Nat.add_comm, Nat.add_left_comm]

/-- The fresh names of statements that are numbered from `number` on. -/
def numberedNames (number : Nat) (ss : List Stmt) : List String :=
  (ss.zipIdx number).flatMap fun (s, n) => s.freshNames n

theorem numberedNames_cons (number : Nat) (s : Stmt) (ss : List Stmt) :
    numberedNames number (s :: ss) = s.freshNames number ++ numberedNames (number + 1) ss := by
  simp [numberedNames]

theorem numberedNames_append (number : Nat) (front back : List Stmt) : numberedNames number (front ++ back) =
      numberedNames number front ++ numberedNames (number + front.length) back := by
  simp [numberedNames, List.zipIdx_append]

theorem freshNames_prologueStatements (params : List (Param Expr)) :
    Script.freshNames (prologueStatements params) = [] := by
  rw [prologueStatements_eq_map]
  induction prologue params with
  | nil => rfl
  | cons assignment rest ih =>
    rw [List.map_cons, Script.freshNames_cons, ih]
    rfl

theorem name_lowerParams (params : List (Param Expr)) :
    (lowerParams params).map Script.Param.name = params.map fun p => p.name.text := by
  induction params with
  | nil => rfl
  | cons p params ih =>
    obtain ⟨name, kind, default, cast⟩ := p
    rw [lowerParams, List.map_cons, ih]
    cases kind <;> cases default <;> simp [lowerParam, lower?, Script.Param.name]

/-- A function declares its name and its parameters. -/
theorem binds_lowerFunction (number : Nat) (decl : Function Stmt) :
    (lowerFunction number decl).name :: (lowerFunction number decl).params.map Script.Param.name =
      decl.name.text :: decl.params.map fun p => p.name.text := by
  obtain ⟨name, params, body, isAsync, isGenerator⟩ := decl
  rw [lowerFunction, name_lowerParams]

section
variable {P : String → Prop} (number : Nat)

theorem forall_binds_lowerFunction {decl : Function Stmt} (h : ∀ name ∈ decl.names, P name.text) :
    ∀ word ∈ (lowerFunction number decl).name :: (lowerFunction number decl).params.map Script.Param.name, P word := by
  obtain ⟨hname, hparams⟩ := List.forall_mem_cons.1 h
  rw [binds_lowerFunction, List.forall_mem_cons, List.forall_mem_map]
  exact ⟨hname, fun p hp => hparams p.name (List.mem_flatMap.2 ⟨p, hp, List.mem_cons_self⟩)⟩

theorem forall_binds_lowerMethods {methods : List (Function Stmt)}
    (h : ∀ decl ∈ methods, ∀ name ∈ decl.names, P name.text) :
    ∀ word ∈ (lowerMethods number methods).flatMap fun decl => decl.name :: decl.params.map Script.Param.name,
      P word := by
  induction methods generalizing number with
  | nil => exact List.forall_mem_nil _
  | cons decl methods ih =>
    obtain ⟨hdecl, hothers⟩ := List.forall_mem_cons.1 h
    rw [lowerMethods, List.flatMap_cons, List.forall_mem_append]
    exact ⟨forall_binds_lowerFunction number hdecl, ih _ hothers⟩

theorem forall_param_lowerHandler {handler : Option (Handler Stmt)}
    (h : ∀ name ∈ handler.toList.flatMap fun caught => caught.param.toList, P name.text) :
    ∀ word ∈ (lowerHandler number handler).toList.flatMap fun caught => caught.param.toList, P word := by
  cases handler with
  | none => exact List.forall_mem_nil _
  | some caught =>
    obtain ⟨param, body⟩ := caught
    cases param <;> simp_all [lowerHandler]

end

theorem filter_isFresh {words : List String} (h : ∀ word ∈ words, isFresh word = false) : words.filter isFresh = [] :=
  List.filter_eq_nil_iff.2 fun word hword => by simp [h word hword]

theorem freshNames_lowerMethods (number : Nat) (methods : List (Function Stmt)) :
    Script.freshNames ((lowerMethods number methods).flatMap Script.Function.body) =
      Script.freshNames (lowerBlock number (methods.flatMap Function.body)) := by
  induction methods generalizing number with
  | nil => rfl
  | cons decl methods ih =>
    rw [lowerMethods, List.flatMap_cons, List.flatMap_cons, lowerBlock_append, Script.freshNames_append,
      Script.freshNames_append, ih, body_lowerFunction, Script.freshNames_append, freshNames_prologueStatements,
      List.nil_append, functionLabels_eq]

/-- The handler of a `try` with an `else` notes that something was thrown in front of what the program does. -/
theorem freshNames_notingHandler (number : Nat) (handler : Option (Script.Handler Script.Stmt)) :
    Script.freshNames (Script.notingHandler number handler).body =
      Script.freshNames (handler.toList.flatMap Script.Handler.body) := by
  cases handler with
  | none | some caught =>
    simp [Script.notingHandler, Script.notingHandler.noted, Script.freshNames_cons, Script.Stmt.binds,
      Script.Stmt.parts]

theorem freshNames_tryElse (number : Nat) (body : List Script.Stmt) (handler : Option (Script.Handler Script.Stmt))
    (otherwise : List Script.Stmt) (finalizer : Option (List Script.Stmt)) :
    Script.freshNames [Script.tryElse number body handler otherwise finalizer] =
      flagName number :: ((Script.notingHandler number handler).param.toList.filter isFresh ++
        Script.freshNames (body ++ handler.toList.flatMap Script.Handler.body ++ otherwise ++ finalizer.getD [])) := by
  cases finalizer <;>
    simp [Script.tryElse, Script.freshNames_cons, Script.freshNames_append, Script.Stmt.binds, Script.Stmt.parts,
      freshNames_notingHandler, List.append_assoc]

theorem freshNames_plainTry (body : List Script.Stmt) (handler : Option (Script.Handler Script.Stmt))
    (finalizer : Option (List Script.Stmt)) : Script.freshNames [Script.plainTry body handler finalizer] =
      (handler.toList.flatMap fun caught => caught.param.toList).filter isFresh ++
        Script.freshNames (body ++ handler.toList.flatMap Script.Handler.body ++ finalizer.getD []) := by
  cases handler <;> cases finalizer <;>
    simp [Script.plainTry, Script.freshNames_cons, Script.Stmt.binds, Script.Stmt.parts]

/-- One step of the numbering: a statement has its own fresh names in front of those of its parts. -/
theorem freshNames_lower (s : Stmt) (number : Nat) (h : ∀ name ∈ s.names, isFresh name.text = false) :
    Script.freshNames [s.lower number] =
      s.freshNames number ++ Script.freshNames (lowerBlock (number + s.isNumbered.toNat) s.parts) := by
  cases s with
  | tryBlock body handler otherwise finalizer =>
    have hparam := filter_isFresh (forall_param_lowerHandler (number + otherwise.isSome.toNat + blockLabels body) h)
    cases otherwise with
    | none =>
      simp only [Stmt.lower, lowerOption]
      rw [freshNames_plainTry]
      simp_all [Stmt.freshNames, Stmt.isNumbered, Stmt.parts, lowerBlock_append, body_lowerHandler, getD_lowerOption,
        handlerLabels_eq, optionLabels_eq, blockLabels, Nat.add_assoc]
    | some content =>
      simp only [Stmt.lower, lowerOption]
      rw [freshNames_tryElse]
      cases handler with
      | none =>
        simp [Stmt.freshNames, Stmt.isNumbered, Stmt.parts, lowerHandler, Script.notingHandler, lowerBlock_append,
          getD_lowerOption, handlerLabels, optionLabels, Nat.add_assoc]
      | some caught =>
        obtain ⟨param, inside⟩ := caught
        simp only [lowerHandler, Option.toList_some, List.flatMap_cons, List.flatMap_nil,
          List.append_nil] at hparam
        simp [Stmt.freshNames, Stmt.isNumbered, Stmt.parts, lowerHandler, Script.notingHandler, hparam,
          lowerBlock_append, getD_lowerOption, handlerLabels, optionLabels, Nat.add_assoc]
  | forLoop name iterable body =>
    rw [Script.freshNames_cons]
    simp_all [Stmt.lower, Stmt.freshNames, Stmt.parts, Stmt.isNumbered, Script.forEach, Script.Stmt.binds,
      Script.Stmt.parts, Stmt.names, Script.freshNames_cons]
  | function decl =>
    have hbinds := filter_isFresh (forall_binds_lowerFunction number h)
    rw [Script.freshNames_cons]
    simp only [Stmt.lower, Script.Stmt.binds, Script.Stmt.parts]
    rw [hbinds, body_lowerFunction, Script.freshNames_append, freshNames_prologueStatements]
    simp [Stmt.freshNames, Stmt.isNumbered, Stmt.parts]
  | classDecl name superclass methods =>
    simp only [Stmt.names, List.forall_mem_cons, List.forall_mem_flatMap] at h
    have hbinds := filter_isFresh (forall_binds_lowerMethods number h.2)
    rw [Script.freshNames_cons]
    simp only [Stmt.lower, Script.Stmt.binds, Script.Stmt.parts]
    rw [List.filter_cons_of_neg (by simp [h.1]), hbinds, freshNames_lowerMethods]
    simp [Stmt.freshNames, Stmt.isNumbered, Stmt.parts]
  | _ =>
    rw [Script.freshNames_cons]
    simp_all [Stmt.lower, Stmt.freshNames, Stmt.parts, Stmt.isNumbered, Script.Stmt.binds, Script.Stmt.parts, Stmt.names,
      lowerBlock, lowerBlock_append, bodies_lowerCases, getD_lowerOption, casesLabels_eq, Nat.add_assoc]

/-- The numbered statements of a program get the numbers from `number` on, in their order. -/
theorem freshNames_lowerBlock (body : List Stmt)
    (h : ∀ s ∈ Program.statements body, ∀ name ∈ s.names, isFresh name.text = false) (number : Nat) :
    Script.freshNames (lowerBlock number body) = numberedNames number (numbered body) := by
  induction body using Program.body_induction generalizing number with
  | nil => rfl
  | cons s rest hparts hrest =>
    rw [Program.statements_cons, List.forall_mem_cons, List.forall_mem_append] at h
    obtain ⟨hown, hinside, hbehind⟩ := h
    rw [lowerBlock, ← List.singleton_append, Script.freshNames_append, freshNames_lower s number hown,
      hparts hinside, hrest hbehind, labels_step, blockLabels_eq_length, numbered_cons, numberedNames_append]
    cases hs : s.isNumbered with
    | true => simp [numberedNames_cons, Nat.add_comm 1]
    | false => simp [Stmt.freshNames_of_not_isNumbered hs]

/-! ## Distinct numbers -/

/-- The number in a fresh name. -/
def numberIn (name : String) : Nat := Nat.ofDigitChars 10 (name.toList.filter Char.isDigit) 0

theorem numberIn_append {front : String} (h : front.toList.filter Char.isDigit = []) (number : Nat) :
    numberIn (front ++ toString number) = number := by
  have hdigits : (Nat.toDigits 10 number).filter Char.isDigit = Nat.toDigits 10 number :=
    List.filter_eq_self.2 fun c hc => Nat.isDigit_of_mem_toDigits (by decide) (by decide) hc
  simp [numberIn, h, hdigits]

theorem numberIn_of_mem_freshNames {s : Stmt} {number : Nat} {name : String} (h : name ∈ s.freshNames number) :
    numberIn name = number := by
  unfold Stmt.freshNames at h
  split at h
  · simp only [List.mem_cons, List.not_mem_nil, or_false] at h
    rcases h with rfl | rfl <;> exact numberIn_append (by decide) number
  · rw [List.mem_singleton.1 h]
    exact numberIn_append (by decide) number
  · simp only [List.mem_cons, List.not_mem_nil, or_false] at h
    rcases h with rfl | rfl <;> exact numberIn_append (by decide) number
  · cases h

theorem nodup_freshNames (s : Stmt) (number : Nat) : (s.freshNames number).Nodup := by
  unfold Stmt.freshNames
  split
  · simp [indexName, sequenceName, ← String.toList_inj]
  · simp
  · simp [flagName, thrownName, ← String.toList_inj]
  · simp

theorem le_numberIn {number : Nat} {ss : List Stmt} {name : String} (h : name ∈ numberedNames number ss) :
    number ≤ numberIn name := by
  obtain ⟨⟨s, n⟩, hs, hname⟩ := List.mem_flatMap.1 h
  rw [numberIn_of_mem_freshNames hname]
  exact List.le_snd_of_mem_zipIdx hs

theorem nodup_numberedNames (number : Nat) (ss : List Stmt) : (numberedNames number ss).Nodup := by
  induction ss generalizing number with
  | nil => exact List.nodup_nil
  | cons s ss ih =>
    rw [numberedNames_cons, List.nodup_append]
    refine ⟨nodup_freshNames s number, ih (number + 1), ?_⟩
    intro name hname other hother heq
    have hnumber := numberIn_of_mem_freshNames hname
    have hlater := le_numberIn hother
    rw [← heq, hnumber] at hlater
    omega

/-! ## Sources that compile -/

namespace Program

theorem numbered_body (program : Program) : numbered (body program) = numbered program := by
  cases eq_body_or_literal program with
  | inl hbody => rw [hbody]
  | inr hdirective =>
    obtain ⟨value, hprogram⟩ := hdirective
    generalize body program = rest at hprogram ⊢
    simp [hprogram, numbered_cons, Stmt.isNumbered, Stmt.parts, numbered_nil]

theorem mem_names_of_mem_body {program : Program} {s : Stmt} {name : Ident} (hs : s ∈ statements (body program))
    (hname : name ∈ s.names) : name ∈ names program := by
  obtain ⟨outer, houter, hnode⟩ := mem_statements.1 hs
  have hprogram : s ∈ statements program := mem_statements.2 ⟨outer, (body_sublist program).subset houter, hnode⟩
  exact List.mem_append_left _ (List.mem_flatMap.2 ⟨s, hprogram, hname⟩)

/-- The names of a program that compiles are words, so none of them is a fresh name or the name of a helper with a
dollar sign.  The loops and the `try` statements with an `else` have the numbers from zero on in the order of the
program, and the fresh names that the script declares are those of these statements, each declared once. -/
theorem names_of_compile {source js : String} (h : compile source = .ok js) :
    (∀ name ∈ names (ofSource source), Token.IsWord name.text ∧
      (∀ number, name.text ∉ [indexName number, sequenceName number, flagName number, thrownName number]) ∧
      name.text ∉ ["$_in", "$_createIterable", "$_deepEquals"]) ∧
    js = preamble (ofSource source) ++ Script.blockText 0 (lowered (ofSource source)) ∧
    Script.freshNames (lowered (ofSource source)) =
      (numbered (ofSource source)).zipIdx.flatMap (fun (s, number) => s.freshNames number) ∧
    (Script.freshNames (lowered (ofSource source))).Nodup := by
  have hplain : ∀ name ∈ names (ofSource source), isFresh name.text = false :=
    fun name hname => isFresh_of_isWord (isWord_of_mem_names hname)
  have hfresh : Script.freshNames (lowered (ofSource source)) = numberedNames 0 (numbered (ofSource source)) := by
    rw [lowered, freshNames_lowerBlock, numbered_body]
    intro s hs name hname
    exact hplain name (mem_names_of_mem_body hs hname)
  refine ⟨fun name hname => ⟨isWord_of_mem_names hname, fun number hmem => ?_, fun hmem => ?_⟩,
    (compile_eq_ok_iff.1 h).2.2, hfresh, ?_⟩
  · simpa [hplain name hname] using isFresh_of_mem hmem
  · simpa [hplain name hname] using isFresh_of_mem_helpers name.text hmem
  · rw [hfresh]
    exact nodup_numberedNames 0 _

/-- A loop around a `try` whose `else` loops, and a loop behind it. -/
theorem names_of_compile_nested : ∃ source js : String,
    source = "for x in y:\n    try: f(x);\n    else: for z in x: g(z);\nfor x in y: h(x);\n" ∧
      compile source = .ok js ∧ (∀ name ∈ names (ofSource source), Token.IsWord name.text) ∧
      Script.freshNames (lowered (ofSource source)) =
        ["$_i0", "$_seq0", "$_ok1", "$_e1", "$_i2", "$_seq2", "$_i3", "$_seq3"] ∧
      (Script.freshNames (lowered (ofSource source))).Nodup := by
  obtain ⟨js, hjs⟩ : ∃ js,
      (compile "for x in y:\n    try: f(x);\n    else: for z in x: g(z);\nfor x in y: h(x);\n").toOption = some js :=
    Option.isSome_iff_exists.1 (by decide +kernel)
  have h := compile_eq_ok_of_toOption hjs
  obtain ⟨hnames, -, hfresh, hnodup⟩ := names_of_compile h
  exact ⟨_, js, rfl, h, fun name hname => (hnames name hname).1, hfresh.trans (by decide +kernel), hnodup⟩

end Program

end Offside
