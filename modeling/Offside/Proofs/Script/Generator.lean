import Offside.Proofs.Script.Texture

/-!
# Writing statements one after the other

A script can also be written in one pass: a generator keeps the lines that it has written, how many blocks are open,
which helpers are needed and how many fresh names there are, and each statement is a row of steps that change these.
A step that closes a block takes one from the depth, and the depth stays zero if no block is open, so a step too many
would not be noticed.  The generator counts such steps, and it never takes one: what it writes for a statement is the
text of the lowered statement, and only lines are added.
-/

namespace Offside

open Branching (nodes forall_nodes)
open Script (Needs expressionStatement valueStatement declarationText assignmentText catchHeader classHeader signature
  forHeader indexName sequenceName flagName thrownName asyncText starText parenIf callHelper)
open Text (IsPlain Texture)

/-! ## The generator -/

/-- A line of a script: code behind the spaces of some blocks, or raw code. -/
inductive Line
  | code (depth : Nat) (text : String)
  | raw (content : String)

namespace Line

/-- The text of a line if `depth` more blocks are around it. -/
def text (depth : Nat) : Line → String
  | .code inner text => Script.line (depth + inner) text
  | .raw content => Script.rawText content

/-- The line inside `depth` more blocks. -/
def deepen (depth : Nat) : Line → Line
  | .code inner text => .code (depth + inner) text
  | .raw content => .raw content

def rawCode? : Line → Option String
  | .code _ _ => none
  | .raw content => some content

/-- The text of some lines if `depth` more blocks are around them. -/
def join (depth : Nat) (lines : List Line) : String := String.join (lines.map (text depth))

end Line

/-- What is kept while statements are written. -/
structure Generator where
  lines : List Line
  depth : Nat
  /-- How often a block was closed when none was open. -/
  cuts : Nat
  needs : Needs
  /-- The number of the next fresh name. -/
  next : Nat

namespace Generator

def line (text : String) (g : Generator) : Generator := { g with lines := g.lines ++ [.code g.depth text] }

def raw (code : String) (g : Generator) : Generator := { g with lines := g.lines ++ [.raw code] }

/-- Writes a line that opens a block. -/
def enter (text : String) (g : Generator) : Generator := { g.line text with depth := g.depth + 1 }

/-- Goes out of a block, if one is open. -/
def out (g : Generator) : Generator :=
  { g with depth := g.depth - 1, cuts := g.cuts + if g.depth = 0 then 1 else 0 }

/-- Writes a line that opens a block behind its header. -/
def openBlock (header : String) (g : Generator) : Generator := g.enter (header ++ " \x7b")

/-- Writes a line that closes a block and opens the next one. -/
def reopenBlock (header : String) (g : Generator) : Generator := g.out.enter ("\x7d " ++ header ++ " \x7b")

/-- Writes a line that closes a block, with what follows the brace. -/
def closeBlock (tail : String) (g : Generator) : Generator := g.out.line ("\x7d" ++ tail)

def need (needs : Needs) (g : Generator) : Generator := { g with needs := g.needs ++ needs }

def fresh (g : Generator) : Generator := { g with next := g.next + 1 }

/-- Writes the assignments to the parameters of a function. -/
def assignments (prologue : List (String × Script.Expr)) (g : Generator) : Generator :=
  prologue.foldl (fun g assignment => g.line (assignmentText assignment)) g

mutual

/-- Writes a statement. -/
def statement : Stmt → Generator → Generator
  | .expression value, g => (g.need value.needs).line (expressionStatement value.lower)
  | .raw code, g => g.raw code
  | .function decl, g => function "function" " " decl g
  | .ret value, g => (g.need (optionNeeds value)).line (valueStatement "return" (lower? value))
  | .throw value, g => (g.need value.needs).line ("throw " ++ value.lower.text ++ ";")
  | .yield value, g => (g.need (optionNeeds value)).line (valueStatement "yield" (lower? value))
  | .classDecl name superclass methods', g =>
    let lowered := superclass.map fun e => parenIf e.isLooseObject e.lower
    let opened := (g.need (optionNeeds superclass)).openBlock (classHeader name.text lowered)
    (methods methods' opened).closeBlock ""
  | .block body, g => (block body (g.enter "\x7b")).closeBlock ""
  | .whileLoop condition body, g =>
    let opened := (g.need condition.needs).openBlock ("while (" ++ condition.lower.text ++ ")")
    (block body opened).closeBlock ""
  | .doLoop body condition, g =>
    let written := block body (g.openBlock "do")
    (written.need condition.needs).closeBlock (" while (" ++ condition.lower.text ++ ");")
  | .forLoop name iterable body, g =>
    let index := indexName g.next
    let sequence := sequenceName g.next
    let header := forHeader index sequence (callHelper .iterable [iterable.lower])
    let opened := (((g.need (.only .iterable)).fresh).need iterable.needs).openBlock header
    let element : Script.Expr := .index (.name sequence) (.name index)
    (block body (opened.line (declarationText .scoped name.text (some element)))).closeBlock ""
  | .tryBlock body handler none finalizer, g =>
    -- A `try` alone gets an empty handler.
    let alone (g : Generator) := if finalizer.isNone then g.reopenBlock "catch" else g
    let caught := handled [] alone handler (block body (g.openBlock "try"))
    (continuation "finally" finalizer caught).closeBlock ""
  | .tryBlock body handler (some otherwise) finalizer, g =>
    let flag := flagName g.next
    let thrown := thrownName g.next
    let noted : String × Script.Expr := (flag, .literal (.boolean false))
    let alone (g : Generator) :=
      ((g.reopenBlock (catchHeader (some thrown))).line (assignmentText noted)).line ("throw " ++ thrown ++ ";")
    let opened := g.fresh.enter (if finalizer.isSome then "try \x7b" else "\x7b")
    let flagged := opened.line (declarationText .scoped flag (some (.literal (.boolean true))))
    let caught := (handled [noted] alone handler (block body (flagged.openBlock "try"))).closeBlock ""
    let ended := (block otherwise (caught.openBlock ("if (" ++ flag ++ ")"))).closeBlock ""
    (continuation "finally" finalizer ended).closeBlock ""
  | .branch condition body elifs' otherwise, g =>
    let opened := (g.need condition.needs).openBlock ("if (" ++ condition.lower.text ++ ")")
    (continuation "else" otherwise (elifs elifs' (block body opened))).closeBlock ""
  | .switch value cases' default, g =>
    let opened := (g.need value.needs).openBlock ("switch (" ++ value.lower.text ++ ")")
    (defaultCase default (cases cases' opened)).closeBlock ""
  | .breakLoop, g => g.line "break;"
  | .continueLoop, g => g.line "continue;"
  | .declare binding name init, g =>
    (g.need (optionNeeds init)).line (declarationText binding name.text (lower? init))

def block : List Stmt → Generator → Generator
  | [], g => g
  | s :: rest, g => block rest (statement s g)

/-- Writes a function; `word` and `gap` stand around the star of a generator function. -/
def function (word gap : String) : Function Stmt → Generator → Generator
  | ⟨name, params, body, isAsync, isGenerator⟩, g =>
    let header := asyncText isAsync ++ word ++ starText isGenerator ++ gap ++ signature name.text (lowerParams params)
    let opened := (g.need (paramsNeeds params)).openBlock header
    (block body (opened.assignments (prologue params))).closeBlock ""

def methods : List (Function Stmt) → Generator → Generator
  | [], g => g
  | decl :: rest, g => methods rest (function "" "" decl g)

/-- Writes a handler, with some assignments first, or what stands for it if there is none. -/
def handled (first : List (String × Script.Expr)) (alone : Generator → Generator) :
    Option (Handler Stmt) → Generator → Generator
  | none, g => alone g
  | some ⟨param, body⟩, g => block body ((g.reopenBlock (catchHeader (param.map Ident.text))).assignments first)

def continuation (header : String) : Option (List Stmt) → Generator → Generator
  | none, g => g
  | some body, g => block body (g.reopenBlock header)

def elif : Expr × List Stmt → Generator → Generator
  | (condition, body), g =>
    block body ((g.need condition.needs).reopenBlock ("else if (" ++ condition.lower.text ++ ")"))

def elifs : List (Expr × List Stmt) → Generator → Generator
  | [], g => g
  | clause :: rest, g => elifs rest (elif clause g)

def case : Expr × List Stmt → Generator → Generator
  | (test, body), g =>
    (block body ((g.need test.needs).openBlock ("case " ++ test.lower.text ++ ":"))).closeBlock " break;"

def cases : List (Expr × List Stmt) → Generator → Generator
  | [], g => g
  | clause :: rest, g => cases rest (case clause g)

def defaultCase : Option (List Stmt) → Generator → Generator
  | none, g => g
  | some body, g => (block body (g.openBlock "default:")).closeBlock ""

end

theorem statement_breakLoop (g : Generator) : statement .breakLoop g = g.line "break;" := by
  rw [statement]

end Generator

/-! ## Lines that open and close blocks -/

open Script (openLine reopenLine closeLine)

namespace Line

@[simp]
theorem deepen_deepen (depth inner : Nat) (line : Line) :
    (line.deepen inner).deepen depth = line.deepen (depth + inner) := by
  cases line <;> simp [deepen, Nat.add_assoc]

theorem join_append (depth : Nat) (front back : List Line) :
    join depth (front ++ back) = join depth front ++ join depth back := by
  simp [join]

theorem join_map_deepen (depth inner : Nat) (lines : List Line) :
    join depth (lines.map (deepen inner)) = join (depth + inner) lines := by
  simp only [join, List.map_map]
  congr 2
  funext line
  cases line <;> simp [deepen, text, Nat.add_assoc]

/-- Lines that start inside `a` blocks and end inside `b`.  The property holds of each line together with the braces that
belong to it on other lines. -/
inductive Laid (T : Texture) : Nat → List Line → Nat → Prop
  | nil {a : Nat} : Laid T a [] a
  | plain {a b : Nat} {text : String} {lines : List Line} : T.Holds text → Laid T a lines b →
      Laid T a (.code a text :: lines) b
  | raw {a b : Nat} {content : String} {lines : List Line} : Laid T a lines b → Laid T a (.raw content :: lines) b
  | enter {a b : Nat} {text : String} {lines : List Line} : T.Holds (text ++ "\x7d") → Laid T (a + 1) lines b →
      Laid T a (.code a text :: lines) b
  | reopen {a b : Nat} {text : String} {lines : List Line} : T.Holds ("\x7b" ++ text ++ "\x7d") →
      Laid T (a + 1) lines b → Laid T (a + 1) (.code a text :: lines) b
  | close {a b : Nat} {text : String} {lines : List Line} : T.Holds ("\x7b" ++ text) → Laid T a lines b →
      Laid T (a + 1) (.code a text :: lines) b

namespace Laid

variable {T : Texture} {a b c : Nat} {front back lines : List Line}

theorem append (hfront : Laid T a front b) (hback : Laid T b back c) : Laid T a (front ++ back) c := by
  induction hfront with
  | nil => exact hback
  | plain htext _ ih => exact .plain htext (ih hback)
  | raw _ ih => exact .raw (ih hback)
  | enter htext _ ih => exact .enter htext (ih hback)
  | reopen htext _ ih => exact .reopen htext (ih hback)
  | close htext _ ih => exact .close htext (ih hback)

theorem deepen (depth : Nat) (h : Laid T a lines b) : Laid T (depth + a) (lines.map (Line.deepen depth)) (depth + b) := by
  induction h with
  | nil => exact .nil
  | plain htext _ ih => exact .plain htext ih
  | raw _ ih => exact .raw ih
  | enter htext _ ih => exact .enter htext ih
  | reopen htext _ ih => exact .reopen htext ih
  | close htext _ ih => exact .close htext ih

end Laid

end Line

/-! ## What a row of steps writes -/

namespace Script.Needs

@[simp]
theorem append_none (a : Needs) : a ++ none = a := by
  obtain ⟨_, _, _, _⟩ := a
  change union _ none = _
  simp [union, none]

@[simp]
theorem none_append (a : Needs) : none ++ a = a := rfl

theorem append_assoc (a b c : Needs) : a ++ b ++ c = a ++ (b ++ c) := by
  change union (union a b) c = union a (union b c)
  simp [union, Bool.or_assoc]

theorem append_comm (a b : Needs) : a ++ b = b ++ a := by
  change union a b = union b a
  simp [union, Bool.or_comm]

end Script.Needs

/-- What a row of steps adds: the text inside a number of blocks, the helpers, the fresh names and the raw code. -/
@[ext]
structure Output where
  text : Nat → String
  needs : Needs
  labels : Nat
  codes : List String

namespace Output

/-- Lines of text and nothing else. -/
@[simp]
def ofText (text : Nat → String) : Output := ⟨text, .none, 0, []⟩

def append (front back : Output) : Output :=
  ⟨fun depth => front.text depth ++ back.text depth, front.needs ++ back.needs, front.labels + back.labels,
    front.codes ++ back.codes⟩

instance : Append Output := ⟨append⟩

/-- The same inside one more block. -/
@[simp]
def inner (o : Output) : Output := { o with text := fun depth => o.text (depth + 1) }

variable (front back o : Output)

@[simp]
theorem text_append : (front ++ back).text = fun depth => front.text depth ++ back.text depth := rfl

@[simp]
theorem needs_append : (front ++ back).needs = front.needs ++ back.needs := rfl

@[simp]
theorem labels_append : (front ++ back).labels = front.labels + back.labels := rfl

@[simp]
theorem codes_append : (front ++ back).codes = front.codes ++ back.codes := rfl

end Output

def Stmt.rawCode? : Stmt → Option String
  | .raw code => some code
  | _ => none

open Script (blockText handlerText continuationText elifText elifsText caseText casesText defaultText functionText
  methodText methodsText)

namespace Output

/-- The raw code in some statements, in their order. -/
def rawCodes (body : List Stmt) : List String := (Program.statements body).filterMap Stmt.rawCode?

@[simp]
def statement (next : Nat) (s : Stmt) : Output :=
  ⟨fun d => (s.lower next).text d, s.needs, s.labels, s.rawCode?.toList ++ rawCodes s.parts⟩

@[simp]
def block (next : Nat) (body : List Stmt) : Output :=
  ⟨fun d => blockText d (lowerBlock next body), blockNeeds body, blockLabels body, rawCodes body⟩

end Output

namespace Generator

open Line (Laid)
open Output (rawCodes)

variable {T : Texture} {a b c next : Nat} {f f' : Generator → Generator} {o o' : Output} {text header tail : String}

/-- From a generator that is inside `a` blocks more than it is known to be, the steps lead to one that is inside `b`
more.  They add lines, helpers and fresh names, and close no block that is not open. -/
def Writes (T : Texture) (a b next : Nat) (f : Generator → Generator) (o : Output) : Prop :=
  ∃ lines, Laid T a lines b ∧ lines.filterMap Line.rawCode? = o.codes ∧
    (∀ depth, Line.join depth lines = o.text depth) ∧
    ∀ depth g, g.next = next → g.depth = depth + a →
      f g = ⟨g.lines ++ lines.map (Line.deepen depth), depth + b, g.cuts, g.needs ++ o.needs, next + o.labels⟩

namespace Writes

theorem congr (h : Writes T a b next f o) (hf : ∀ g : Generator, g.next = next → f' g = f g) (ho : o' = o) :
    Writes T a b next f' o' := by
  subst ho
  obtain ⟨lines, hlaid, hcodes, htext, hrun⟩ := h
  exact ⟨lines, hlaid, hcodes, htext, fun depth g hnext hdepth => (hf g hnext).trans (hrun depth g hnext hdepth)⟩

theorem append (h : Writes T a b next f o) (h' : Writes T b c (next + o.labels) f' o') :
    Writes T a c next (fun g => f' (f g)) (o ++ o') := by
  obtain ⟨front, hfront, hcodes, htext, hrun⟩ := h
  obtain ⟨back, hback, hcodes', htext', hrun'⟩ := h'
  refine ⟨front ++ back, hfront.append hback, ?_, fun depth => ?_, fun depth g hnext hdepth => ?_⟩
  · rw [List.filterMap_append, hcodes, hcodes']
    rfl
  · rw [Line.join_append, htext, htext']
    rfl
  · change f' (f g) = _
    rw [hrun depth g hnext hdepth, hrun' depth _ rfl rfl]
    simp only [List.map_append, List.append_assoc, Needs.append_assoc, Nat.add_assoc]
    rfl

theorem inner (h : Writes T a b next f o) : Writes T (a + 1) (b + 1) next f o.inner := by
  obtain ⟨lines, hlaid, hcodes, htext, hrun⟩ := h
  refine ⟨lines.map (Line.deepen 1), ?_, ?_, fun depth => ?_, fun depth g hnext hdepth => ?_⟩
  · simpa only [Nat.add_comm 1] using hlaid.deepen 1
  · rw [Output.inner, ← hcodes, List.filterMap_map]
    congr 1
    funext line
    cases line <;> rfl
  · rw [Line.join_map_deepen, htext]
    rfl
  · rw [hrun (depth + 1) g hnext (by omega)]
    simp only [List.map_map, Function.comp_def, Line.deepen_deepen, Output.inner]
    congr 1
    omega

theorem line (h : T.Holds text) : Writes T a a next (Generator.line text) (.ofText fun d => Script.line (d + a) text) := by
  refine ⟨[.code a text], .plain h .nil, rfl, fun depth => by simp [Line.join, Line.text], ?_⟩
  intro depth g hnext hdepth
  simp [Generator.line, Line.deepen, hnext, hdepth]

theorem raw (content : String) : Writes T a a next (Generator.raw content)
    ⟨fun _ => Script.rawText content, .none, 0, [content]⟩ := by
  refine ⟨[.raw content], .raw .nil, rfl, fun depth => by simp [Line.join, Line.text], ?_⟩
  intro depth g hnext hdepth
  simp [Generator.raw, Line.deepen, hnext, hdepth]

theorem enter (h : T.Holds (text ++ "\x7d")) :
    Writes T a (a + 1) next (Generator.enter text) (.ofText fun d => Script.line (d + a) text) := by
  refine ⟨[.code a text], .enter h .nil, rfl, fun depth => by simp [Line.join, Line.text], ?_⟩
  intro depth g hnext hdepth
  simp [Generator.enter, Generator.line, Line.deepen, hnext, hdepth, Nat.add_assoc]

theorem openBlock (h : T.Holds header) :
    Writes T a (a + 1) next (Generator.openBlock header) (.ofText fun d => openLine (d + a) header) := by
  refine (enter ?_).congr (fun _ _ => rfl) rfl
  rw [String.append_assoc]
  exact T.append h (T.plain (by decide))

theorem reopenBlock (h : T.Holds header) :
    Writes T (a + 1) (a + 1) next (Generator.reopenBlock header) (.ofText fun d => reopenLine (d + a) header) := by
  have hbraces : T.Holds ("\x7b" ++ ("\x7d " ++ header ++ " \x7b") ++ "\x7d") := by
    have hinner := T.between "\x7b\x7d " " \x7b\x7d" (by decide) h
    have hfirst : "\x7b\x7d " = "\x7b" ++ "\x7d " := rfl
    have hlast : " \x7b\x7d" = " \x7b" ++ "\x7d" := rfl
    simpa only [hfirst, hlast, String.append_assoc] using hinner
  refine ⟨[.code a _], .reopen hbraces .nil, rfl,
    fun depth => by simp [Line.join, Line.text, reopenLine], ?_⟩
  intro depth g hnext hdepth
  simp [Generator.reopenBlock, Generator.enter, Generator.out, Generator.line, Line.deepen, hnext, hdepth, ←
    Nat.add_assoc]

theorem closeBlock (h : T.Holds tail) :
    Writes T (a + 1) a next (Generator.closeBlock tail) (.ofText fun d => closeLine (d + a) tail) := by
  have hbraces : T.Holds ("\x7b" ++ ("\x7d" ++ tail)) := by
    rw [← String.append_assoc]
    exact T.append (T.plain (by decide)) h
  refine ⟨[.code a _], .close hbraces .nil, rfl,
    fun depth => by simp [Line.join, Line.text, closeLine], ?_⟩
  intro depth g hnext hdepth
  simp [Generator.closeBlock, Generator.out, Generator.line, Line.deepen, hnext, hdepth, ← Nat.add_assoc]

theorem need (needs : Needs) : Writes T a a next (Generator.need needs) ⟨fun _ => "", needs, 0, []⟩ := by
  refine ⟨[], .nil, rfl, fun depth => rfl, fun depth g hnext hdepth => ?_⟩
  simp [Generator.need, hnext, hdepth]

theorem fresh : Writes T a a next Generator.fresh ⟨fun _ => "", .none, 1, []⟩ := by
  refine ⟨[], .nil, rfl, fun depth => rfl, fun depth g hnext hdepth => ?_⟩
  simp [Generator.fresh, hnext, hdepth]

theorem skip : Writes T a a next id (.ofText fun _ => "") := by
  refine ⟨[], .nil, rfl, fun depth => rfl, fun depth g hnext hdepth => ?_⟩
  simp [← hnext, ← hdepth]

theorem enclosed (hheader : T.Holds header) (htail : T.Holds tail) (h : Writes T 0 0 next f o) :
    Writes T 0 0 next (fun g => (f (g.openBlock header)).closeBlock tail)
      ⟨fun d => openLine d header ++ o.text (d + 1) ++ closeLine d tail, o.needs, o.labels, o.codes⟩ := by
  refine (((openBlock hheader).append h.inner).append (closeBlock htail)).congr (fun _ _ => rfl) ?_
  ext : 1 <;> simp

end Writes

/-! ## Statements -/

@[simp]
theorem rawCodes_nil : rawCodes [] = [] := rfl

theorem rawCodes_cons (s : Stmt) (rest : List Stmt) : rawCodes (s :: rest) =
    s.rawCode?.toList ++ rawCodes s.parts ++ rawCodes rest := by
  rw [rawCodes, Program.statements_cons, List.filterMap_cons, List.filterMap_append]
  cases s.rawCode? <;> simp [rawCodes]

@[simp]
theorem rawCodes_append (front back : List Stmt) : rawCodes (front ++ back) = rawCodes front ++ rawCodes back := by
  simp [rawCodes, Program.statements]

/-- Whatever numbers the statements start with, they are written as they are lowered. -/
def WritesAll (T : Texture) (body : List Stmt) : Prop :=
  ∀ s ∈ body, ∀ next, Writes T 0 0 next (statement s) (.statement next s)

theorem WritesAll.append {front back : List Stmt} (h : WritesAll T (front ++ back)) :
    WritesAll T front ∧ WritesAll T back :=
  List.forall_mem_append.1 h

theorem WritesAll.block {body : List Stmt} (h : WritesAll T body) (next : Nat) :
    Writes T 0 0 next (Generator.block body) (.block next body) := by
  induction body generalizing next with
  | nil => exact Writes.skip.congr (fun g _ => by rw [Generator.block]; rfl) rfl
  | cons s rest ih =>
    obtain ⟨hs, hrest⟩ := List.forall_mem_cons.1 h
    refine ((hs next).append (ih hrest _)).congr (fun g _ => by rw [Generator.block]) ?_
    ext : 1 <;> simp [blockText, lowerBlock, blockNeeds, blockLabels, rawCodes_cons]

theorem holds_empty : T.Holds "" := T.plain (by decide)

section Option

variable {content : Option (List Stmt)} (h : WritesAll T (content.getD [])) (next : Nat)

include h

theorem writes_continuation (hheader : T.Holds header) : Writes T 1 1 next (continuation header content)
    ⟨fun d => continuationText d header (lowerOption next content), bodyNeeds content, optionLabels content,
      rawCodes (content.getD [])⟩ := by
  cases content with
  | none => exact Writes.skip.congr (fun g _ => by rw [continuation]; rfl) rfl
  | some body =>
    refine ((Writes.reopenBlock hheader).append (h.block next).inner).congr (fun g _ => by rw [continuation]; rfl) ?_
    ext : 1 <;> simp [continuationText, lowerOption, bodyNeeds, optionLabels]

theorem writes_defaultCase : Writes T 0 0 next (defaultCase content)
    ⟨fun d => defaultText d (lowerOption next content), bodyNeeds content, optionLabels content,
      rawCodes (content.getD [])⟩ := by
  cases content with
  | none => exact Writes.skip.congr (fun g _ => by rw [defaultCase]; rfl) rfl
  | some body =>
    have hheader : T.Holds "default:" := T.plain (by decide)
    refine ((h.block next).enclosed hheader holds_empty).congr (fun g _ => by rw [defaultCase]; rfl) ?_
    ext : 1 <;> simp [defaultText, lowerOption, bodyNeeds, optionLabels]

end Option

section Clauses

variable {clauses : List (Expr × List Stmt)} (htests : ∀ value ∈ clauses.map Prod.fst, value.lower.Tame T)
  (h : WritesAll T (clauses.flatMap Prod.snd)) (next : Nat)

include htests h

theorem writes_elifs : Writes T 1 1 next (elifs clauses)
    ⟨fun d => elifsText d (lowerCases next clauses), casesNeeds clauses, casesLabels clauses,
      rawCodes (clauses.flatMap Prod.snd)⟩ := by
  induction clauses generalizing next with
  | nil => exact Writes.skip.congr (fun g _ => by rw [elifs]; rfl) rfl
  | cons clause rest ih =>
    obtain ⟨condition, body⟩ := clause
    rw [List.map_cons, List.forall_mem_cons] at htests
    obtain ⟨hbody, hrest⟩ := h.append
    have hheader := T.between "else if (" ")" (by decide) htests.1.holds_text
    refine ((((Writes.need condition.needs).append (Writes.reopenBlock hheader)).append (hbody.block next).inner).append
      (ih htests.2 hrest _)).congr (fun g _ => by rw [elifs, elif]) ?_
    ext : 1 <;> simp [elifsText, elifText, lowerCases, lowerCase, casesNeeds, caseNeeds, casesLabels, caseLabels,
      Needs.append_assoc]

theorem writes_cases : Writes T 0 0 next (cases clauses)
    ⟨fun d => casesText d (lowerCases next clauses), casesNeeds clauses, casesLabels clauses,
      rawCodes (clauses.flatMap Prod.snd)⟩ := by
  induction clauses generalizing next with
  | nil => exact Writes.skip.congr (fun g _ => by rw [cases]; rfl) rfl
  | cons clause rest ih =>
    obtain ⟨test, body⟩ := clause
    rw [List.map_cons, List.forall_mem_cons] at htests
    obtain ⟨hbody, hrest⟩ := h.append
    have hheader := T.between "case " ":" (by decide) htests.1.holds_text
    have htail : T.Holds " break;" := T.plain (by decide)
    refine (((Writes.need test.needs).append ((hbody.block next).enclosed hheader htail)).append
      (ih htests.2 hrest _)).congr (fun g _ => by rw [cases, case]) ?_
    ext : 1 <;> simp [casesText, caseText, lowerCases, lowerCase, casesNeeds, caseNeeds, casesLabels, caseLabels,
      Needs.append_assoc]

end Clauses

/-! ### Functions -/

theorem blockText_append (depth : Nat) (front back : List Script.Stmt) :
    blockText depth (front ++ back) = blockText depth front ++ blockText depth back := by
  induction front with
  | nil => simp [blockText]
  | cons s rest ih => simp [blockText, ih, String.append_assoc]

theorem writes_assignments {prologue : List (String × Script.Expr)}
    (h : ∀ assignment ∈ prologue, T.Holds (assignmentText assignment)) (next : Nat) :
    Writes T 0 0 next (assignments prologue)
      (.ofText fun d => blockText d (prologue.map fun assignment => .assign assignment.1 assignment.2)) := by
  induction prologue with
  | nil => exact Writes.skip.congr (fun g _ => rfl) rfl
  | cons assignment rest ih =>
    obtain ⟨hfirst, hrest⟩ := List.forall_mem_cons.1 h
    refine ((Writes.line hfirst).append (ih hrest)).congr (fun g _ => rfl) ?_
    ext : 1 <;> simp [blockText, Script.Stmt.text]

section Function

variable {decl : Function Stmt} (hnames : ∀ name ∈ decl.names, T.Holds name.text)
  (hdefaults : ∀ value ∈ decl.params.filterMap Param.default, value.lower.Tame T) (h : WritesAll T decl.body)
  (next : Nat)

include hnames hdefaults h

/-- A function and a method differ in what stands in front of the name. -/
theorem writes_function {word gap : String} (hword : IsPlain word) (hgap : IsPlain gap) :
    Writes T 0 0 next (function word gap decl)
      ⟨fun d => openLine d (asyncText decl.isAsync ++ word ++ starText decl.isGenerator ++ gap ++
          signature decl.name.text (lowerParams decl.params)) ++
          blockText (d + 1) (lowerFunction next decl).body ++ closeLine d "",
        functionNeeds decl, functionLabels decl, rawCodes decl.body⟩ := by
  obtain ⟨name, params, body, isAsync, isGenerator⟩ := decl
  obtain ⟨hname, hparams⟩ := List.forall_mem_cons.1 hnames
  have hsignature : T.Holds (signature name.text (lowerParams params)) := by
    have hlist := Script.holds_params (holds_name_lowerParams hparams)
      fun value hvalue => (tame_default_lowerParams hdefaults value hvalue).holds_text
    have hbracket := T.between "(" ")" (by decide) hlist
    simpa only [signature, String.append_assoc] using T.append hname hbracket
  have hopening : T.Holds (asyncText isAsync ++ word ++ starText isGenerator ++ gap) := by
    have hasync : IsPlain (asyncText isAsync) := by cases isAsync <;> decide
    have hstar : IsPlain (starText isGenerator) := by cases isGenerator <;> decide
    exact T.append (T.append (T.append (T.plain hasync) (T.plain hword)) (T.plain hstar)) (T.plain hgap)
  have hprologue : ∀ assignment ∈ prologue params, T.Holds (assignmentText assignment) := fun assignment hassignment =>
    have htame := tame_prologue hparams hdefaults assignment hassignment
    Script.holds_assignmentText htame.1 htame.2.holds_text
  have hbody := (writes_assignments hprologue next).append (h.block next)
  refine ((Writes.need (paramsNeeds params)).append
    (hbody.enclosed (T.append hopening hsignature) holds_empty)).congr (fun g _ => by rw [function]) ?_
  ext : 1 <;> simp [lowerFunction, functionNeeds, functionLabels, prologueStatements_eq_map, blockText_append]

end Function

theorem writes_methods {decls : List (Function Stmt)} (hnames : ∀ decl ∈ decls, ∀ name ∈ decl.names, T.Holds name.text)
    (hdefaults : ∀ decl ∈ decls, ∀ value ∈ decl.params.filterMap Param.default, value.lower.Tame T)
    (h : WritesAll T (decls.flatMap Function.body)) (next : Nat) : Writes T 0 0 next (methods decls)
      ⟨fun d => methodsText d (lowerMethods next decls), methodsNeeds decls, methodsLabels decls,
        rawCodes (decls.flatMap Function.body)⟩ := by
  induction decls generalizing next with
  | nil => exact Writes.skip.congr (fun g _ => by rw [methods]; rfl) rfl
  | cons decl rest ih =>
    obtain ⟨hname, hrest⟩ := List.forall_mem_cons.1 hnames
    obtain ⟨hdefault, hothers⟩ := List.forall_mem_cons.1 hdefaults
    obtain ⟨hbody, hbodies⟩ := h.append
    have hplain : IsPlain "" := by decide
    refine ((writes_function hname hdefault hbody next hplain hplain).append
      (ih hrest hothers hbodies _)).congr (fun g _ => by rw [methods]) ?_
    obtain ⟨name, params, body, isAsync, isGenerator⟩ := decl
    ext : 1 <;> simp [methodsText, methodText, lowerMethods, lowerFunction, methodsNeeds, methodsLabels]

/-! ### Handlers -/

/-- The statements that assign to parameters or flags. -/
def assigned (assignments : List (String × Script.Expr)) : List Script.Stmt :=
  assignments.map fun assignment => .assign assignment.1 assignment.2

theorem writes_handled {handler : Option (Handler Stmt)}
    (hparam : ∀ name ∈ handler.toList.flatMap fun caught => caught.param.toList, T.Holds name.text)
    (h : WritesAll T (handler.toList.flatMap Handler.body)) {first : List (String × Script.Expr)}
    (hfirst : ∀ assignment ∈ first, T.Holds (assignmentText assignment)) (next : Nat)
    {alone : Generator → Generator} {other : Option (Script.Handler Script.Stmt)}
    (halone : Writes T 1 1 next alone (.ofText fun d => handlerText d other)) :
    Writes T 1 1 next (handled first alone handler)
      ⟨fun d => handlerText d (((lowerHandler next handler).map fun caught =>
          ⟨caught.param, assigned first ++ caught.body⟩).or other),
        handlerNeeds handler, handlerLabels handler, rawCodes (handler.toList.flatMap Handler.body)⟩ := by
  cases handler with
  | none => exact halone.congr (fun g _ => by rw [handled]) rfl
  | some caught =>
    obtain ⟨param, body⟩ := caught
    have hheader : T.Holds (catchHeader (param.map Ident.text)) := by
      cases param with
      | none => exact T.plain (by decide)
      | some name => exact T.between "catch (" ")" (by decide) (hparam name (by simp))
    have hbody : WritesAll T body := by simpa using h
    refine ((Writes.reopenBlock hheader).append
      ((writes_assignments hfirst next).append (hbody.block next)).inner).congr (fun g _ => by rw [handled]) ?_
    ext : 1 <;> simp [handlerText, lowerHandler, handlerNeeds, handlerLabels, assigned, blockText_append]

/-! ### Texts of lines -/

section Texts

variable {name word : String} {value : Option Script.Expr}

theorem holds_declarationText (binding : Binding) (hname : T.Holds name) (h : ∀ t ∈ value, t.Tame T) :
    T.Holds (declarationText binding name value) := by
  have hbinding : T.Holds (binding.text ++ " ") := T.plain (by cases binding <;> decide)
  have hdeclared := T.append hbinding hname
  cases value with
  | none => exact T.append hdeclared (T.plain (by decide))
  | some t =>
    have hinit := T.append (T.append hdeclared (T.plain (by decide : IsPlain " = "))) (h t rfl).holds_text
    exact T.append hinit (T.plain (by decide))

theorem holds_valueStatement (hword : IsPlain word) (h : ∀ t ∈ value, t.Tame T) :
    T.Holds (valueStatement word value) := by
  cases value with
  | none => exact T.append (T.plain hword) (T.plain (by decide))
  | some t =>
    have hgap := T.append (T.plain hword) (T.plain (by decide : IsPlain " "))
    exact T.append (T.append hgap (h t rfl).holds_text) (T.plain (by decide))

theorem holds_classHeader (hname : T.Holds name) (h : ∀ t ∈ value, t.Tame T) : T.Holds (classHeader name value) := by
  have hclass := T.append (T.plain (by decide : IsPlain "class ")) hname
  cases value with
  | none => exact hclass
  | some t => exact T.append (T.append hclass (T.plain (by decide))) (h t rfl).holds_text

theorem holds_expressionStatement {t : Script.Expr} (h : t.Tame T) : T.Holds (expressionStatement t) := by
  unfold expressionStatement
  split
  · exact T.between "(" ");" (by decide) h.holds_text
  · exact T.append h.holds_text (T.plain (by decide))

theorem holds_forHeader {index sequence : String} {source : Script.Expr} (hindex : T.Holds index)
    (hsequence : T.Holds sequence) (hsource : source.Tame T) : T.Holds (forHeader index sequence source) := by
  have hcounter := T.append (T.append hindex (T.plain (by decide : IsPlain " = 0, "))) hsequence
  have hbegin := T.append (T.append hcounter (T.plain (by decide : IsPlain " = "))) hsource.holds_text
  have htest := T.append (T.append hbegin (T.plain (by decide : IsPlain "; "))) hindex
  have hbound := T.append (T.append htest (T.plain (by decide : IsPlain " < "))) hsequence
  have hnext := T.append (T.append hbound (T.plain (by decide : IsPlain ".length; "))) hindex
  have hheader := T.between "for (let " "++)" (by decide) hnext
  unfold forHeader
  simp only [String.append_assoc] at hheader ⊢
  exact hheader

end Texts

theorem isPlain_numbered {start : String} (h : IsPlain start) (number : Nat) : IsPlain (start ++ toString number) := by
  have hdigits : IsPlain (toString number) := by
    apply Text.isPlain_of_forall
    simp only [Nat.toString_eq_repr, Nat.toList_repr]
    exact fun c hc => Text.plain_of_isDigit (Nat.isDigit_of_mem_toDigits (by decide) (by decide) hc)
  rw [IsPlain, String.toList_append, List.mem_append]
  exact ⟨h.1.append hdigits.1, fun hbreak => hbreak.elim h.2 hdigits.2⟩

section Try

variable {body : List Stmt} {handler : Option (Handler Stmt)} {finalizer : Option (List Stmt)}
  (hparam : ∀ name ∈ handler.toList.flatMap fun caught => caught.param.toList, T.Holds name.text)
  (hbody : WritesAll T body) (hhandler : WritesAll T (handler.toList.flatMap Handler.body))
  (hfinalizer : WritesAll T (finalizer.getD [])) (next : Nat)

include hparam hbody hhandler hfinalizer

theorem writes_plainTry : Writes T 0 0 next (statement (.tryBlock body handler none finalizer))
    (.statement next (.tryBlock body handler none finalizer)) := by
  have htry : T.Holds "try" := T.plain (by decide)
  have hcatch : T.Holds "catch" := T.plain (by decide)
  have hfinally : T.Holds "finally" := T.plain (by decide)
  have halone (next : Nat) : Writes T 1 1 next
      (fun g => if finalizer.isNone then g.reopenBlock "catch" else g)
      (.ofText fun d => handlerText d (if finalizer.isNone then some ⟨none, []⟩ else none)) := by
    cases finalizer with
    | none => exact (Writes.reopenBlock hcatch).congr (fun g _ => rfl) (by simp [handlerText, catchHeader, blockText])
    | some content => exact Writes.skip.congr (fun g _ => rfl) rfl
  refine ((((Writes.openBlock htry).append (hbody.block next).inner).append
    (writes_handled hparam hhandler (List.forall_mem_nil _) _ (halone _))).append
    ((writes_continuation hfinalizer _ hfinally).append (Writes.closeBlock holds_empty))).congr
    (fun g _ => by rw [statement]) ?_
  ext : 1
  · cases handler <;> cases finalizer <;>
      simp [Stmt.lower, Script.plainTry, Script.Stmt.text, lowerHandler, lowerOption, handlerText, continuationText,
        catchHeader, blockText, optionLabels, handlerLabels, assigned, String.append_assoc, Nat.add_assoc]
  · simp [Stmt.needs, bodyNeeds, Needs.append_assoc]
  · simp [Stmt.labels, optionLabels, Nat.add_assoc]
  · simp [Stmt.rawCode?, Stmt.parts]

/-- The flag of a `try` with an `else` is written in front of it, and noted in its handler. -/
theorem writes_tryElse {otherwise : List Stmt} (hotherwise : WritesAll T otherwise) :
    Writes T 0 0 next (statement (.tryBlock body handler (some otherwise) finalizer))
      (.statement next (.tryBlock body handler (some otherwise) finalizer)) := by
  have htry : T.Holds "try" := T.plain (by decide)
  have hfinally : T.Holds "finally" := T.plain (by decide)
  have hflag : T.Holds (flagName next) := T.plain (isPlain_numbered (by decide) next)
  have hthrown : T.Holds (thrownName next) := T.plain (isPlain_numbered (by decide) next)
  have hnoted : T.Holds (assignmentText (flagName next, .literal (.boolean false))) :=
    Script.holds_assignmentText hflag (Script.Expr.tame_literal.2 (T.plain (by decide))).holds_text
  have hdeclared : T.Holds (declarationText .scoped (flagName next) (some (.literal (.boolean true)))) := by
    refine holds_declarationText .scoped hflag ?_
    intro t ht
    rw [← Option.some.inj ht]
    exact Script.Expr.tame_literal.2 (T.plain (by decide))
  have halone (first : Nat) : Writes T 1 1 first
      (fun g => ((g.reopenBlock (catchHeader (some (thrownName next)))).line
        (assignmentText (flagName next, .literal (.boolean false)))).line ("throw " ++ thrownName next ++ ";"))
      (.ofText fun d => handlerText d (some (Script.notingHandler next none))) := by
    have hcatch : T.Holds (catchHeader (some (thrownName next))) := T.between "catch (" ")" (by decide) hthrown
    have hthrow := T.between "throw " ";" (by decide) hthrown
    refine (((Writes.reopenBlock hcatch).append (Writes.line hnoted)).append (Writes.line hthrow)).congr
      (fun g _ => rfl) ?_
    ext : 1 <;> simp [handlerText, Script.notingHandler, Script.notingHandler.noted, blockText, Script.Stmt.text,
      Script.Expr.text, String.append_assoc]
  have hparts := ((Writes.line hdeclared).append ((((Writes.openBlock htry).append (hbody.block (next + 1)).inner).append
    (writes_handled hparam hhandler (List.forall_mem_singleton.2 hnoted) _ (halone _))).append
      (Writes.closeBlock holds_empty))).append ((hotherwise.block _).enclosed (T.between "if (" ")" (by decide) hflag)
        holds_empty)
  have henter : T.Holds ((if finalizer.isSome then "try \x7b" else "\x7b") ++ "\x7d") := by
    split <;> exact T.plain (by decide)
  refine ((((Writes.fresh).append (Writes.enter henter)).append hparts.inner).append
    ((writes_continuation hfinalizer _ hfinally).append (Writes.closeBlock holds_empty))).congr
    (fun g hg => by rw [statement, hg]) ?_
  ext : 1
  · cases handler <;> cases finalizer <;>
      simp [Stmt.lower, Script.tryElse, Script.Stmt.text, lowerHandler, lowerOption, handlerText, continuationText,
        catchHeader, blockText, optionLabels, handlerLabels, assigned, Script.notingHandler,
        Script.notingHandler.noted, Script.Expr.text, elifsText, openLine, String.append_assoc, Nat.add_assoc]
  · simp [Stmt.needs, bodyNeeds, Needs.append_assoc]
  · simp [Stmt.labels, optionLabels, Nat.add_assoc]
  · simp [Stmt.rawCode?, Stmt.parts]

end Try

/-! ### All forms -/

theorem tame_lower? {value : Option Expr} (h : ∀ e ∈ value.toList, e.lower.Tame T) : ∀ t ∈ lower? value, t.Tame T := by
  cases value <;> simp_all [lower?]

/-- One step of writing: a statement is written as it is lowered if its parts are. -/
theorem writes_statement_step {s : Stmt} (hnames : ∀ name ∈ s.names, T.Holds name.text)
    (hvalues : ∀ value ∈ s.values, value.lower.Tame T) (hparts : WritesAll T s.parts) (next : Nat) :
    Writes T 0 0 next (statement s) (.statement next s) := by
  cases s with
  | expression value =>
    have hline := holds_expressionStatement (hvalues value List.mem_cons_self)
    refine ((Writes.need value.needs).append (Writes.line hline)).congr (fun g _ => by rw [statement]) ?_
    ext : 1 <;> simp [Stmt.lower, Script.Stmt.text, Stmt.needs, Stmt.labels, Stmt.rawCode?, Stmt.parts]
  | raw code =>
    refine (Writes.raw code).congr (fun g _ => by rw [statement]) ?_
    ext : 1 <;> simp [Stmt.lower, Script.Stmt.text, Stmt.needs, Stmt.labels, Stmt.rawCode?, Stmt.parts]
  | function decl =>
    have hfunction : IsPlain "function" := by decide
    refine (writes_function hnames hvalues hparts next hfunction (by decide : IsPlain " ")).congr
      (fun g _ => by rw [statement]) ?_
    obtain ⟨name, params, body, isAsync, isGenerator⟩ := decl
    ext : 1 <;> simp [Stmt.lower, lowerFunction, Script.Stmt.text, functionText, Stmt.needs, Stmt.labels, Stmt.rawCode?,
      Stmt.parts]
  | ret value =>
    have hline := holds_valueStatement (by decide : IsPlain "return") (tame_lower? hvalues)
    refine ((Writes.need _).append (Writes.line hline)).congr (fun g _ => by rw [statement]) ?_
    ext : 1 <;> simp [Stmt.lower, Script.Stmt.text, Stmt.needs, Stmt.labels, Stmt.rawCode?, Stmt.parts]
  | yield value =>
    have hline := holds_valueStatement (by decide : IsPlain "yield") (tame_lower? hvalues)
    refine ((Writes.need _).append (Writes.line hline)).congr (fun g _ => by rw [statement]) ?_
    ext : 1 <;> simp [Stmt.lower, Script.Stmt.text, Stmt.needs, Stmt.labels, Stmt.rawCode?, Stmt.parts]
  | throw value =>
    have hline := T.between "throw " ";" (by decide) (hvalues value List.mem_cons_self).holds_text
    refine ((Writes.need _).append (Writes.line hline)).congr (fun g _ => by rw [statement]) ?_
    ext : 1 <;> simp [Stmt.lower, Script.Stmt.text, Stmt.needs, Stmt.labels, Stmt.rawCode?, Stmt.parts]
  | declare binding name init =>
    have hline := holds_declarationText binding (hnames name List.mem_cons_self) (tame_lower? hvalues)
    refine ((Writes.need _).append (Writes.line hline)).congr (fun g _ => by rw [statement]) ?_
    ext : 1 <;> simp [Stmt.lower, Script.Stmt.text, Stmt.needs, Stmt.labels, Stmt.rawCode?, Stmt.parts]
  | breakLoop =>
    refine (Writes.line (T.plain (by decide : IsPlain "break;"))).congr (fun g _ => statement_breakLoop g) ?_
    ext : 1 <;> simp [Stmt.lower, Script.Stmt.text, Stmt.needs, Stmt.labels, Stmt.rawCode?, Stmt.parts]
  | continueLoop =>
    refine (Writes.line (T.plain (by decide : IsPlain "continue;"))).congr (fun g _ => by rw [statement]) ?_
    ext : 1 <;> simp [Stmt.lower, Script.Stmt.text, Stmt.needs, Stmt.labels, Stmt.rawCode?, Stmt.parts]
  | classDecl name superclass methods =>
    simp only [Stmt.names, List.forall_mem_cons, List.forall_mem_flatMap] at hnames
    simp only [Stmt.values, List.forall_mem_append, List.forall_mem_flatMap] at hvalues
    have hlowered : ∀ t ∈ superclass.map fun e => parenIf e.isLooseObject e.lower, t.Tame T := by
      simpa using hvalues.1
    have hheader := holds_classHeader hnames.1 hlowered
    refine ((Writes.need (optionNeeds superclass)).append
      ((writes_methods hnames.2 hvalues.2 hparts next).enclosed hheader holds_empty)).congr
      (fun g _ => by rw [statement]) ?_
    ext : 1 <;> simp [Stmt.lower, Script.Stmt.text, Stmt.needs, Stmt.labels, Stmt.rawCode?, Stmt.parts]
  | block body =>
    have hbody : WritesAll T body := hparts
    have hopening : T.Holds ("\x7b" ++ "\x7d") := T.plain (by decide)
    refine (((Writes.enter hopening).append (hbody.block next).inner).append (Writes.closeBlock holds_empty)).congr
      (fun g _ => by rw [statement]) ?_
    ext : 1 <;> simp [Stmt.lower, Script.Stmt.text, Stmt.needs, Stmt.labels, Stmt.rawCode?, Stmt.parts]
  | whileLoop condition body =>
    have hbody : WritesAll T body := hparts
    have hheader := T.between "while (" ")" (by decide) (hvalues condition List.mem_cons_self).holds_text
    refine ((Writes.need condition.needs).append ((hbody.block next).enclosed hheader holds_empty)).congr
      (fun g _ => by rw [statement]) ?_
    ext : 1 <;> simp [Stmt.lower, Script.Stmt.text, Stmt.needs, Stmt.labels, Stmt.rawCode?, Stmt.parts]
  | doLoop body condition =>
    have hbody : WritesAll T body := hparts
    have htail := T.between " while (" ");" (by decide) (hvalues condition List.mem_cons_self).holds_text
    refine ((((Writes.openBlock (T.plain (by decide : IsPlain "do"))).append (hbody.block next).inner).append
      (Writes.need condition.needs)).append (Writes.closeBlock htail)).congr (fun g _ => by rw [statement]) ?_
    ext : 1 <;> simp [Stmt.lower, Script.Stmt.text, Stmt.needs, Stmt.labels, Stmt.rawCode?, Stmt.parts,
      Needs.append_comm]
  | forLoop name iterable body =>
    have hbody : WritesAll T body := hparts
    have hindex : T.Holds (indexName next) := T.plain (isPlain_numbered (by decide) next)
    have hsequence : T.Holds (sequenceName next) := T.plain (isPlain_numbered (by decide) next)
    have hsource : (callHelper .iterable [iterable.lower]).Tame T := by simpa using hvalues iterable List.mem_cons_self
    have hheader := holds_forHeader hindex hsequence hsource
    have helement : T.Holds (declarationText .scoped name.text
        (some (.index (.name (sequenceName next)) (.name (indexName next))))) :=
      holds_declarationText .scoped (hnames name List.mem_cons_self) (by simp [hindex, hsequence])
    refine ((((Writes.need (.only .iterable)).append Writes.fresh).append (Writes.need iterable.needs)).append
      (((Writes.line helement).append (hbody.block (next + 1))).enclosed hheader holds_empty)).congr
      (fun g hg => by rw [statement, hg]) ?_
    ext : 1 <;> simp [Stmt.lower, Script.forEach, Script.Stmt.text, blockText, Stmt.needs, Stmt.labels, Stmt.rawCode?,
      Stmt.parts, Needs.append_assoc]
  | tryBlock body handler otherwise finalizer =>
    simp only [Stmt.parts] at hparts
    obtain ⟨hfront, hfinalizer⟩ := hparts.append
    obtain ⟨hfront, hotherwise⟩ := hfront.append
    obtain ⟨hbody, hhandler⟩ := hfront.append
    cases otherwise with
    | none => exact writes_plainTry hnames hbody hhandler hfinalizer next
    | some content => exact writes_tryElse hnames hbody hhandler hfinalizer next hotherwise
  | branch condition body elifs otherwise =>
    simp only [Stmt.parts] at hparts
    obtain ⟨hfront, hotherwise⟩ := hparts.append
    obtain ⟨hbody, helifs⟩ := hfront.append
    obtain ⟨hcondition, htests⟩ := List.forall_mem_cons.1 hvalues
    have hheader := T.between "if (" ")" (by decide) hcondition.holds_text
    refine ((((Writes.need condition.needs).append (Writes.openBlock hheader)).append (hbody.block next).inner).append
      (((writes_elifs htests helifs _).append (writes_continuation hotherwise _ (T.plain (by decide : IsPlain "else")))).append
        (Writes.closeBlock holds_empty))).congr (fun g _ => by rw [statement]) ?_
    ext : 1 <;> simp [Stmt.lower, Script.Stmt.text, Stmt.needs, Stmt.labels, Stmt.rawCode?, Stmt.parts,
      Needs.append_assoc, Nat.add_assoc, String.append_assoc]
  | switch value cases default =>
    simp only [Stmt.parts] at hparts
    obtain ⟨hcases, hdefault⟩ := hparts.append
    obtain ⟨hvalue, htests⟩ := List.forall_mem_cons.1 hvalues
    have hheader := T.between "switch (" ")" (by decide) hvalue.holds_text
    refine ((Writes.need value.needs).append
      (((writes_cases htests hcases next).append (writes_defaultCase hdefault _)).enclosed hheader holds_empty)).congr
      (fun g _ => by rw [statement]) ?_
    ext : 1 <;> simp [Stmt.lower, Script.Stmt.text, Stmt.needs, Stmt.labels, Stmt.rawCode?, Stmt.parts,
      Needs.append_assoc, String.append_assoc]

/-- A statement is written as it is lowered. -/
theorem writes_statement {s : Stmt} (hnames : ∀ node ∈ nodes s, ∀ name ∈ node.names, T.Holds name.text)
    (hvalues : ∀ node ∈ nodes s, ∀ value ∈ node.values, value.lower.Tame T) (next : Nat) :
    Writes T 0 0 next (statement s) (.statement next s) := by
  induction s using Branching.induction generalizing next with
  | step s ih =>
    obtain ⟨hown, hinside⟩ := forall_nodes.1 hnames
    obtain ⟨hhere, hthere⟩ := forall_nodes.1 hvalues
    exact writes_statement_step hown hhere
      (fun part hpart first => ih part hpart (hinside part hpart) (hthere part hpart) first) next

end Generator

/-! ## Programs -/

/-- The nodes of a part of a tree are nodes of the tree. -/
theorem Branching.nodes_subset {α : Type} [SizeOf α] [Branching α] {outer a : α} (h : a ∈ nodes outer) :
    nodes a ⊆ nodes outer := by
  refine forall_nodes_of (P := fun a => nodes a ⊆ nodes outer) (fun a ha part hpart node hnode => ?_)
    (List.Subset.refl _) a h
  exact ha (mem_nodes.2 (.inr ⟨part, hpart, hnode⟩))

/-- The literal that an expression is. -/
def Expr.literals : Expr → List Literal
  | .literal value => [value]
  | _ => []

namespace Program

/-- The literals that stand in a program. -/
def literals (program : List Stmt) : List Literal := (expressions program).flatMap Expr.literals

/-- Every statement of a program is written as it is lowered, and a property that holds of the names and the literals
of the program holds of its lines. -/
theorem writes_statement {T : Texture} {program : List Stmt} (hnames : ∀ name ∈ names program, T.Holds name.text)
    (hliterals : ∀ value ∈ literals program, T.Holds (Script.literalText value)) :
    Generator.WritesAll T (statements program) := by
  intro s hs next
  obtain ⟨outer, houter, hs⟩ := mem_statements.1 hs
  have hnodes : ∀ node ∈ nodes s, node ∈ nodes outer := fun node hnode => Branching.nodes_subset hs hnode
  refine Generator.writes_statement (fun node hnode name hname => hnames name ?_) (fun node hnode value hvalue => ?_) next
  · exact List.mem_append_left _ (List.mem_flatMap.2 ⟨node, mem_statements.2 ⟨outer, houter, hnodes node hnode⟩, hname⟩)
  · refine Expr.tame_lower fun e he word hword => ?_
    have hexpression : e ∈ expressions program :=
      mem_expressions.2 ⟨outer, houter, node, hnodes node hnode, value, hvalue, he⟩
    unfold Expr.words at hword
    split at hword
    · rw [List.mem_singleton.1 hword]
      exact hliterals _ (List.mem_flatMap.2 ⟨_, hexpression, List.mem_cons_self⟩)
    · obtain ⟨name, hname, rfl⟩ := List.mem_map.1 hword
      exact hnames name (List.mem_append_right _ (List.mem_flatMap.2 ⟨e, hexpression, hname⟩))

end Program

end Offside
