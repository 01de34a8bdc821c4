import Offside.Proofs.Binary64.ReadBack
import Offside.Proofs.Compile.FreshNames
import Offside.Proofs.JavaScript.Structure
import Offside.Proofs.Text.Nesting

/-!
# Properties of written texts

The text of an expression is put together from the words in it, the names and the texts of its literals, and from what
the form of each node adds.  What a form adds is written on one line, and its brackets pair up around the parts of the
node.  So a property of texts that holds of such additions and allows insertions is known of the whole text if it is
known of the words.
-/

namespace Offside.Text

/-- A text on one line whose brackets pair up. -/
def IsPlain (text : String) : Prop := Nested text.toList ∧ '\n' ∉ text.toList

instance : DecidablePred IsPlain := fun _ => inferInstanceAs (Decidable (_ ∧ _))

theorem isPlain_of_forall {text : String} (h : ∀ c ∈ text.toList, isBracket c = false ∧ c ≠ '\n') : IsPlain text := by
  refine ⟨Nested.of_forall ?_, fun hbreak => (h _ hbreak).2 rfl⟩
  simp only [List.all_eq_true, Bool.not_eq_true']
  exact fun c hc => (h c hc).1

theorem plain_of_isDigit {c : Char} (h : c.isDigit = true) : isBracket c = false ∧ c ≠ '\n' :=
  ⟨isBracket_of (by decide) h, fun hbreak => absurd (hbreak ▸ h) (by decide)⟩

/-- A property of texts that plain texts have, and that is kept if one text is inserted in another. -/
structure Texture where
  Holds : String → Prop
  plain {text : String} : IsPlain text → Holds text
  insert {front inner back : String} : Holds (front ++ back) → Holds inner → Holds (front ++ inner ++ back)

namespace Texture

variable (T : Texture) {front back : String}

theorem append (hfront : T.Holds front) (hback : T.Holds back) : T.Holds (front ++ back) := by
  have hinsert : T.Holds (front ++ back ++ "") := T.insert (by rwa [String.append_empty]) hback
  rwa [String.append_empty] at hinsert

/-- What stands between plain texts that belong together. -/
theorem between (opening closing : String) (h : IsPlain (opening ++ closing)) {inner : String}
    (hinner : T.Holds inner) : T.Holds (opening ++ inner ++ closing) :=
  T.insert (T.plain h) hinner

theorem intercalate {separator : String} (hseparator : IsPlain separator) {texts : List String}
    (h : ∀ text ∈ texts, T.Holds text) : T.Holds (separator.intercalate texts) := by
  induction texts with
  | nil =>
    rw [String.intercalate_nil]
    exact T.plain (by decide)
  | cons text rest ih =>
    obtain ⟨htext, hrest⟩ := List.forall_mem_cons.1 h
    cases rest with
    | nil => simpa using htext
    | cons next others =>
      rw [String.intercalate_cons_cons]
      exact T.append (T.append htext (T.plain hseparator)) (ih hrest)

/-- Brackets pair up. -/
def nested : Texture where
  Holds text := Nested text.toList
  plain h := h.1
  insert {front inner back} h hinner := by
    rw [Nested.iff_run, String.toList_append, Nested.run_append] at h
    rw [Nested.iff_run, String.toList_append, String.toList_append, Nested.run_append, Nested.run_append]
    cases hrun : Nested.run [] front.toList with
    | none => simp [hrun] at h
    | some awaited => simpa [hrun, hinner.run_eq] using h

/-- No line break. -/
def oneLine : Texture where
  Holds text := '\n' ∉ text.toList
  plain h := h.2
  insert h hinner := by simp_all

end Texture

end Offside.Text

namespace Offside

open Branching (nodes forall_nodes)
open JavaScript (texts_eq_map entryTexts_eq_map paramTexts_eq_map assignmentTexts_eq_map)
open Text (IsPlain Texture)

variable {T : Texture}

/-! ## Expressions of a script -/

namespace Script

variable {t : Expr}

theorem isPlain_numberText (x : Binary64) : IsPlain (numberText x) := by
  unfold numberText
  split
  · rename_i hfinite
    have hbound : x.magnitude < Binary64.infinity := by simpa [Binary64.isFinite] using hfinite
    have hnumber : x.isNaN = false := by simpa [Binary64.isNaN] using hbound.le
    obtain ⟨whole, fraction, hnumeral, -⟩ := Binary64.exists_numeral_magnitudeText hbound
    have hmagnitude : ∀ c ∈ Binary64.magnitudeText x.magnitude, Text.isBracket c = false ∧ c ≠ '\n' := by
      rw [hnumeral.eq]
      intro c hc
      split at hc
      · exact Text.plain_of_isDigit (hnumeral.isDigit_whole c hc)
      · rcases List.mem_append.1 hc with hwhole | hrest
        · exact Text.plain_of_isDigit (hnumeral.isDigit_whole c hwhole)
        · rcases List.mem_cons.1 hrest with rfl | hfraction
          · decide
          · exact Text.plain_of_isDigit (hnumeral.isDigit_fraction c hfraction)
    have hsign : Text.isBracket '-' = false ∧ '-' ≠ '\n' := by decide
    apply Text.isPlain_of_forall
    cases hnegative : x.negative <;> simpa [Binary64.text, hnumber, hfinite, hnegative, hsign] using hmagnitude
  · decide

theorem holds_commas {texts : List String} (h : ∀ text ∈ texts, T.Holds text) : T.Holds (commas texts) :=
  T.intercalate (by decide) h

theorem holds_paramText {p : Param Expr} (hname : T.Holds p.name) (hdefault : ∀ t ∈ p.default?, T.Holds t.text) :
    T.Holds (paramText p) := by
  cases p with
  | plain name =>
    rw [paramText]
    exact hname
  | optional name value =>
    rw [paramText]
    exact T.append (T.append hname (T.plain (by decide))) (hdefault value rfl)
  | rest name =>
    rw [paramText]
    exact T.append (T.plain (by decide)) hname

theorem holds_params {params : List (Param Expr)} (hnames : ∀ p ∈ params, T.Holds p.name)
    (hdefaults : ∀ value ∈ params.filterMap Param.default?, T.Holds value.text) :
    T.Holds (commas (paramTexts params)) := by
  apply holds_commas
  rw [paramTexts_eq_map, List.forall_mem_map]
  intro p hp
  exact holds_paramText (hnames p hp) fun t ht => hdefaults t (List.mem_filterMap.2 ⟨p, hp, ht⟩)

theorem holds_assignmentText {assignment : String × Expr} (hname : T.Holds assignment.1)
    (hvalue : T.Holds assignment.2.text) : T.Holds (assignmentText assignment) := by
  obtain ⟨name, value⟩ := assignment
  rw [assignmentText]
  exact T.append (T.append (T.append hname (T.plain (by decide))) hvalue) (T.plain (by decide))

/-- The words that stand in an expression of a script, but not in a part of it. -/
@[simp]
def Expr.words : Expr → List String
  | .name word => [word]
  | .literal value => [literalText value]
  | .member _ field => [field]
  | .function _ params prologue _ => params.map Param.name ++ prologue.map Prod.fst
  | _ => []

/-- The form of an expression adds plain text around its parts. -/
theorem holds_text (hwords : ∀ word ∈ t.words, T.Holds word) (hparts : ∀ part ∈ t.parts, T.Holds part.text) :
    T.Holds t.text := by
  have htexts {elements : List Expr} (h : ∀ part ∈ elements, T.Holds part.text) :
      T.Holds (commas (texts elements)) := by
    rw [texts_eq_map]
    exact holds_commas (List.forall_mem_map.2 h)
  cases t with
  | name word | literal value =>
    rw [Expr.text]
    exact hwords _ List.mem_cons_self
  | paren inner =>
    rw [Expr.text]
    exact T.between "(" ")" (by decide) (hparts inner List.mem_cons_self)
  | array elements =>
    rw [Expr.text]
    exact T.between "[" "]" (by decide) (htexts hparts)
  | object entries =>
    rw [Expr.text, entryTexts_eq_map]
    refine T.between "\x7b" "\x7d" (by decide) (holds_commas (List.forall_mem_map.2 ?_))
    intro entry hentry
    have hboth : ∀ part ∈ [entry.1, entry.2], T.Holds part.text :=
      fun part hpart => hparts part (List.mem_flatMap.2 ⟨entry, hentry, hpart⟩)
    rw [entryText]
    exact T.append (T.append (hboth _ (by simp)) (T.plain (by decide))) (hboth _ (by simp))
  | member object field =>
    rw [Expr.text]
    exact T.append (T.append (hparts object List.mem_cons_self) (T.plain (by decide))) (hwords field List.mem_cons_self)
  | index object position =>
    obtain ⟨hobject, hposition⟩ := List.forall_mem_cons.1 hparts
    have hbracket := T.between "[" "]" (by decide) (hposition position List.mem_cons_self)
    simpa only [Expr.text, String.append_assoc] using T.append hobject hbracket
  | call callee arguments =>
    obtain ⟨hcallee, harguments⟩ := List.forall_mem_cons.1 hparts
    have hlist := T.between "(" ")" (by decide) (htexts harguments)
    simpa only [Expr.text, String.append_assoc] using T.append hcallee hlist
  | updateAfter op target =>
    rw [Expr.text]
    exact T.append (hparts target List.mem_cons_self) (T.plain (by cases op <;> decide))
  | updateBefore op operand | unary op operand | worded op operand =>
    rw [Expr.text]
    exact T.append (T.plain (by cases op <;> decide)) (hparts operand List.mem_cons_self)
  | binary op left right =>
    simp only [Expr.parts, List.forall_mem_cons] at hparts
    have hop : T.Holds (" " ++ op.text ++ " ") := T.plain (by cases op <;> decide)
    simpa only [Expr.text, String.append_assoc] using T.append (T.append hparts.1 hop) hparts.2.1
  | conditional condition yes no =>
    simp only [Expr.parts, List.forall_mem_cons] at hparts
    have hyes := T.append (T.append hparts.1 (T.plain (by decide : IsPlain " ? "))) hparts.2.1
    rw [Expr.text]
    exact T.append (T.append hyes (T.plain (by decide))) hparts.2.2.1
  | assign target value =>
    simp only [Expr.parts, List.forall_mem_cons] at hparts
    rw [Expr.text]
    exact T.append (T.append hparts.1 (T.plain (by decide))) hparts.2.1
  | function isAsync params prologue result =>
    simp only [Expr.words, Expr.parts, List.forall_mem_append, List.forall_mem_map] at hwords hparts
    have hreturn := T.between "return " ";" (by decide) (hparts.2 result List.mem_cons_self)
    have hstatements : T.Holds (String.intercalate " " (assignmentTexts prologue ++ ["return " ++ result.text ++ ";"])) := by
      apply T.intercalate (by decide)
      rw [assignmentTexts_eq_map, List.forall_mem_append, List.forall_mem_map, List.forall_mem_singleton]
      refine ⟨fun assignment hassignment => ?_, hreturn⟩
      exact holds_assignmentText (hwords.2 assignment hassignment) (hparts.1.2 assignment hassignment)
    have hheader : T.Holds (asyncText isAsync ++ "function (" ++ commas (paramTexts params) ++ ") ") :=
      T.insert (T.plain (by cases isAsync <;> decide)) (holds_params hwords.1 hparts.1.1)
    have hfunction := T.append hheader (T.between "\x7b " " \x7d" (by decide) hstatements)
    have hjoint : ") \x7b " = ") " ++ "\x7b " := rfl
    simpa only [Expr.text, String.append_assoc, hjoint] using hfunction

/-- The property holds of all words in an expression. -/
def Expr.Tame (T : Texture) (t : Expr) : Prop := ∀ node ∈ nodes t, ∀ word ∈ node.words, T.Holds word

theorem Expr.tame_iff : t.Tame T ↔ (∀ word ∈ t.words, T.Holds word) ∧ ∀ part ∈ t.parts, part.Tame T :=
  forall_nodes

/-- A property that holds of the words of an expression holds of its text. -/
theorem Expr.Tame.holds_text (h : t.Tame T) : T.Holds t.text := by
  induction t using Branching.induction with
  | step t ih =>
    obtain ⟨hwords, hparts⟩ := Expr.tame_iff.1 h
    exact Script.holds_text hwords fun part hpart => ih part hpart (hparts part hpart)

namespace Expr

variable {target : Expr}

@[simp]
theorem tame_name {word : String} : (Expr.name word).Tame T ↔ T.Holds word := by
  rw [tame_iff]
  simp [words, parts]

@[simp]
theorem tame_literal {value : Literal} : (Expr.literal value).Tame T ↔ T.Holds (literalText value) := by
  rw [tame_iff]
  simp [words, parts]

@[simp]
theorem tame_paren {inner : Expr} : (Expr.paren inner).Tame T ↔ inner.Tame T := by
  rw [tame_iff]
  simp [words, parts]

@[simp]
theorem tame_array {elements : List Expr} : (Expr.array elements).Tame T ↔ ∀ t ∈ elements, t.Tame T := by
  rw [tame_iff]
  simp [words, parts]

@[simp]
theorem tame_object {entries : List (Expr × Expr)} :
    (Expr.object entries).Tame T ↔ ∀ entry ∈ entries, entry.1.Tame T ∧ entry.2.Tame T := by
  rw [tame_iff]
  simp only [words, parts, List.forall_mem_flatMap, List.forall_mem_cons]
  simp

@[simp]
theorem tame_member {word : String} : (Expr.member target word).Tame T ↔ T.Holds word ∧ target.Tame T := by
  rw [tame_iff]
  simp [words, parts]

@[simp]
theorem tame_index {position : Expr} : (Expr.index target position).Tame T ↔ target.Tame T ∧ position.Tame T := by
  rw [tame_iff]
  simp [words, parts]

@[simp]
theorem tame_call {callee : Expr} {arguments : List Expr} :
    (Expr.call callee arguments).Tame T ↔ callee.Tame T ∧ ∀ t ∈ arguments, t.Tame T := by
  rw [tame_iff]
  simp [words, parts]

@[simp]
theorem tame_updateAfter {op : UpdateOp} : (Expr.updateAfter op target).Tame T ↔ target.Tame T := by
  rw [tame_iff]
  simp [words, parts]

@[simp]
theorem tame_updateBefore {op : UpdateOp} : (Expr.updateBefore op target).Tame T ↔ target.Tame T := by
  rw [tame_iff]
  simp [words, parts]

@[simp]
theorem tame_unary {op : UnaryOp} {operand : Expr} : (Expr.unary op operand).Tame T ↔ operand.Tame T := by
  rw [tame_iff]
  simp [words, parts]

@[simp]
theorem tame_worded {op : WordOp} {operand : Expr} : (Expr.worded op operand).Tame T ↔ operand.Tame T := by
  rw [tame_iff]
  simp [words, parts]

@[simp]
theorem tame_binary {op : Operator} {left right : Expr} :
    (Expr.binary op left right).Tame T ↔ left.Tame T ∧ right.Tame T := by
  rw [tame_iff]
  simp [words, parts]

@[simp]
theorem tame_conditional {condition yes no : Expr} :
    (Expr.conditional condition yes no).Tame T ↔ condition.Tame T ∧ yes.Tame T ∧ no.Tame T := by
  rw [tame_iff]
  simp [words, parts]

@[simp]
theorem tame_assign {value : Expr} : (Expr.assign target value).Tame T ↔ target.Tame T ∧ value.Tame T := by
  rw [tame_iff]
  simp [words, parts]

end Expr

@[simp]
theorem tame_parenIf {needed : Bool} {t : Expr} : (parenIf needed t).Tame T ↔ t.Tame T := by
  cases needed <;> simp [parenIf]

@[simp]
theorem tame_callHelper {helper : Helper} {arguments : List Expr} :
    (callHelper helper arguments).Tame T ↔ ∀ t ∈ arguments, t.Tame T := by
  have hname : T.Holds helper.name := T.plain (by cases helper <;> decide)
  simp [callHelper, hname]

@[simp]
theorem tame_lengthOf {object : Expr} : (lengthOf object).Tame T ↔ object.Tame T := by
  simp +decide [lengthOf, T.plain]

@[simp]
theorem tame_zero : zero.Tame T := Expr.tame_literal.2 (T.plain (by decide +kernel))

@[simp]
theorem tame_splice {target start count value : Expr} :
    (splice target start count value).Tame T ↔ target.Tame T ∧ start.Tame T ∧ count.Tame T ∧ value.Tame T := by
  simp +decide [splice, T.plain, and_assoc]

end Script

/-! ## Lowered expressions -/

/-- The words that a program gives to an expression, but not to a part of it. -/
def Expr.words : Expr → List String
  | .literal value => [Script.literalText value]
  | e => e.names.map Ident.text

section Params

variable {params : List (Param Expr)} (hnames : ∀ name ∈ params.flatMap Param.names, T.Holds name.text)

include hnames

theorem holds_name_lowerParams : ∀ p ∈ lowerParams params, T.Holds p.name := by
  have htexts : ∀ text ∈ (lowerParams params).map Script.Param.name, T.Holds text := by
    rw [name_lowerParams, List.forall_mem_map]
    exact fun p hp => hnames p.name (List.mem_flatMap.2 ⟨p, hp, List.mem_cons_self⟩)
  exact fun p hp => htexts p.name (List.mem_map_of_mem hp)

variable (hdefaults : ∀ value ∈ params.filterMap Param.default, value.lower.Tame T)

include hdefaults

omit hnames in
theorem tame_default_lowerParams : ∀ t ∈ (lowerParams params).filterMap Script.Param.default?, t.Tame T := by
  intro t ht
  obtain ⟨lowered, hlowered, hdefault⟩ := List.mem_filterMap.1 ht
  rw [lowerParams_eq_map] at hlowered
  obtain ⟨⟨name, kind, default, cast⟩, hp, rfl⟩ := List.mem_map.1 hlowered
  cases kind with
  | wildcard => cases hdefault
  | standard =>
    cases default with
    | none => cases hdefault
    | some value =>
      cases hdefault
      exact hdefaults value (List.mem_filterMap.2 ⟨_, hp, rfl⟩)

/-- What a function first does with its arguments is written with the names of its parameters. -/
theorem tame_prologue : ∀ assignment ∈ prologue params, T.Holds assignment.1 ∧ assignment.2.Tame T := by
  intro assignment hassignment
  rw [prologue, lowerDefaults_eq_filterMap, lowerCasts_eq_filterMap] at hassignment
  cases List.mem_append.1 hassignment with
  | inl hdefault =>
    obtain ⟨⟨name, kind, default, cast⟩, hp, hassigned⟩ := List.mem_filterMap.1 hdefault
    have hname : T.Holds name.text := hnames name (List.mem_flatMap.2 ⟨_, hp, List.mem_cons_self⟩)
    cases kind with
    | standard => simp [lowerDefault] at hassigned
    | wildcard =>
      cases default with
      | none => simp [lowerDefault, lowerOperand?] at hassigned
      | some value =>
        have hvalue := hdefaults value (List.mem_filterMap.2 ⟨_, hp, rfl⟩)
        simp only [lowerDefault, lowerOperand?, Option.map_some, Option.some.injEq] at hassigned
        simp [← hassigned, hname, hvalue]
  | inr hcast =>
    obtain ⟨⟨name, kind, default, cast⟩, hp, hassigned⟩ := List.mem_filterMap.1 hcast
    have hname : T.Holds name.text := hnames name (List.mem_flatMap.2 ⟨_, hp, List.mem_cons_self⟩)
    cases cast with
    | none => cases hassigned
    | some called =>
      have hcalled : T.Holds called.text := hnames called (List.mem_flatMap.2 ⟨_, hp, by simp [Param.names]⟩)
      simp only [castOf, Option.map_some, Option.some.injEq] at hassigned
      simp [← hassigned, hname, hcalled]

end Params

/-- One step of the lowering of expressions. -/
theorem Expr.tame_lower_step {e : Expr} (hwords : ∀ word ∈ e.words, T.Holds word)
    (hparts : ∀ part ∈ e.parts, part.lower.Tame T) : e.lower.Tame T := by
  cases e with
  | lambda params body isAsync =>
    simp only [Expr.words, Expr.names, List.forall_mem_map] at hwords
    simp only [Expr.parts, List.forall_mem_append, List.forall_mem_singleton] at hparts
    rw [Expr.lower, Script.Expr.tame_iff]
    have hprologue := tame_prologue hwords hparts.1
    rw [prologue] at hprologue
    generalize lowerDefaults params ++ lowerCasts params = assignments at hprologue
    simp only [Script.Expr.words, Script.Expr.parts, List.forall_mem_append, List.forall_mem_map,
      List.forall_mem_singleton]
    exact ⟨⟨holds_name_lowerParams hwords, fun a ha => (hprologue a ha).1⟩,
      ⟨tame_default_lowerParams hparts.1, fun a ha => (hprologue a ha).2⟩, hparts.2⟩
  | binary op left right =>
    simp only [Expr.parts, List.forall_mem_cons] at hparts
    cases op <;> simp only [Expr.lower] <;> try split
    all_goals simp +decide [hparts, T.plain]
  | subscript object start colon stop =>
    cases colon <;> cases start <;> cases stop <;> simp_all +decide [Expr.lower, Expr.parts, lower?, T.plain]
  | assignSubscript object start colon stop value =>
    cases colon <;> cases start <;> cases stop <;> simp_all [Expr.lower, Expr.parts, lower?]
  | ternary condition yes no =>
    cases no <;> simp_all +decide [Expr.lower, Expr.parts, lowerOperand?, T.plain]
  | worded op operand =>
    cases op <;> simp_all [Expr.lower, Expr.parts]
  | dictionary entries =>
    simp only [Expr.parts, List.forall_mem_flatMap, List.forall_mem_cons] at hparts
    rw [Expr.lower, lowerEntries_eq_map, Script.Expr.tame_object, List.forall_mem_map]
    exact fun entry hentry => ⟨(hparts entry hentry).1, (hparts entry hentry).2.1⟩
  | _ =>
    simp_all [Expr.lower, Expr.parts, Expr.words, Expr.names, lowerList_eq_map]

theorem Expr.tame_lower {e : Expr} (h : ∀ node ∈ nodes e, ∀ word ∈ node.words, T.Holds word) : e.lower.Tame T := by
  induction e using Branching.induction with
  | step e ih =>
    obtain ⟨hwords, hparts⟩ := forall_nodes.1 h
    exact Expr.tame_lower_step hwords fun part hpart => ih part hpart (hparts part hpart)

end Offside
