import Offside.Proofs.JavaScript.Spelling

/-!
# Reading spellings back

The spelling of a formed tree is read back as the tree without its parentheses.  A tree is read in as many ways
as there are places it can stand in: in front of a further suffix (`Spine`), as an operand, as the condition of
a conditional, or as a whole expression.  `Reads` collects them, each under the rank it needs, and is shown by
induction over formed trees.
-/

namespace Offside.JavaScript

open Script (Operator)

variable {t value result : Tree} {rest input : List Lexeme} {l : Lexeme} {rounds n : Nat} {text : String}
  {tight : List (List Operator)} {prologue : List (String × Tree)}

/-! ## Trees without parentheses -/

mutual

/-- A tree without its parentheses.  The word `undefined` is a name like any other. -/
def bare : Tree → Tree
  | .name text => .name text
  | .literal .undefined => .name "undefined"
  | .literal value => .literal value
  | .paren inner => bare inner
  | .array elements => .array (bareList elements)
  | .object entries => .object (bareEntries entries)
  | .member object name => .member (bare object) name
  | .index object position => .index (bare object) (bare position)
  | .call callee arguments => .call (bare callee) (bareList arguments)
  | .updateAfter op target => .updateAfter op (bare target)
  | .updateBefore op target => .updateBefore op (bare target)
  | .unary op operand => .unary op (bare operand)
  | .worded op operand => .worded op (bare operand)
  | .binary op left right => .binary op (bare left) (bare right)
  | .conditional condition yes no => .conditional (bare condition) (bare yes) (bare no)
  | .assign target value => .assign (bare target) (bare value)
  | .function isAsync params prologue result =>
    .function isAsync (bareParams params) (bareAssignments prologue) (bare result)

def bareList : List Tree → List Tree
  | [] => []
  | t :: ts => bare t :: bareList ts

def bareEntry : Tree × Tree → Tree × Tree
  | (key, value) => (bare key, bare value)

def bareEntries : List (Tree × Tree) → List (Tree × Tree)
  | [] => []
  | e :: es => bareEntry e :: bareEntries es

def bareParam : Script.Param Tree → Script.Param Tree
  | .plain name => .plain name
  | .optional name default => .optional name (bare default)
  | .rest name => .rest name

def bareParams : List (Script.Param Tree) → List (Script.Param Tree)
  | [] => []
  | p :: ps => bareParam p :: bareParams ps

def bareAssignment : String × Tree → String × Tree
  | (name, value) => (name, bare value)

def bareAssignments : List (String × Tree) → List (String × Tree)
  | [] => []
  | a :: as => bareAssignment a :: bareAssignments as

end

theorem bareList_eq_map (ts : List Tree) : bareList ts = ts.map bare :=
  eq_map_of_cons rfl (fun _ _ => rfl) ts

theorem bareEntries_eq_map (entries : List (Tree × Tree)) : bareEntries entries = entries.map bareEntry :=
  eq_map_of_cons rfl (fun _ _ => rfl) entries

theorem bareParams_eq_map (params : List (Script.Param Tree)) : bareParams params = params.map bareParam :=
  eq_map_of_cons rfl (fun _ _ => rfl) params

theorem bareAssignments_eq_map (assignments : List (String × Tree)) :
    bareAssignments assignments = assignments.map bareAssignment :=
  eq_map_of_cons rfl (fun _ _ => rfl) assignments

theorem isTarget_bare (h : isTarget t = true) : isTarget (bare t) = true := by
  cases t <;> simp_all [isTarget, bare]

/-! ## What stands behind a tree -/

/-- The lexemes behind a whole expression. -/
def isCloser : Lexeme → Bool
  | .mark .rightParen | .mark .rightBracket | .mark .rightBrace | .mark .comma | .mark .semicolon
  | .mark .colon => true
  | _ => false

/-- The lexemes that can start an item of a list. -/
def opens (l : Lexeme) : Bool := !isCloser l

/-- The lexemes behind the condition of a conditional or the target of an assignment, and those above. -/
def isOuter : Lexeme → Bool
  | .mark .question | .mark .equal => true
  | lexeme => isCloser lexeme

/-- The lexemes behind an operand, and those above. -/
def isBehindOperand : Lexeme → Bool
  | .mark (.operator _) => true
  | lexeme => isOuter lexeme

def isMark : Lexeme → Bool
  | .mark _ => true
  | _ => false

/-- The next lexeme, if there is one, has a property. -/
def NextIs (property : Lexeme → Bool) (rest : List Lexeme) : Prop := ∀ l ∈ rest.head?, property l = true

theorem NextIs.mono {p q : Lexeme → Bool} (hpq : ∀ l, p l = true → q l = true) (h : NextIs p rest) : NextIs q rest :=
  fun l hl => hpq l (h l hl)

theorem NextIs.cons {p : Lexeme → Bool} (h : p l = true) (rest : List Lexeme) : NextIs p (l :: rest) := by
  rintro _ ⟨⟩
  exact h

theorem isOuter_of_isCloser (l : Lexeme) (h : isCloser l = true) : isOuter l = true := by
  unfold isOuter
  split <;> simp_all

theorem isBehindOperand_of_isOuter (l : Lexeme) (h : isOuter l = true) : isBehindOperand l = true := by
  unfold isBehindOperand
  split <;> simp_all

theorem isMark_of_isBehindOperand (l : Lexeme) (h : isBehindOperand l = true) : isMark l = true := by
  cases l <;> simp_all [isBehindOperand, isOuter, isCloser, isMark]

/-! ## Lists -/

theorem Nested.rounds_ofDepth (n : Nat) : (Nested.ofDepth n).rounds = n := by
  cases n <;> rfl

@[simp]
theorem taking_self (sign : Mark) (rest : List Lexeme) : taking sign (.mark sign :: rest) = some rest := by
  simp [taking]

/-- Items with commas between them are read one by one. -/
theorem items_separated {α β : Type} {item : Reading β} {spell : α → List Lexeme} {value : α → β}
    {depth : Nat} {close : Mark} (hclose : isCloser (.mark close) = true) (hcomma : close ≠ .comma)
    {first : α} {others : List α}
    (hitem : ∀ x ∈ first :: others, ∀ rest, (spell x ++ rest).length < depth → NextIs isCloser rest →
      item (spell x ++ rest) = some (value x, rest)) (hrounds : others.length < rounds)
    (hdepth : (separated ((first :: others).map spell) ++ .mark close :: rest).length < depth) :
    items item rounds (separated ((first :: others).map spell) ++ .mark close :: rest) =
      some ((first :: others).map value, .mark close :: rest) := by
  obtain ⟨rounds, rfl⟩ : ∃ more, rounds = more + 1 := ⟨rounds - 1, by omega⟩
  induction others generalizing first rounds with
  | nil =>
    have hfirst := hitem first List.mem_cons_self (.mark close :: rest)
      (by simpa [separated] using hdepth) (NextIs.cons hclose rest)
    simp only [separated, List.map_cons, List.map_nil, List.intercalate_singleton, items, hfirst]
    simp only [Option.bind_eq_bind, Option.bind_some]
    split
    · simp_all
    · rfl
  | cons next others ih =>
    obtain ⟨rounds, rfl⟩ : ∃ more, rounds = more + 1 := ⟨rounds - 1, by simp at hrounds; omega⟩
    have hsplit : separated ((first :: next :: others).map spell) ++ .mark close :: rest =
        spell first ++ .mark .comma :: (separated ((next :: others).map spell) ++ .mark close :: rest) := by
      simp [separated, List.intercalate_cons_cons]
    rw [hsplit] at hdepth ⊢
    have hfirst := hitem first List.mem_cons_self _ hdepth (NextIs.cons rfl _)
    have hothers := ih (fun x hx => hitem x (List.mem_cons_of_mem first hx))
      (by simp at hdepth ⊢; omega) rounds (by simpa using hrounds)
    rw [items, hfirst]
    simp only [Option.bind_eq_bind, Option.bind_some, hothers]
    rfl

theorem length_le_separated (spellings : List (List Lexeme)) : spellings.length ≤ (separated spellings).length + 1 := by
  induction spellings with
  | nil => simp
  | cons first others ih =>
    cases others with
    | nil => simp
    | cons next others =>
      rw [separated, List.intercalate_cons_cons] at *
      simp only [List.length_cons, List.length_append, List.length_nil] at ih ⊢
      omega

theorem head?_separated (first : List Lexeme) (others : List (List Lexeme)) (rest : List Lexeme)
    (h : first ≠ []) : (separated (first :: others) ++ rest).head? = first.head? := by
  cases others with
  | nil => cases first <;> simp_all [separated]
  | cons next others => cases first <;> simp_all [separated, List.intercalate_cons_cons]

theorem taking_of_head? {sign : Mark} (h : input.head? ≠ some (.mark sign)) : taking sign input = none := by
  unfold taking
  split
  · rename_i other rest
    rw [if_neg]
    rintro rfl
    simp at h
  · rfl

/-- Items up to a closing mark are read back, if none of them starts with one. -/
theorem enclosed_separated {α β : Type} {item : Reading β} {spell : α → List Lexeme} {value : α → β}
    {depth : Nat} (close : Mark) (hclose : isCloser (.mark close) = true) (hcomma : close ≠ .comma)
    {xs : List α} (hhead : ∀ x ∈ xs, ∃ l ∈ (spell x).head?, opens l = true)
    (hitem : ∀ x ∈ xs, ∀ rest, (spell x ++ rest).length < depth → NextIs isCloser rest →
      item (spell x ++ rest) = some (value x, rest))
    (hdepth : (separated (xs.map spell) ++ .mark close :: rest).length < depth) :
    enclosed close item depth (separated (xs.map spell) ++ .mark close :: rest) =
      some (xs.map value, rest) := by
  cases xs with
  | nil => simp [enclosed, separated]
  | cons first others =>
    obtain ⟨l, hl, hopen⟩ := hhead first List.mem_cons_self
    have hne : spell first ≠ [] := by
      intro hnil
      simp [hnil] at hl
    have htaking : taking close (separated ((first :: others).map spell) ++ .mark close :: rest) = none := by
      apply taking_of_head?
      rw [List.map_cons, head?_separated _ _ _ hne]
      intro hsame
      rw [hsame] at hl
      cases hl
      simp [opens, hclose] at hopen
    have hshort := length_le_separated ((first :: others).map spell)
    have hrounds : others.length < depth := by
      simp at hshort hdepth
      omega
    have hitems := items_separated hclose hcomma hitem hrounds hdepth
    rw [enclosed, htaking]
    simp only [Option.bind_eq_bind, hitems, Option.bind_some, taking_self]

section
variable {letters : Letters}

/-! ## The first lexeme -/

theorem not_mem_reserved (h : isIdentifier letters text = true) : text ∉ reserved := by
  simp only [isIdentifier, Bool.and_eq_true, Bool.not_eq_true', List.contains_eq_mem, decide_eq_false_iff_not]
    at h
  exact h.2

theorem wordOp?_of_not_mem (h : text ∉ reserved) : wordOp? text = none := by
  unfold wordOp?
  split
  case h_5 => rfl
  all_goals exact absurd (by decide) h

/-- A lexeme that starts an operand: no operator is taken for it. -/
def startsOperand (l : Lexeme) : Bool := opens l && (unaryOp? l).isNone && (updateOp? l).isNone

theorem startsOperand_word (h : text ∉ reserved) : startsOperand (.word text) = true := by
  simp [startsOperand, opens, isCloser, unaryOp?, updateOp?, wordOp?_of_not_mem h]

theorem opens_of_startsOperand (h : startsOperand l = true) : opens l = true := by
  simp only [startsOperand, Bool.and_eq_true] at h
  exact h.1.1

/-- The first lexeme of a tree closes nothing, and no operator starts an operand. -/
theorem head_spelling (h : Formed letters t) :
    ∃ l ∈ (spelling t).head?, opens l = true ∧ (2 ≤ rank t → startsOperand l = true) := by
  induction h with
  | name hname =>
    have hstarts := startsOperand_word (not_mem_reserved hname)
    exact ⟨_, rfl, opens_of_startsOperand hstarts, fun _ => hstarts⟩
  | number | string | null | undefined | paren | array | object =>
    exact ⟨_, rfl, rfl, fun _ => rfl⟩
  | boolean value => cases value <;> exact ⟨_, rfl, rfl, fun _ => rfl⟩
  | member _ hobject _ ih | index _ hobject _ ih _ | call _ hobject _ ih _ =>
    obtain ⟨l, hl, hopens, hstarts⟩ := ih
    have hstarts := hstarts (by simp [rank_of_isObject hobject])
    exact ⟨l, by simp_all [spelling], hopens, fun _ => hstarts⟩
  | updateAfter op _ htarget ih =>
    obtain ⟨l, hl, hopens, hstarts⟩ := ih
    have hstarts := hstarts (by simp [rank_of_isTarget htarget])
    exact ⟨l, by simp_all [spelling], hopens, fun _ => hstarts⟩
  | binary _ _ _ _ _ ih _ | conditional _ _ _ _ ih _ _ | assign _ _ _ ih _ =>
    obtain ⟨l, hl, hopens, -⟩ := ih
    exact ⟨l, by simp_all [spelling], hopens, by simp [rank]⟩
  | updateBefore op | unary op => cases op <;> exact ⟨_, rfl, rfl, by simp [rank]⟩
  | worded => exact ⟨_, rfl, rfl, by simp [rank]⟩
  | function isAsync => cases isAsync <;> exact ⟨_, rfl, rfl, by simp [rank]⟩

theorem Formed.starts (h : Formed letters t) (hrank : 2 ≤ rank t) :
    ∃ l ∈ (spelling t).head?, startsOperand l = true := by
  obtain ⟨l, hl, -, hstarts⟩ := head_spelling h
  exact ⟨l, hl, hstarts hrank⟩

/-! ## Ways of reading a tree -/

/-- A tree is read in front of further suffixes: a primary expression first, then suffix after suffix. -/
def Spine (t : Tree) : Prop :=
  ∀ n rest, (spelling t ++ rest).length ≤ n → NextIs isMark rest →
    ∃ object middle steps, primary (.ofDepth n) (spelling t ++ rest) = some (object, middle) ∧
      steps < (spelling t).length ∧ ∀ rounds, suffixes (.ofDepth n) (rounds + steps) object middle =
        suffixes (.ofDepth n) rounds (bare t) rest

/-- A reader gives the tree back in front of certain lexemes. -/
def ReadBy (reader : Nested → Reading Tree) (behind : Lexeme → Bool) (t : Tree) : Prop :=
  ∀ n rest, (spelling t ++ rest).length ≤ n → NextIs behind rest →
    reader (.ofDepth n) (spelling t ++ rest) = some (bare t, rest)

/-- The lexemes behind what can be incremented. -/
def isBehindTarget : Lexeme → Bool
  | .mark .increment | .mark .decrement => true
  | lexeme => isBehindOperand lexeme

theorem isBehindTarget_of_isBehindOperand (l : Lexeme) (h : isBehindOperand l = true) : isBehindTarget l = true := by
  unfold isBehindTarget
  split <;> simp_all

theorem isMark_of_isBehindTarget (l : Lexeme) (h : isBehindTarget l = true) : isMark l = true := by
  unfold isBehindTarget at h
  split at h
  · rfl
  · rfl
  · exact isMark_of_isBehindOperand l h

theorem suffixes_stop {nested : Nested} (rounds : Nat) (object : Tree)
    (h : NextIs isBehindTarget rest) : suffixes nested (rounds + 1) object rest = some (object, rest) := by
  rw [suffixes.eq_def]
  split
  case h_1 hzero => cases hzero
  case h_5 => simp_all
  all_goals exact absurd (h _ rfl) (by simp [isBehindTarget, isBehindOperand, isOuter, isCloser])

theorem Spine.leftHandSide (h : Spine t) : ReadBy leftHandSide isBehindTarget t := by
  intro n rest hlength hrest
  obtain ⟨object, middle, steps, hprimary, hsteps, hsuffixes⟩ :=
    h n rest hlength (hrest.mono isMark_of_isBehindTarget)
  obtain ⟨rounds, hrounds⟩ : ∃ rounds, n = rounds + 1 + steps :=
    ⟨n - steps - 1, by simp at hlength; omega⟩
  rw [JavaScript.leftHandSide, hprimary]
  simp only [Option.bind_eq_bind, Option.bind_some, Nested.rounds_ofDepth]
  have hrun := hsuffixes (rounds + 1)
  rw [← hrounds] at hrun
  rw [hrun, suffixes_stop rounds (bare t) hrest]

theorem updateOp?_of_isBehindOperand (h : NextIs isBehindOperand rest) : rest.head?.bind updateOp? = none := by
  cases rest with
  | nil => rfl
  | cons l rest =>
    rw [List.head?_cons, Option.bind_some]
    unfold updateOp?
    split
    case h_3 => rfl
    all_goals exact absurd (h _ rfl) (by simp [isBehindOperand, isOuter, isCloser])

/-- No operator is taken at the front of an operand. -/
theorem head?_operand (hstart : ∃ l ∈ (spelling t).head?, startsOperand l = true)
    (rest : List Lexeme) : (spelling t ++ rest).head?.bind unaryOp? = none ∧
      (spelling t ++ rest).head?.bind updateOp? = none := by
  obtain ⟨l, hl, hstarts⟩ := hstart
  have hhead : (spelling t ++ rest).head? = some l := by simp_all
  simp only [startsOperand, Bool.and_eq_true, Option.isNone_iff_eq_none] at hstarts
  rw [hhead]
  exact ⟨hstarts.1.2, hstarts.2⟩

theorem updateOp?_updateMark (op : UpdateOp) : updateOp? (.mark (updateMark op)) = some op := by
  cases op <;> rfl

theorem unaryOp?_unaryMark (op : UnaryOp) : unaryOp? (.mark (unaryMark op)) = some (.unary op) := by
  cases op <;> rfl

theorem unaryOp?_wordText {op : WordOp} (h : op ≠ .new) :
    unaryOp? (.word (Script.wordText op)) = some (.worded op) := by
  cases op <;> first | rfl | exact absurd rfl h

theorem Spine.update (h : Spine t)
    (hstart : ∃ l ∈ (spelling t).head?, startsOperand l = true) : ReadBy update isBehindOperand t := by
  intro n rest hlength hrest
  have hleft := h.leftHandSide n rest hlength (hrest.mono isBehindTarget_of_isBehindOperand)
  rw [JavaScript.update, (head?_operand hstart rest).2, postfixed, hleft]
  simp only [Option.bind_eq_bind, Option.bind_some, updateOp?_of_isBehindOperand hrest]

/-! ### Infix operators -/

/-- The operator that comes next, if there is one, belongs to no level of a list. -/
def Outside (levels : List (List Operator)) (rest : List Lexeme) : Prop :=
  ∀ op, rest.head? = some (.mark (.operator op)) → ∀ level ∈ levels, op ∉ level

theorem operands_stop {level : List Operator} (operand : Reading Tree) (rounds : Nat) (left : Tree)
    (h : Outside [level] rest) : operands level operand (rounds + 1) left rest = some (left, rest) := by
  cases rest with
  | nil => rfl
  | cons l rest =>
    by_cases hop : ∃ op, l = .mark (.operator op)
    · obtain ⟨op, rfl⟩ := hop
      have hnot : op ∉ level := h op rfl level List.mem_cons_self
      rw [operands, if_neg (by simpa using hnot)]
    · rw [operands]
      rintro op input ⟨⟩
      exact hop ⟨op, rfl⟩

theorem infixed_cons {nested : Nested} {level : List Operator}
    {left : Tree} (h : infixed nested tight input = some (left, rest)) : infixed nested (level :: tight) input =
      operands level (infixed nested tight) nested.rounds left rest := by
  simp only [infixed, h, Option.bind_eq_bind, Option.bind_some]

/-- What a tighter level reads is read by all looser ones as well. -/
theorem infixed_append {nested : Nested} (hrounds : 0 < nested.rounds)
    (h : infixed nested tight input = some (value, rest)) (loose : List (List Operator)) (hrest : Outside loose rest) :
    infixed nested (loose ++ tight) input = some (value, rest) := by
  obtain ⟨rounds, hrounds⟩ : ∃ rounds, nested.rounds = rounds + 1 := ⟨nested.rounds - 1, by omega⟩
  induction loose with
  | nil => exact h
  | cons level loose ih =>
    have hinner := ih fun op hop other hother => hrest op hop other (List.mem_cons_of_mem level hother)
    rw [List.cons_append, infixed_cons hinner, hrounds]
    exact operands_stop _ rounds value fun op hop other hother =>
      hrest op hop other (by simp_all)

theorem levels_pairwise : levels.Pairwise fun level other => ∀ op ∈ level, op ∉ other := by
  decide

/-- Every operator but the power has a level of its own. -/
theorem exists_level {op : Operator} (hop : op ≠ .exp) :
    ∃ loose level tight, levels = loose ++ level :: tight ∧ op ∈ level ∧ ∀ other ∈ tight, op ∉ other := by
  have hmem : ∃ level ∈ levels, op ∈ level := by
    cases op <;> first | exact absurd rfl hop | decide
  obtain ⟨level, hlevel, hop⟩ := hmem
  obtain ⟨loose, tight, hsplit⟩ := List.append_of_mem hlevel
  have hpairwise := levels_pairwise
  rw [hsplit, List.pairwise_append, List.pairwise_cons] at hpairwise
  exact ⟨loose, level, tight, hsplit, hop, fun other hother => hpairwise.2.1.1 other hother op hop⟩

theorem outside_of_isOuter (h : NextIs isOuter rest) (levels : List (List Operator)) : Outside levels rest := by
  intro op hop
  exact absurd (h _ hop) (by simp [isOuter, isCloser])

/-- What reads as a power reads as an operand of any infix operator. -/
theorem infixed_of_exponent {nested : Nested} (hrounds : 0 < nested.rounds)
    (h : exponent nested input = some (value, rest)) {levels : List (List Operator)}
    (hrest : Outside levels rest) : infixed nested levels input = some (value, rest) := by
  have hbase : infixed nested [] input = some (value, rest) := h
  simpa using infixed_append hrounds hbase levels hrest

theorem exponent_of_update {nested : Nested}
    (hhead : input.head?.bind unaryOp? = none) (h : update nested input = some (value, rest))
    (hexp : rest.head? ≠ some (.mark (.operator .exp))) : exponent nested input = some (value, rest) := by
  rw [exponent, hhead]
  simp only [h, Option.bind_eq_bind, Option.bind_some]
  split
  · simp at hexp
  · rfl

theorem exponent_of_unary {nested : Nested} {wrap : Tree → Tree}
    (hhead : input.head?.bind unaryOp? = some wrap) (h : unary nested input = some (value, rest))
    (hexp : rest.head? ≠ some (.mark (.operator .exp))) : exponent nested input = some (value, rest) := by
  rw [exponent, hhead]
  simp [h, nextIs, hexp]

theorem head?_ne_exp (h : NextIs isOuter rest) : rest.head? ≠ some (.mark (.operator .exp)) := by
  intro hexp
  exact absurd (h _ hexp) (by simp [isOuter, isCloser])

theorem ReadBy.infixed_levels (h : ReadBy exponent isOuter t) (hpos : 0 < (spelling t).length) :
    ReadBy (infixed · levels) isOuter t := by
  intro n rest hlength hrest
  have hrounds : 0 < (Nested.ofDepth n).rounds := by
    rw [Nested.rounds_ofDepth]
    simp at hlength
    omega
  exact infixed_of_exponent hrounds (h n rest hlength hrest) (outside_of_isOuter hrest levels)

theorem ReadBy.conditional (h : ReadBy (infixed · levels) isOuter t)
    (hlength : (spelling t ++ rest).length ≤ n) (hrest : NextIs isOuter rest)
    (hquestion : rest.head? ≠ some (.mark .question)) :
    conditional (.ofDepth n) (spelling t ++ rest) = some (bare t, rest) := by
  have hvalue : infixed (.ofDepth n) levels (spelling t ++ rest) = some (bare t, rest) :=
    h n rest hlength hrest
  rw [JavaScript.conditional, hvalue]
  simp only [Option.bind_eq_bind, Option.bind_some]
  split
  · simp at hquestion
  · rfl

theorem head?_ne_of_isCloser (h : NextIs isCloser rest) (hl : isCloser l = false) : rest.head? ≠ some l := by
  intro hsome
  simp [h l hsome] at hl

theorem assignment_of_conditional {nested : Nested}
    (h : JavaScript.conditional nested input = some (value, rest)) (hrest : NextIs isCloser rest) :
    assignment nested input = some (value, rest) := by
  rw [assignment, h]
  simp only [Option.bind_eq_bind, Option.bind_some]
  split
  · exact absurd rfl (head?_ne_of_isCloser hrest (by rfl))
  · rfl

theorem ReadBy.assignment (h : ReadBy (infixed · levels) isOuter t) : ReadBy assignment isCloser t := by
  intro n rest hlength hrest
  exact assignment_of_conditional (h.conditional hlength (hrest.mono isOuter_of_isCloser)
    (head?_ne_of_isCloser hrest (by rfl))) hrest

/-- The ways of reading a tree, as far as its rank allows them. -/
structure Reads (t : Tree) : Prop where
  spine : rank t = 3 → Spine t
  operand : 2 ≤ rank t → ReadBy update isBehindOperand t
  condition : 1 ≤ rank t → ReadBy (infixed · levels) isOuter t
  whole : ReadBy assignment isCloser t

theorem Reads.of_condition (hrank : rank t ≤ 1) (h : ReadBy (infixed · levels) isOuter t) : Reads t where
  spine hspine := by omega
  operand hoperand := by omega
  condition _ := h
  whole := h.assignment

theorem Reads.of_exponent (hrank : rank t ≤ 1) (hpos : 0 < (spelling t).length)
    (h : ReadBy exponent isOuter t) : Reads t :=
  .of_condition hrank (h.infixed_levels hpos)

theorem ReadBy.exponent (h : ReadBy update isBehindOperand t)
    (hstart : ∃ l ∈ (spelling t).head?, startsOperand l = true) : ReadBy exponent isOuter t := by
  intro n rest hlength hrest
  have hupdate := h n rest hlength (hrest.mono isBehindOperand_of_isOuter)
  exact exponent_of_update (head?_operand hstart rest).1 hupdate (head?_ne_exp hrest)

theorem length_pos_of_head {lexemes : List Lexeme} {p : Lexeme → Prop} (h : ∃ l ∈ lexemes.head?, p l) :
    0 < lexemes.length := by
  obtain ⟨l, hl, -⟩ := h
  cases lexemes <;> simp_all

theorem Reads.of_update (hrank : rank t ≤ 2) (h : ReadBy update isBehindOperand t)
    (hstart : ∃ l ∈ (spelling t).head?, startsOperand l = true) : Reads t :=
  have hcondition := (h.exponent hstart).infixed_levels (length_pos_of_head hstart)
  ⟨fun hspine => by omega, fun _ => h, fun _ => hcondition, hcondition.assignment⟩

theorem Reads.of_spine (h : Spine t) (hstart : ∃ l ∈ (spelling t).head?, startsOperand l = true) : Reads t :=
  have hupdate := h.update hstart
  have hcondition := (hupdate.exponent hstart).infixed_levels (length_pos_of_head hstart)
  ⟨fun _ => h, fun _ => hupdate, fun _ => hcondition, hcondition.assignment⟩

/-- A whole expression behind a lexeme that was taken. -/
theorem Reads.nested (h : Reads t) (hlength : (spelling t ++ rest).length < n) (hrest : NextIs isCloser rest) :
    (Nested.ofDepth n).assignment (spelling t ++ rest) = some (bare t, rest) := by
  obtain ⟨n, rfl⟩ : ∃ m, n = m + 1 := ⟨n - 1, by omega⟩
  exact h.whole n rest (by omega) hrest

/-- An operand behind an operator that was taken. -/
theorem Reads.nested_unary (h : Reads t) (hrank : 2 ≤ rank t)
    (hstart : ∃ l ∈ (spelling t).head?, startsOperand l = true)
    (hlength : (spelling t ++ rest).length < n) (hrest : NextIs isBehindOperand rest) :
    (Nested.ofDepth n).unary (spelling t ++ rest) = some (bare t, rest) := by
  obtain ⟨n, rfl⟩ : ∃ m, n = m + 1 := ⟨n - 1, by omega⟩
  have hupdate := h.operand hrank n rest (by omega) hrest
  simp only [Nested.ofDepth, unary, (head?_operand hstart rest).1, hupdate]

/-- Two operands around an operator.  A power reads its right operand as a power, every other operator leaves
the loop of its own level behind the right operand. -/
theorem readBy_binary (op : Operator) {left right : Tree} (hleft : ReadBy update isBehindOperand left)
    (hleftStart : ∃ l ∈ (spelling left).head?, startsOperand l = true) (hright : ReadBy update isBehindOperand right)
    (hrightStart : ∃ l ∈ (spelling right).head?, startsOperand l = true) :
    ReadBy (infixed · levels) isOuter (.binary op left right) := by
  intro n rest hlength hrest
  have hsplit : spelling (.binary op left right) ++ rest =
      spelling left ++ .mark (.operator op) :: (spelling right ++ rest) := by
    simp [spelling]
  rw [hsplit] at hlength ⊢
  have hpos := length_pos_of_head hleftStart
  obtain ⟨m, rfl⟩ : ∃ m, n = m + 2 := ⟨n - 2, by simp at hlength; omega⟩
  have hrounds : 0 < (Nested.ofDepth (m + 2)).rounds := by simp [Nested.rounds_ofDepth]
  have hleftUpdate := hleft _ _ hlength (NextIs.cons rfl _)
  have hexponent : ∀ k, (spelling right ++ rest).length ≤ k →
      exponent (.ofDepth k) (spelling right ++ rest) = some (bare right, rest) :=
    fun k hk => (hright.exponent hrightStart) k rest hk hrest
  by_cases hop : op = .exp
  · subst hop
    apply infixed_of_exponent hrounds _ (outside_of_isOuter hrest levels)
    have hpower : (Nested.ofDepth (m + 2)).exponent (spelling right ++ rest) = some (bare right, rest) :=
      hexponent (m + 1) (by simp at hlength ⊢; omega)
    rw [exponent, (head?_operand hleftStart _).1]
    simp [hleftUpdate, hpower, bare]
  · obtain ⟨loose, level, tight, hlevels, hmem, htight⟩ := exists_level hop
    have hfirst : infixed (.ofDepth (m + 2)) tight _ = _ :=
      infixed_of_exponent hrounds
        (exponent_of_update (head?_operand hleftStart _).1 hleftUpdate (by simpa using hop))
        (by rintro _ ⟨⟩ other hother; exact htight other hother)
    have hsecond : infixed (.ofDepth (m + 2)) tight (spelling right ++ rest) = some (bare right, rest) :=
      infixed_of_exponent hrounds (hexponent _ (by simp at hlength ⊢; omega)) (outside_of_isOuter hrest tight)
    have hboth : infixed (.ofDepth (m + 2)) (level :: tight)
        (spelling left ++ .mark (.operator op) :: (spelling right ++ rest)) =
          some (bare (.binary op left right), rest) := by
      rw [infixed_cons hfirst, Nested.rounds_ofDepth, operands, if_pos (by simpa using hmem), hsecond]
      exact operands_stop _ m _ (outside_of_isOuter hrest [level])
    simp only [hlevels]
    exact infixed_append hrounds hboth loose (outside_of_isOuter hrest loose)

/-! ## Formed trees -/

theorem Spine.of_primary (hpos : 0 < (spelling t).length)
    (h : ∀ n rest, (spelling t ++ rest).length ≤ n → NextIs isMark rest →
      primary (.ofDepth n) (spelling t ++ rest) = some (bare t, rest)) : Spine t :=
  fun n rest hlength hrest => ⟨bare t, rest, 0, h n rest hlength hrest, hpos, fun _ => rfl⟩

theorem Spine.append {object : Tree} (h : Spine object) {suffix : List Lexeme}
    (hspelling : spelling t = spelling object ++ l :: suffix) (hmark : isMark l = true)
    (hstep : ∀ n rest rounds, (l :: (suffix ++ rest)).length ≤ n →
      suffixes (.ofDepth n) (rounds + 1) (bare object) (l :: (suffix ++ rest)) =
        suffixes (.ofDepth n) rounds (bare t) rest) : Spine t := by
  intro n rest hlength hrest
  rw [hspelling, List.append_assoc, List.cons_append] at hlength ⊢
  obtain ⟨base, middle, steps, hprimary, hsteps, hsuffixes⟩ :=
    h n _ hlength (NextIs.cons hmark _)
  refine ⟨base, middle, steps + 1, hprimary, by simp; omega, fun rounds => ?_⟩
  rw [← hstep n rest rounds (by simp at hlength ⊢; omega), ← hsuffixes (rounds + 1)]
  congr 1
  omega

theorem primary_word {nested : Nested} (h : text ∉ reserved)
    (hrest : NextIs isMark rest) : primary nested (.word text :: rest) = some (.name text, rest) := by
  have htrue : text ≠ "true" := by rintro rfl; exact h (by decide)
  have hfalse : text ≠ "false" := by rintro rfl; exact h (by decide)
  have hnull : text ≠ "null" := by rintro rfl; exact h (by decide)
  have hfunction : text ≠ "function" := by rintro rfl; exact h (by decide)
  have hword : ∀ other input, rest ≠ .word other :: input := by
    rintro other input rfl
    exact absurd (hrest _ rfl) (by simp [isMark])
  unfold primary
  split <;> simp_all

theorem enclosed_spellings {ts : List Tree} (hformed : ∀ t ∈ ts, Formed letters t)
    (hreads : ∀ t ∈ ts, Reads t) (close : Mark) (hclose : isCloser (.mark close) = true) (hcomma : close ≠ .comma)
    (hlength : (separated (spellings ts) ++ .mark close :: rest).length < n) :
    enclosed close (Nested.ofDepth n).assignment n (separated (spellings ts) ++ .mark close :: rest) =
      some (bareList ts, rest) := by
  rw [spellings_eq_map] at hlength ⊢
  rw [bareList_eq_map]
  refine enclosed_separated close hclose hcomma (fun t ht => ?_) (fun t ht rest => ?_) hlength
  · obtain ⟨l, hl, hopens, -⟩ := head_spelling (hformed t ht)
    exact ⟨l, hl, hopens⟩
  · exact (hreads t ht).nested

theorem head_entrySpelling {e : Tree × Tree} (hkey : isKey letters e.1 = true) :
    ∃ l ∈ (entrySpelling e).head?, opens l = true := by
  obtain ⟨key, value⟩ := e
  unfold isKey at hkey
  split at hkey
  case h_4 => cases hkey
  all_goals
    simp only at *
    subst_vars
    exact ⟨_, rfl, rfl⟩

theorem entry_spelling {e : Tree × Tree} (hkey : isKey letters e.1 = true) (hvalue : Reads e.2)
    (hlength : (entrySpelling e ++ rest).length < n) (hrest : NextIs isCloser rest) :
    entry (.ofDepth n) (entrySpelling e ++ rest) = some (bareEntry e, rest) := by
  obtain ⟨key, value⟩ := e
  have hnested : (Nested.ofDepth n).assignment (spelling value ++ rest) = some (bare value, rest) :=
    hvalue.nested (by simp [entrySpelling] at hlength ⊢; omega) hrest
  unfold isKey at hkey
  split at hkey
  case h_4 => cases hkey
  all_goals
    simp only at *
    subst_vars
    simp [entrySpelling, spelling, literalSpelling, entry, hnested, bareEntry, bare]

theorem identifier_word (h : text ∉ reserved) (rest : List Lexeme) :
    identifier (.word text :: rest) = some (text, rest) := by
  simp [identifier, h]

theorem param_spelling {p : Script.Param Tree} (hname : isIdentifier letters (paramName p) = true)
    (hdefault : ∀ t ∈ paramDefault? p, Reads t)
    (hlength : (paramSpelling p ++ rest).length < n) (hrest : NextIs isCloser rest) :
    param (.ofDepth n) (paramSpelling p ++ rest) = some (bareParam p, rest) := by
  have hword := identifier_word (not_mem_reserved hname)
  cases p with
  | plain name =>
    simp only [paramName] at hword
    simp only [paramSpelling, List.cons_append, List.nil_append, param, hword, Option.bind_eq_bind,
      Option.bind_some]
    split
    · exact absurd rfl (head?_ne_of_isCloser hrest (by rfl))
    · rfl
  | optional name default =>
    have hnested : (Nested.ofDepth n).assignment (spelling default ++ rest) = some (bare default, rest) :=
      (hdefault default rfl).nested (by simp [paramSpelling] at hlength ⊢; omega) hrest
    simp only [paramName] at hword
    simp [paramSpelling, param, hword, hnested, bareParam]
  | rest name =>
    simp only [paramName] at hword
    simp [paramSpelling, param, hword, bareParam]

theorem body_assignment {nested : Nested} {name : String} (hname : name ∉ reserved)
    {behind : List Lexeme} {others : List (String × Tree)}
    (hvalue : nested.assignment input = some (value, .mark .semicolon :: behind))
    (hothers : body nested rounds behind = some ((others, result), rest)) :
    body nested (rounds + 1) (.word name :: .mark .equal :: input) =
      some (((name, value) :: others, result), rest) := by
  have hreturn : name ≠ "return" := by
    rintro rfl
    exact hname (by decide)
  rw [body]
  · simp [identifier_word hname, hvalue, hothers]
  · rintro other ⟨⟩
    exact hreturn rfl

/-- The assignments and the `return` of a function are read one by one. -/
theorem body_spelling (hnames : ∀ a ∈ prologue, isIdentifier letters a.1 = true) (hvalues : ∀ a ∈ prologue, Reads a.2)
    (hresult : Reads result) (hrounds : prologue.length < rounds) (hlength : (assignmentSpellings prologue ++
      .word "return" :: (spelling result ++ .mark .semicolon :: rest)).length ≤ n) : body (.ofDepth n) rounds
        (assignmentSpellings prologue ++ .word "return" :: (spelling result ++ .mark .semicolon :: rest)) =
      some ((bareAssignments prologue, bare result), rest) := by
  obtain ⟨rounds, rfl⟩ : ∃ more, rounds = more + 1 := ⟨rounds - 1, by omega⟩
  induction prologue generalizing rounds with
  | nil =>
    have hnested : (Nested.ofDepth n).assignment (spelling result ++ .mark .semicolon :: rest) =
        some (bare result, .mark .semicolon :: rest) :=
      hresult.nested hlength (NextIs.cons rfl rest)
    simp [assignmentSpellings, body, hnested, bareAssignments]
  | cons a prologue ih =>
    obtain ⟨name, value⟩ := a
    obtain ⟨rounds, rfl⟩ : ∃ more, rounds = more + 1 := ⟨rounds - 1, by simp at hrounds; omega⟩
    have hsplit : assignmentSpellings ((name, value) :: prologue) ++
          .word "return" :: (spelling result ++ .mark .semicolon :: rest) =
        .word name :: .mark .equal :: (spelling value ++ .mark .semicolon ::
          (assignmentSpellings prologue ++
            .word "return" :: (spelling result ++ .mark .semicolon :: rest))) := by
      simp [assignmentSpellings, assignmentSpelling]
    rw [hsplit] at hlength ⊢
    have hothers := ih (fun a ha => hnames a (List.mem_cons_of_mem _ ha))
      (fun a ha => hvalues a (List.mem_cons_of_mem _ ha))
      (by simp only [List.length_cons, List.length_append] at hlength ⊢; omega) rounds
      (by simpa using hrounds)
    refine body_assignment (not_mem_reserved (hnames _ List.mem_cons_self)) ?_ hothers
    exact (hvalues _ List.mem_cons_self).nested
      (by simp only [List.length_cons, List.length_append] at hlength ⊢; omega) (NextIs.cons rfl _)

theorem length_le_assignmentSpellings (assignments : List (String × Tree)) :
    assignments.length ≤ (assignmentSpellings assignments).length := by
  induction assignments with
  | nil => simp
  | cons a as ih =>
    obtain ⟨name, value⟩ := a
    simp only [assignmentSpellings, assignmentSpelling, List.length_append, List.length_cons] at ih ⊢
    omega

theorem head_paramSpelling (p : Script.Param Tree) : ∃ l ∈ (paramSpelling p).head?, opens l = true := by
  cases p <;> exact ⟨_, rfl, rfl⟩

theorem primary_function (isAsync : Bool) {params : List (Script.Param Tree)}
    (hnames : ∀ p ∈ params, isIdentifier letters (paramName p) = true)
    (hdefaults : ∀ p ∈ params, ∀ t ∈ paramDefault? p, Reads t)
    (hassigned : ∀ a ∈ prologue, isIdentifier letters a.1 = true) (hvalues : ∀ a ∈ prologue, Reads a.2)
    (hresult : Reads result) (hlength : (spelling (.function isAsync params prologue result) ++ rest).length ≤ n) :
    primary (.ofDepth n) (spelling (.function isAsync params prologue result) ++ rest) =
      some (bare (.function isAsync params prologue result), rest) := by
  have hsplit : spelling (.function isAsync params prologue result) ++ rest =
      asyncSpelling isAsync ++ .word "function" :: .mark .leftParen :: (separated (params.map paramSpelling) ++
        .mark .rightParen :: .mark .leftBrace :: (assignmentSpellings prologue ++
          .word "return" :: (spelling result ++ .mark .semicolon :: .mark .rightBrace :: rest))) := by
    simp [spelling, paramSpellings_eq_map]
  rw [hsplit] at hlength ⊢
  have hshort := length_le_assignmentSpellings prologue
  have hbody : body (.ofDepth n) n (assignmentSpellings prologue ++
        .word "return" :: (spelling result ++ .mark .semicolon :: .mark .rightBrace :: rest)) =
      some ((bareAssignments prologue, bare result), .mark .rightBrace :: rest) :=
    body_spelling hassigned hvalues hresult (by simp at hlength; omega) (by simp at hlength ⊢; omega)
  generalize assignmentSpellings prologue ++
    .word "return" :: (spelling result ++ .mark .semicolon :: .mark .rightBrace :: rest) = block at hbody hlength ⊢
  have hparams : enclosed .rightParen (param (.ofDepth n)) n
        (separated (params.map paramSpelling) ++ .mark .rightParen :: .mark .leftBrace :: block) =
      some (params.map bareParam, .mark .leftBrace :: block) :=
    enclosed_separated .rightParen rfl (by decide) (fun p _ => head_paramSpelling p)
      (fun p hp rest => param_spelling (hnames p hp) (hdefaults p hp)) (by simp at hlength ⊢; omega)
  cases isAsync <;>
    simp [asyncSpelling, primary, function, Nested.rounds_ofDepth, hparams, hbody, bare, bareParams_eq_map]

/-- A formed tree is read back wherever it can stand. -/
theorem Formed.reads (h : Formed letters t) : Reads t := by
  induction h with
  | name hname =>
    have hreserved := not_mem_reserved hname
    refine .of_spine (.of_primary (by simp [spelling]) fun n rest _ hrest => ?_)
      ⟨_, rfl, startsOperand_word hreserved⟩
    exact primary_word hreserved hrest
  | number | string | null =>
    exact .of_spine (.of_primary (by simp [spelling, literalSpelling]) fun n rest _ _ => rfl) ⟨_, rfl, rfl⟩
  | boolean value =>
    cases value <;>
      exact .of_spine (.of_primary (by simp [spelling, literalSpelling]) fun n rest _ _ => rfl)
        ⟨_, rfl, rfl⟩
  | undefined =>
    refine .of_spine (.of_primary (by simp [spelling, literalSpelling]) fun n rest _ hrest => ?_)
      ⟨_, rfl, rfl⟩
    exact primary_word (by decide) hrest
  | @paren inner _ ih =>
    refine .of_spine (.of_primary (by simp [spelling]) fun n rest hlength hrest => ?_) ⟨_, rfl, rfl⟩
    have hsplit : spelling (.paren inner) ++ rest =
        .mark .leftParen :: (spelling inner ++ .mark .rightParen :: rest) := by
      simp [spelling]
    rw [hsplit] at hlength ⊢
    have hinner := ih.nested hlength (NextIs.cons rfl rest)
    simp [primary, hinner, bare]
  | @array elements helements ih =>
    refine .of_spine (.of_primary (by simp [spelling]) fun n rest hlength hrest => ?_) ⟨_, rfl, rfl⟩
    have hsplit : spelling (.array elements) ++ rest =
        .mark .leftBracket :: (separated (spellings elements) ++ .mark .rightBracket :: rest) := by
      simp [spelling]
    rw [hsplit] at hlength ⊢
    have hitems := enclosed_spellings helements ih .rightBracket rfl (by decide) hlength
    simp [primary, Nested.rounds_ofDepth, hitems, bare]
  | @object entries hkeys _ ih =>
    refine .of_spine (.of_primary (by simp [spelling]) fun n rest hlength hrest => ?_) ⟨_, rfl, rfl⟩
    have hsplit : spelling (.object entries) ++ rest =
        .mark .leftBrace :: (separated (entries.map entrySpelling) ++ .mark .rightBrace :: rest) := by
      simp [spelling, entrySpellings_eq_map]
    rw [hsplit] at hlength ⊢
    have hitems := enclosed_separated .rightBrace rfl (by decide)
      (fun e he => head_entrySpelling (hkeys e he))
      (fun e he rest => entry_spelling (hkeys e he) (ih e he)) hlength
    simp [primary, Nested.rounds_ofDepth, hitems, bare, bareEntries_eq_map]
  | @member object name hobject htight hname ih =>
    have hspine := ih.spine (rank_of_isObject htight)
    refine .of_spine (hspine.append rfl rfl fun n rest rounds _ => ?_)
      (Formed.starts (.member hobject htight hname) (by simp [rank]))
    rfl
  | @index object position hobject htight hposition ihObject ihPosition =>
    have hspine := ihObject.spine (rank_of_isObject htight)
    have hspelling : spelling (.index object position) =
        spelling object ++ Lexeme.mark .leftBracket :: (spelling position ++ [Lexeme.mark .rightBracket]) := by
      simp [spelling]
    refine .of_spine (hspine.append hspelling rfl fun n rest rounds hlength => ?_)
      (Formed.starts (.index hobject htight hposition) (by simp [rank]))
    rw [List.append_assoc, List.singleton_append] at hlength ⊢
    have hinner := ihPosition.nested hlength (NextIs.cons rfl rest)
    simp [suffixes, hinner, bare]
  | @call callee arguments hcallee htight harguments ihCallee ihArguments =>
    have hspine := ihCallee.spine (rank_of_isObject htight)
    have hspelling : spelling (.call callee arguments) = spelling callee ++
        Lexeme.mark .leftParen :: (separated (spellings arguments) ++ [Lexeme.mark .rightParen]) := by
      simp [spelling]
    refine .of_spine (hspine.append hspelling rfl fun n rest rounds hlength => ?_)
      (Formed.starts (.call hcallee htight harguments) (by simp [rank]))
    rw [List.append_assoc, List.singleton_append] at hlength ⊢
    have hitems := enclosed_spellings harguments ihArguments .rightParen rfl (by decide) hlength
    simp [suffixes, Nested.rounds_ofDepth, hitems, bare]
  | @updateAfter op target htarget htight ih =>
    have hstarts := Formed.starts (.updateAfter op htarget htight) (by simp [rank])
    refine .of_update (by simp [rank]) (fun n rest hlength _ => ?_) hstarts
    have hleft := (ih.spine (rank_of_isTarget htight)).leftHandSide n (.mark (updateMark op) :: rest)
      (by simpa [spelling] using hlength) (NextIs.cons (by cases op <;> rfl) rest)
    rw [update, (head?_operand hstarts rest).2, spelling, List.append_assoc, List.singleton_append,
      postfixed, hleft]
    simp [updateOp?_updateMark, isTarget_bare htight, bare]
  | @updateBefore op target htarget htight ih =>
    refine .of_exponent (by simp [rank]) (by simp [spelling]) fun n rest hlength hrest => ?_
    have hrank : 2 ≤ rank target := by simp [rank_of_isTarget htight]
    have hoperand := ih.nested_unary hrank (htarget.starts hrank) hlength
      (hrest.mono isBehindOperand_of_isOuter)
    refine exponent_of_update (by cases op <;> rfl) ?_ (head?_ne_exp hrest)
    simp [update, spelling, updateOp?_updateMark, hoperand, isTarget_bare htight, bare]
  | @unary op operand hoperand hrank ih =>
    refine .of_exponent (by simp [rank]) (by simp [spelling]) fun n rest hlength hrest => ?_
    have hread := ih.nested_unary hrank (hoperand.starts hrank) hlength
      (hrest.mono isBehindOperand_of_isOuter)
    refine exponent_of_unary (unaryOp?_unaryMark op) ?_ (head?_ne_exp hrest)
    simp [JavaScript.unary, spelling, unaryOp?_unaryMark, hread, bare]
  | @worded op operand hop hoperand hrank ih =>
    refine .of_exponent (by simp [rank]) (by simp [spelling]) fun n rest hlength hrest => ?_
    have hread := ih.nested_unary hrank (hoperand.starts hrank) hlength
      (hrest.mono isBehindOperand_of_isOuter)
    refine exponent_of_unary (unaryOp?_wordText hop) ?_ (head?_ne_exp hrest)
    simp [JavaScript.unary, spelling, unaryOp?_wordText hop, hread, bare]
  | @binary op left right hleft hleftRank hright hrightRank ihLeft ihRight =>
    exact .of_condition (by simp [rank]) (readBy_binary op (ihLeft.operand hleftRank)
      (hleft.starts hleftRank) (ihRight.operand hrightRank) (hright.starts hrightRank))
  | @conditional condition yes no _ hrank _ _ ihCondition ihYes ihNo =>
    refine ⟨by simp [rank], by simp [rank], by simp [rank], fun n rest hlength hrest => ?_⟩
    have hsplit : spelling (.conditional condition yes no) ++ rest = spelling condition ++
        .mark .question :: (spelling yes ++ .mark .colon :: (spelling no ++ rest)) := by
      simp [spelling]
    rw [hsplit] at hlength ⊢
    have hcondition : infixed (.ofDepth n) levels _ = _ :=
      ihCondition.condition hrank n _ hlength (NextIs.cons rfl _)
    have hyes : (Nested.ofDepth n).assignment (spelling yes ++ .mark .colon :: (spelling no ++ rest)) = _ :=
      ihYes.nested (by simp at hlength ⊢; omega) (NextIs.cons rfl _)
    have hno := ihNo.nested (n := n) (by simp at hlength ⊢; omega) hrest
    refine assignment_of_conditional ?_ hrest
    rw [JavaScript.conditional, hcondition]
    simp [hyes, hno, bare]
  | @assign target value _ htarget _ ihTarget ihValue =>
    refine ⟨by simp [rank], by simp [rank], by simp [rank], fun n rest hlength hrest => ?_⟩
    have hsplit : spelling (.assign target value) ++ rest =
        spelling target ++ .mark .equal :: (spelling value ++ rest) := by
      simp [spelling]
    rw [hsplit] at hlength ⊢
    have hleft := (ihTarget.condition (by simp [rank_of_isTarget htarget])).conditional hlength
      (NextIs.cons rfl _) (by simp)
    have hvalue := ihValue.nested (n := n) (by simp at hlength ⊢; omega) hrest
    rw [assignment, hleft]
    simp [isTarget_bare htarget, hvalue, bare]
  | @function isAsync params prologue result hnames _ hassigned _ _ ihDefaults ihPrologue ihResult =>
    refine .of_spine (.of_primary (by simp [spelling]) fun n rest hlength _ => ?_) ?_
    · exact primary_function isAsync hnames ihDefaults hassigned ihPrologue ihResult hlength
    · cases isAsync <;> exact ⟨_, rfl, rfl⟩

/-- The text of a formed tree is read as the tree without its parentheses. -/
theorem Formed.read?_text (h : Formed letters t) : read? letters t.text = some (bare t) := by
  have hcut : Cuts letters t.text.toList (spelling t) [] := h.cuts (by rintro c ⟨⟩)
  have hlexemes : lexemes letters t.text.toList = some (spelling t) := by
    simpa [Cuts, lexemes] using hcut
  have hread := h.reads.whole (spelling t).length [] (by simp) (by rintro l ⟨⟩)
  rw [List.append_nil] at hread
  simp [read?, hlexemes, hread]

end

end Offside.JavaScript
