import Offside.Proofs.JavaScript.Cuts
import Offside.Proofs.JavaScript.Reader
import Offside.Proofs.Tree.Parts

/-!
# The lexemes of printed expressions

`spelling` lists the lexemes that the text of a tree is put together from, and `Formed` says which trees hold
together in JavaScript: an operand of an operator is nothing looser than an increment behind its target, the
object of a member access, a subscript or a call is nothing looser than those, and a number is no object.  The
text of a formed tree is cut into its spelling.
-/

namespace Offside.JavaScript

open Script (Operator)

variable {t : Tree} {c : Char} {rest : List Char} {text : String} {value : Binary64}

/-! ## Spellings -/

def literalSpelling : Literal → List Lexeme
  | .number value => [.number value]
  | .string value => [.string value]
  | .boolean true => [.word "true"]
  | .boolean false => [.word "false"]
  | .null => [.word "null"]
  | .undefined => [.word "undefined"]
  | .regex _ _ => []

def updateMark : UpdateOp → Mark
  | .increment => .increment
  | .decrement => .decrement

def unaryMark : UnaryOp → Mark
  | .not => .bang
  | .minus => .operator .sub
  | .bitNot => .tilde

/-- Spellings with commas between them. -/
def separated (spellings : List (List Lexeme)) : List Lexeme := [.mark .comma].intercalate spellings

def asyncSpelling (isAsync : Bool) : List Lexeme := if isAsync then [.word "async"] else []

mutual

/-- The lexemes of a tree. -/
def spelling : Tree → List Lexeme
  | .name text => [.word text]
  | .literal value => literalSpelling value
  | .paren inner => .mark .leftParen :: spelling inner ++ [.mark .rightParen]
  | .array elements => .mark .leftBracket :: separated (spellings elements) ++ [.mark .rightBracket]
  | .object entries => .mark .leftBrace :: separated (entrySpellings entries) ++ [.mark .rightBrace]
  | .member object name => spelling object ++ [.mark .dot, .word name]
  | .index object position =>
    spelling object ++ .mark .leftBracket :: spelling position ++ [.mark .rightBracket]
  | .call callee arguments =>
    spelling callee ++ .mark .leftParen :: separated (spellings arguments) ++ [.mark .rightParen]
  | .updateAfter op target => spelling target ++ [.mark (updateMark op)]
  | .updateBefore op target => .mark (updateMark op) :: spelling target
  | .unary op operand => .mark (unaryMark op) :: spelling operand
  | .worded op operand => .word (Script.wordText op) :: spelling operand
  | .binary op left right => spelling left ++ .mark (.operator op) :: spelling right
  | .conditional condition yes no =>
    spelling condition ++ .mark .question :: spelling yes ++ .mark .colon :: spelling no
  | .assign target value => spelling target ++ .mark .equal :: spelling value
  | .function isAsync params prologue result =>
    asyncSpelling isAsync ++ .word "function" :: .mark .leftParen :: separated (paramSpellings params)
      ++ .mark .rightParen :: .mark .leftBrace :: assignmentSpellings prologue
      ++ .word "return" :: spelling result ++ [.mark .semicolon, .mark .rightBrace]

def spellings : List Tree → List (List Lexeme)
  | [] => []
  | t :: ts => spelling t :: spellings ts

def entrySpelling : Tree × Tree → List Lexeme
  | (key, value) => spelling key ++ .mark .colon :: spelling value

def entrySpellings : List (Tree × Tree) → List (List Lexeme)
  | [] => []
  | e :: es => entrySpelling e :: entrySpellings es

def paramSpelling : Script.Param Tree → List Lexeme
  | .plain name => [.word name]
  | .optional name default => .word name :: .mark .equal :: spelling default
  | .rest name => [.mark .ellipsis, .word name]

def paramSpellings : List (Script.Param Tree) → List (List Lexeme)
  | [] => []
  | p :: ps => paramSpelling p :: paramSpellings ps

def assignmentSpelling : String × Tree → List Lexeme
  | (name, value) => .word name :: .mark .equal :: spelling value ++ [.mark .semicolon]

/-- The spelling of assignments one behind the other. -/
def assignmentSpellings : List (String × Tree) → List Lexeme
  | [] => []
  | a :: as => assignmentSpelling a ++ assignmentSpellings as

end

theorem spellings_eq_map (ts : List Tree) : spellings ts = ts.map spelling :=
  eq_map_of_cons rfl (fun _ _ => rfl) ts

theorem entrySpellings_eq_map (entries : List (Tree × Tree)) : entrySpellings entries = entries.map entrySpelling :=
  eq_map_of_cons rfl (fun _ _ => rfl) entries

theorem paramSpellings_eq_map (params : List (Script.Param Tree)) :
    paramSpellings params = params.map paramSpelling :=
  eq_map_of_cons rfl (fun _ _ => rfl) params

theorem assignmentSpellings_eq_flatMap (assignments : List (String × Tree)) :
    assignmentSpellings assignments = assignments.flatMap assignmentSpelling :=
  eq_flatMap_of_cons rfl (fun _ _ => rfl) assignments

theorem texts_eq_map (ts : List Tree) : Script.texts ts = ts.map Script.Expr.text :=
  eq_map_of_cons rfl (fun _ _ => rfl) ts

theorem entryTexts_eq_map (entries : List (Tree × Tree)) :
    Script.entryTexts entries = entries.map Script.entryText :=
  eq_map_of_cons rfl (fun _ _ => rfl) entries

theorem paramTexts_eq_map (params : List (Script.Param Tree)) :
    Script.paramTexts params = params.map Script.paramText :=
  eq_map_of_cons rfl (fun _ _ => rfl) params

theorem assignmentTexts_eq_map (assignments : List (String × Tree)) :
    Script.assignmentTexts assignments = assignments.map Script.assignmentText :=
  eq_map_of_cons rfl (fun _ _ => rfl) assignments

/-! ## Formed trees -/

/-- How tightly a tree holds together: `3` for what members, subscripts and calls are made of, `2` for an
increment behind its target, `1` for an infix operator, and `0` for all else. -/
def rank : Tree → Nat
  | .updateAfter .. => 2
  | .binary .. => 1
  | .updateBefore .. | .unary .. | .worded .. | .conditional .. | .assign .. | .function .. => 0
  | _ => 3

/-- Whether a member access, a subscript or a call can stand behind a tree. -/
def isObject : Tree → Bool
  | .literal (.number _) => false
  | t => rank t = 3

theorem rank_of_isObject (h : isObject t = true) : rank t = 3 := by
  unfold isObject at h
  split at h
  · cases h
  · simpa using h

theorem rank_of_isTarget (h : isTarget t = true) : rank t = 3 := by
  cases t <;> simp_all [isTarget, rank]

/-- Whether a number has a text of digits alone, with a point at most. -/
def isPlain (value : Binary64) : Bool := value.isFinite && !value.negative

/-- Whether a tree can be the key of an object. -/
def isKey (letters : Letters) : Tree → Bool
  | .name text => isWord letters text
  | .literal (.string _) => true
  | .literal (.number value) => isPlain value
  | _ => false

def paramName : Script.Param Tree → String
  | .plain name | .optional name _ | .rest name => name

def paramDefault? : Script.Param Tree → Option Tree
  | .optional _ default => some default
  | _ => none

/-- The trees whose text has the operator structure of the tree. -/
inductive Formed (letters : Letters) : Tree → Prop
  | name {text : String} : isIdentifier letters text = true → Formed letters (.name text)
  | number {value : Binary64} : isPlain value = true → Formed letters (.literal (.number value))
  | string (value : String) : Formed letters (.literal (.string value))
  | boolean (value : Bool) : Formed letters (.literal (.boolean value))
  | null : Formed letters (.literal .null)
  | undefined : Formed letters (.literal .undefined)
  | paren {inner : Tree} : Formed letters inner → Formed letters (.paren inner)
  | array {elements : List Tree} : (∀ t ∈ elements, Formed letters t) → Formed letters (.array elements)
  | object {entries : List (Tree × Tree)} : (∀ entry ∈ entries, isKey letters entry.1 = true) →
      (∀ entry ∈ entries, Formed letters entry.2) → Formed letters (.object entries)
  | member {object : Tree} {name : String} : Formed letters object → isObject object = true →
      isWord letters name = true → Formed letters (.member object name)
  | index {object position : Tree} : Formed letters object → isObject object = true →
      Formed letters position → Formed letters (.index object position)
  | call {callee : Tree} {arguments : List Tree} : Formed letters callee → isObject callee = true →
      (∀ t ∈ arguments, Formed letters t) → Formed letters (.call callee arguments)
  | updateAfter (op : UpdateOp) {target : Tree} : Formed letters target → isTarget target = true →
      Formed letters (.updateAfter op target)
  | updateBefore (op : UpdateOp) {target : Tree} : Formed letters target → isTarget target = true →
      Formed letters (.updateBefore op target)
  | unary (op : UnaryOp) {operand : Tree} : Formed letters operand → 2 ≤ rank operand →
      Formed letters (.unary op operand)
  | worded {op : WordOp} {operand : Tree} : op ≠ .new → Formed letters operand → 2 ≤ rank operand →
      Formed letters (.worded op operand)
  | binary (op : Operator) {left right : Tree} : Formed letters left → 2 ≤ rank left →
      Formed letters right → 2 ≤ rank right → Formed letters (.binary op left right)
  | conditional {condition yes no : Tree} : Formed letters condition → 1 ≤ rank condition →
      Formed letters yes → Formed letters no → Formed letters (.conditional condition yes no)
  | assign {target value : Tree} : Formed letters target → isTarget target = true →
      Formed letters value → Formed letters (.assign target value)
  | function (isAsync : Bool) {params : List (Script.Param Tree)} {prologue : List (String × Tree)}
      {result : Tree} : (∀ p ∈ params, isIdentifier letters (paramName p) = true) →
      (∀ p ∈ params, ∀ t ∈ paramDefault? p, Formed letters t) →
      (∀ a ∈ prologue, isIdentifier letters a.1 = true) → (∀ a ∈ prologue, Formed letters a.2) →
      Formed letters result → Formed letters (.function isAsync params prologue result)

section
variable {letters : Letters}

/-! ## What stands behind a tree -/

/-- A text that does not run into the end of a tree in front of it. -/
def Apart (letters : Letters) (t : Tree) (rest : List Char) : Prop :=
  ∀ c ∈ rest.head?, isPart letters c = false ∧ (c = '.' → isObject t = true)

/-- The characters behind a tree that is part of another one, points left out. -/
def separators : List Char := [' ', ')', ']', '}', ',', ';', ':', '(', '[', '+', '-']

theorem isPart_of_mem_separators (h : c ∈ separators) : isPart letters c = false := by
  simp only [separators, List.mem_cons, List.not_mem_nil, or_false] at h
  rcases h with rfl | rfl | rfl | rfl | rfl | rfl | rfl | rfl | rfl | rfl | rfl <;>
    simp [isPart, isStart]

theorem ne_point_of_mem_separators (h : c ∈ separators) : c ≠ '.' := by
  rintro rfl
  exact absurd h (by decide)

theorem Apart.of_separator (t : Tree) (h : c ∈ separators) (rest : List Char) : Apart letters t (c :: rest) := by
  rintro _ ⟨⟩
  exact ⟨isPart_of_mem_separators h, fun hpoint => absurd hpoint (ne_point_of_mem_separators h)⟩

theorem Apart.of_not_isObject {u : Tree} (h : Apart letters t rest)
    (ht : isObject t = false) : Apart letters u rest := by
  intro c hc
  refine ⟨(h c hc).1, fun hpoint => ?_⟩
  simp [(h c hc).2 hpoint] at ht

theorem Apart.isPart (h : Apart letters t rest) : ∀ c ∈ rest.head?, JavaScript.isPart letters c = false :=
  fun c hc => (h c hc).1

/-! ## Cutting -/

theorem Cuts.word_separator (hword : isWord letters text = true)
    (hc : c ∈ separators) (rest : List Char) : Cuts letters text.toList [.word text] (c :: rest) := by
  apply Cuts.word hword
  rintro _ ⟨⟩
  exact isPart_of_mem_separators hc

theorem Cuts.separated {α : Type} {text : α → String} {spell : α → List Lexeme} {items : List α}
    (hitems : ∀ item ∈ items, ∀ c ∈ separators, ∀ rest,
      Cuts letters (text item).toList (spell item) (c :: rest))
    (close : Char) (hclose : close ∈ separators) (rest : List Char) :
    Cuts letters (Script.commas (items.map text)).toList (JavaScript.separated (items.map spell))
      (close :: rest) := by
  rw [Script.commas, String.toList_intercalate, List.map_map, JavaScript.separated]
  induction items with
  | nil => exact Cuts.empty _
  | cons item items ih =>
    have hitem := hitems item List.mem_cons_self
    have hothers := ih fun other hother => hitems other (List.mem_cons_of_mem item hother)
    cases items with
    | nil => simpa using hitem close hclose rest
    | cons next items =>
      have hcomma := (Cuts.closed .comma (by decide) _).append ((Cuts.blank _).append hothers)
      have hall := (hitem ',' (by decide) _).append hcomma
      simpa [List.intercalate_cons_cons, Mark.text] using hall

/-- Statements with blanks between them, the last one apart. -/
theorem Cuts.statements {α : Type} {text : α → String} {spell : α → List Lexeme} {items : List α}
    (hitems : ∀ item ∈ items, ∀ rest, Cuts letters (text item).toList (spell item) (' ' :: rest))
    {last : String} {lastSpelling : List Lexeme} (hlast : Cuts letters last.toList lastSpelling rest) :
    Cuts letters (String.intercalate " " (items.map text ++ [last])).toList
      (items.flatMap spell ++ lastSpelling) rest := by
  rw [String.toList_intercalate, List.map_append, List.map_map]
  induction items with
  | nil => simpa using hlast
  | cons item items ih =>
    have hothers := ih fun other hother => hitems other (List.mem_cons_of_mem item hother)
    have hall := ((hitems item List.mem_cons_self _).append (Cuts.blank _)).append hothers
    rw [List.map_cons, List.cons_append, List.intercalate_cons_of_ne_nil (by simp)]
    simpa using hall

theorem isWord_of_isIdentifier (h : isIdentifier letters text = true) : isWord letters text = true := by
  simp only [isIdentifier, Bool.and_eq_true] at h
  exact h.1

theorem isWord_of_ascii (hne : text.toList ≠ [])
    (h : text.toList.all (fun c => c.isAlpha || c = '$' || c = '_') = true) : isWord letters text = true := by
  cases htext : text.toList with
  | nil => exact absurd htext hne
  | cons first rest => simp_all [isWord, isPart, isStart]

theorem exists_numeral_numberText (h : isPlain value = true) :
    ∃ whole places, Binary64.Numeral (Script.numberText value).toList whole places ∧
      Binary64.ofDecimal whole places = value := by
  simp only [isPlain, Bool.and_eq_true, Bool.not_eq_true'] at h
  obtain ⟨hfinite, hpositive⟩ := h
  have hbound : value.magnitude < Binary64.infinity := by simpa [Binary64.isFinite] using hfinite
  have hnumber : value.isNaN = false := by simpa [Binary64.isNaN] using hbound.le
  obtain ⟨whole, places, hnumeral, hvalue⟩ := Binary64.exists_numeral_magnitudeText hbound
  refine ⟨whole, places, ?_, ?_⟩
  · simpa [Script.numberText, Binary64.text, hfinite, hnumber, hpositive] using hnumeral
  · rw [hvalue, ← hpositive]

theorem Cuts.number (h : isPlain value = true)
    (hpart : ∀ c ∈ rest.head?, isPart letters c = false) (hpoint : rest.head? ≠ some '.') :
    Cuts letters (Script.numberText value).toList [.number value] rest := by
  obtain ⟨whole, places, hnumeral, rfl⟩ := exists_numeral_numberText h
  exact Cuts.numeral hnumeral hpart hpoint

theorem Cuts.key {key : Tree} (h : isKey letters key = true) (hc : c ∈ separators)
    (rest : List Char) : Cuts letters key.text.toList (spelling key) (c :: rest) := by
  have hpart : ∀ d ∈ (c :: rest).head?, isPart letters d = false := by
    rintro _ ⟨⟩
    exact isPart_of_mem_separators hc
  have hpoint : (c :: rest).head? ≠ some '.' := by
    simpa using ne_point_of_mem_separators hc
  unfold isKey at h
  split at h
  · exact Cuts.word h hpart
  · exact Cuts.quoted _ _
  · exact Cuts.number h hpart hpoint
  · cases h

/-! ### The first character of an operand -/

theorem not_mem_followers_of_isPart (h : isPart letters c = true) : c ∉ Mark.followers := by
  intro hmem
  simp only [Mark.followers, List.mem_cons, List.not_mem_nil, or_false] at hmem
  rcases hmem with rfl | rfl | rfl | rfl | rfl | rfl | rfl | rfl | rfl | rfl | rfl <;>
    simp [isPart, isStart] at h

theorem head_of_isWord (h : isWord letters text = true) : ∃ c ∈ text.toList.head?, c ∉ Mark.followers := by
  unfold isWord at h
  split at h
  · cases h
  · rename_i first rest htext
    simp only [Bool.and_eq_true] at h
    have hpart : isPart letters first = true := by simp [isPart, h.1]
    exact ⟨first, by simp [htext], not_mem_followers_of_isPart hpart⟩

theorem head_numberText (h : isPlain value = true) :
    ∃ c ∈ (Script.numberText value).toList.head?, c ∉ Mark.followers := by
  obtain ⟨whole, places, hnumeral, -⟩ := exists_numeral_numberText h
  obtain ⟨first, digits, rfl⟩ := List.exists_cons_of_ne_nil hnumeral.whole_ne_nil
  have hdigit : first.isDigit = true := hnumeral.isDigit_whole first List.mem_cons_self
  have hplain : ∀ c ∈ Mark.followers, c.isDigit = false := by simp [Mark.followers]
  refine ⟨first, ?_, fun hmem => ?_⟩
  · rw [hnumeral.eq]
    split <;> simp
  · simp [hplain first hmem] at hdigit

theorem head_append {a b : List Char} (h : ∃ c ∈ a.head?, c ∉ Mark.followers) :
    ∃ c ∈ (a ++ b).head?, c ∉ Mark.followers := by
  obtain ⟨c, hc, hnot⟩ := h
  exact ⟨c, by simp_all, hnot⟩

/-- The text of an operand does not make a mark in front of it longer. -/
theorem head_text_of_rank (h : Formed letters t) (hrank : 2 ≤ rank t) :
    ∃ c ∈ t.text.toList.head?, c ∉ Mark.followers := by
  induction h with
  | name hname => exact head_of_isWord (isWord_of_isIdentifier hname)
  | number hvalue => exact head_numberText hvalue
  | string value => exact ⟨'"', by simp [Script.Expr.text, Script.literalText, Text.Quoted.encode], by decide⟩
  | boolean value => cases value <;> exact ⟨_, rfl, by decide⟩
  | null | undefined => exact ⟨_, rfl, by decide⟩
  | paren | array | object =>
    simp only [Script.Expr.text, String.toList_append]
    exact head_append (head_append ⟨_, rfl, by decide⟩)
  | member _ hobject _ ih =>
    simp only [Script.Expr.text, String.toList_append]
    exact head_append (head_append (ih (by simp [rank_of_isObject hobject])))
  | index _ hobject _ ih _ | call _ hobject _ ih _ =>
    simp only [Script.Expr.text, String.toList_append]
    exact head_append (head_append (head_append (ih (by simp [rank_of_isObject hobject]))))
  | updateAfter op _ htarget ih =>
    simp only [Script.Expr.text, String.toList_append]
    exact head_append (ih (by simp [rank_of_isTarget htarget]))
  | _ => simp [rank] at hrank

/-! ### Trees -/

/-- A mark in front of a text that does not make it longer. -/
theorem Cuts.mark_append {mark : Mark} (hmark : mark ∈ Mark.all) {text : List Char}
    (htext : ∃ c ∈ text.head?, c ∉ Mark.followers) (rest : List Char) :
    Cuts letters mark.text.toList [.mark mark] (text ++ rest) := by
  obtain ⟨c, hc, hnot⟩ := htext
  apply Cuts.mark hmark
  intro d hd
  have hsame : d = c := by simp_all
  by_contra hextended
  exact hnot (hsame ▸ Mark.mem_followers_of_extended hmark (by simpa using hextended))

theorem Cuts.param {p : Script.Param Tree} (hname : isIdentifier letters (paramName p) = true)
    (hdefault : ∀ t ∈ paramDefault? p, ∀ {rest}, Apart letters t rest →
      Cuts letters t.text.toList (spelling t) rest) (hc : c ∈ separators) (rest : List Char) :
    Cuts letters (Script.paramText p).toList (paramSpelling p) (c :: rest) := by
  have hword := isWord_of_isIdentifier hname
  cases p with
  | plain name => exact Cuts.word_separator hword hc rest
  | optional name default =>
    have hvalue := hdefault default rfl (Apart.of_separator default hc rest)
    have hequal := (Cuts.spaced .equal (by decide) _).append hvalue
    have hall := (Cuts.word_separator hword (by decide) _).append hequal
    simpa [Script.paramText, paramSpelling, paramName, Mark.text] using hall
  | rest name =>
    have hall := (Cuts.closed .ellipsis (by decide) _).append (Cuts.word_separator hword hc rest)
    simpa [Script.paramText, paramSpelling, paramName, Mark.text] using hall

theorem Cuts.assignment {a : String × Tree} (hname : isIdentifier letters a.1 = true)
    (hvalue : ∀ {rest}, Apart letters a.2 rest → Cuts letters a.2.text.toList (spelling a.2) rest) (rest : List Char) :
    Cuts letters (Script.assignmentText a).toList (assignmentSpelling a) rest := by
  obtain ⟨name, value⟩ := a
  have hend := (hvalue (Apart.of_separator value (by decide) _)).append
    (Cuts.closed .semicolon (by decide) rest)
  have hequal := (Cuts.spaced .equal (by decide) _).append hend
  have hall := (Cuts.word_separator (isWord_of_isIdentifier hname) (by decide) _).append hequal
  simpa [Script.assignmentText, assignmentSpelling, Mark.text] using hall

theorem Cuts.entry {entry : Tree × Tree} (hkey : isKey letters entry.1 = true)
    (hvalue : ∀ {rest}, Apart letters entry.2 rest →
      Cuts letters entry.2.text.toList (spelling entry.2) rest) (hc : c ∈ separators) (rest : List Char) :
    Cuts letters (Script.entryText entry).toList (entrySpelling entry) (c :: rest) := by
  obtain ⟨key, value⟩ := entry
  have hend := (Cuts.blank _).append (hvalue (Apart.of_separator value hc rest))
  have hcolon := (Cuts.closed .colon (by decide) _).append hend
  have hall := (Cuts.key hkey (by decide) _).append hcolon
  simpa [Script.entryText, entrySpelling, Mark.text] using hall

theorem Cuts.result (ht : Cuts letters t.text.toList (spelling t) (';' :: rest)) :
    Cuts letters ("return " ++ t.text ++ ";").toList (.word "return" :: spelling t ++ [Lexeme.mark .semicolon])
      rest := by
  have hend := (Cuts.blank _).append (ht.append (Cuts.closed .semicolon (by decide) rest))
  have hword : isWord letters "return" = true := isWord_of_ascii (by decide) (by decide)
  have hall := (Cuts.word_separator hword (by decide) _).append hend
  simpa [Mark.text] using hall

theorem Cuts.async (isAsync : Bool) (rest : List Char) :
    Cuts letters (Script.asyncText isAsync).toList (asyncSpelling isAsync) rest := by
  cases isAsync with
  | false => exact Cuts.empty rest
  | true =>
    have hword : isWord letters "async" = true := isWord_of_ascii (by decide) (by decide)
    have hall := (Cuts.word_separator hword (by decide) _).append (Cuts.blank rest)
    simpa [Script.asyncText, asyncSpelling] using hall

/-- The text of a formed tree is cut into its spelling. -/
theorem Formed.cuts (h : Formed letters t) :
    ∀ {rest : List Char}, Apart letters t rest → Cuts letters t.text.toList (spelling t) rest := by
  induction h with
  | name hname => exact fun hrest => Cuts.word (isWord_of_isIdentifier hname) hrest.isPart
  | number hvalue =>
    intro rest hrest
    refine Cuts.number hvalue hrest.isPart fun hpoint => ?_
    exact absurd ((hrest '.' hpoint).2 rfl) (by simp [isObject])
  | string value => exact fun _ => Cuts.quoted value _
  | boolean value =>
    intro rest hrest
    cases value with
    | true => exact Cuts.word (isWord_of_ascii (by decide) (by decide)) hrest.isPart
    | false => exact Cuts.word (isWord_of_ascii (by decide) (by decide)) hrest.isPart
  | null | undefined =>
    intro rest hrest
    exact Cuts.word (isWord_of_ascii (by decide) (by decide)) hrest.isPart
  | @paren inner _ ih =>
    intro rest hrest
    have hclose := (ih (Apart.of_separator inner (by decide) _)).append
      (Cuts.closed .rightParen (by decide) rest)
    have hall := (Cuts.closed .leftParen (by decide) _).append hclose
    simpa [Script.Expr.text, spelling, Mark.text] using hall
  | @array elements _ ih =>
    intro rest hrest
    have hitems := Cuts.separated (fun t ht c hc rest => ih t ht (Apart.of_separator t hc rest))
      ']' (by decide) rest
    have hclose := hitems.append (Cuts.closed .rightBracket (by decide) rest)
    have hall := (Cuts.closed .leftBracket (by decide) _).append hclose
    simpa [Script.Expr.text, spelling, texts_eq_map, spellings_eq_map, Mark.text] using hall
  | @object entries hkeys _ ih =>
    intro rest hrest
    have hitems := Cuts.separated
      (fun entry hentry c hc rest => Cuts.entry (hkeys entry hentry) (ih entry hentry) hc rest)
      '}' (by decide) rest
    have hclose := hitems.append (Cuts.closed .rightBrace (by decide) rest)
    have hall := (Cuts.closed .leftBrace (by decide) _).append hclose
    simpa [Script.Expr.text, spelling, entryTexts_eq_map, entrySpellings_eq_map, Mark.text] using hall
  | @member object name _ hobject hname ih =>
    intro rest hrest
    have hword := Cuts.word hname hrest.isPart
    have hdot : Cuts letters Mark.dot.text.toList [.mark .dot] (name.toList ++ rest) :=
      Cuts.mark_append (by decide) (head_of_isWord hname) rest
    have hapart : Apart letters object ('.' :: (name.toList ++ rest)) := by
      rintro _ ⟨⟩
      exact ⟨by simp [isPart, isStart], fun _ => hobject⟩
    have hall := (ih hapart).append (hdot.append hword)
    simpa [Script.Expr.text, spelling, Mark.text] using hall
  | @index object position _ _ _ ihObject ihPosition =>
    intro rest hrest
    have hclose := (ihPosition (Apart.of_separator position (by decide) _)).append
      (Cuts.closed .rightBracket (by decide) rest)
    have hopen := (Cuts.closed .leftBracket (by decide) _).append hclose
    have hall := (ihObject (Apart.of_separator object (by decide) _)).append hopen
    simpa [Script.Expr.text, spelling, Mark.text] using hall
  | @call callee arguments _ _ _ ihCallee ihArguments =>
    intro rest hrest
    have hitems := Cuts.separated
      (fun t ht c hc rest => ihArguments t ht (Apart.of_separator t hc rest)) ')' (by decide) rest
    have hclose := hitems.append (Cuts.closed .rightParen (by decide) rest)
    have hopen := (Cuts.closed .leftParen (by decide) _).append hclose
    have hall := (ihCallee (Apart.of_separator callee (by decide) _)).append hopen
    simpa [Script.Expr.text, spelling, texts_eq_map, spellings_eq_map, Mark.text] using hall
  | @updateAfter op target _ _ ih =>
    intro rest hrest
    have hapart : Apart letters target ((updateMark op).text.toList ++ rest) := by
      cases op <;> exact Apart.of_separator target (by decide) _
    have hall := (ih hapart).append (Cuts.closed (updateMark op) (by cases op <;> decide) rest)
    have htext : Script.updateText op = (updateMark op).text := by cases op <;> rfl
    simpa [Script.Expr.text, spelling, htext] using hall
  | @updateBefore op target _ _ ih =>
    intro rest hrest
    have hall := (Cuts.closed (updateMark op) (by cases op <;> decide) _).append
      (ih (hrest.of_not_isObject rfl))
    have htext : Script.updateText op = (updateMark op).text := by cases op <;> rfl
    simpa [Script.Expr.text, spelling, htext] using hall
  | @unary op operand hoperand hrank ih =>
    intro rest hrest
    have hmark : Cuts letters (unaryMark op).text.toList [.mark (unaryMark op)] _ :=
      Cuts.mark_append (by cases op <;> decide) (head_text_of_rank hoperand hrank) rest
    have hall := hmark.append (ih (hrest.of_not_isObject rfl))
    have htext : Script.unaryText op = (unaryMark op).text := by cases op <;> rfl
    simpa [Script.Expr.text, spelling, htext] using hall
  | @worded op operand hop hoperand hrank ih =>
    intro rest hrest
    have hend := (Cuts.blank _).append (ih (hrest.of_not_isObject rfl))
    have hword : isWord letters (Script.wordText op) = true := by
      cases op <;> exact isWord_of_ascii (by decide) (by decide)
    have hall := (Cuts.word_separator hword (by decide) _).append hend
    simpa [Script.Expr.text, spelling] using hall
  | @binary op left right _ _ _ _ ihLeft ihRight =>
    intro rest hrest
    have hmark := (Cuts.spaced (.operator op) (by cases op <;> decide) _).append
      (ihRight (hrest.of_not_isObject rfl))
    have hall := (ihLeft (Apart.of_separator left (by decide) _)).append hmark
    simpa [Script.Expr.text, spelling, Mark.text] using hall
  | @conditional condition yes no _ _ _ _ ihCondition ihYes ihNo =>
    intro rest hrest
    have hno := (Cuts.spaced .colon (by decide) _).append (ihNo (hrest.of_not_isObject rfl))
    have hyes := (ihYes (Apart.of_separator yes (by decide) _)).append hno
    have hmark := (Cuts.spaced .question (by decide) _).append hyes
    have hall := (ihCondition (Apart.of_separator condition (by decide) _)).append hmark
    simpa [Script.Expr.text, spelling, Mark.text] using hall
  | @assign target value _ _ _ ihTarget ihValue =>
    intro rest hrest
    have hmark := (Cuts.spaced .equal (by decide) _).append (ihValue (hrest.of_not_isObject rfl))
    have hall := (ihTarget (Apart.of_separator target (by decide) _)).append hmark
    simpa [Script.Expr.text, spelling, Mark.text] using hall
  | @function isAsync params prologue result hnames _ hassigned _ _ ihDefaults ihPrologue ihResult =>
    intro rest hrest
    have hend : Cuts letters _ _ rest :=
      (Cuts.blank _).append (Cuts.closed .rightBrace (by decide) rest)
    have hresult := Cuts.result (ihResult (Apart.of_separator result (by decide)
      ([' '] ++ Mark.rightBrace.text.toList ++ rest)))
    have hstatements := Cuts.statements
      (fun a ha rest => Cuts.assignment (hassigned a ha) (ihPrologue a ha) _) hresult
    have hbody := (Cuts.blank _).append (hstatements.append hend)
    have hopen := (Cuts.blank _).append ((Cuts.closed .leftBrace (by decide) _).append hbody)
    have hparams := (Cuts.separated
      (fun p hp c hc rest => Cuts.param (hnames p hp) (ihDefaults p hp) hc rest)
        ')' (by decide) _).append ((Cuts.closed .rightParen (by decide) _).append hopen)
    have hword : isWord letters "function" = true := isWord_of_ascii (by decide) (by decide)
    have hfunction := (Cuts.word_separator hword (by decide) _).append ((Cuts.blank _).append
      ((Cuts.closed .leftParen (by decide) _).append hparams))
    have hall := (Cuts.async isAsync _).append hfunction
    simpa [Script.Expr.text, spelling, paramTexts_eq_map, paramSpellings_eq_map, assignmentTexts_eq_map,
      assignmentSpellings_eq_flatMap, Mark.text] using hall

end

end Offside.JavaScript
