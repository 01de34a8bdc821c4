import Mathlib.Algebra.Group.Nat.Even
import Offside.Proofs.Grammar.StatementConduct

/-!
# The shapes of parsed nodes

What is written for a program relies on the shapes of its nodes: a constant has a value, a wildcard is the last
parameter, an index has a start and no end, and a regular expression can stand between slashes.  Parsing builds no
other nodes, whatever the tokens are and whichever faults are recorded.  That what is incremented can be is known only
if no fault is.
-/

namespace Offside

namespace Grammar.Regex

variable {depth : Nat} {rest pattern flags : List Char}

/-! ## Regular expressions -/

/-- The inside of a class: escapes, and any characters but a bracket that closes it. -/
inductive ClassBody : List Char → Prop
  | nil : ClassBody []
  | escape {c : Char} {rest : List Char} : ClassBody rest → ClassBody ('\\' :: c :: rest)
  | plain {c : Char} {rest : List Char} : c ∉ ['\\', ']'] → ClassBody rest → ClassBody (c :: rest)

/-- A pattern whose groups and classes are closed: a row of escapes, plain characters, classes and groups. -/
inductive Grouped : List Char → Prop
  | nil : Grouped []
  | escape {c : Char} {rest : List Char} : Grouped rest → Grouped ('\\' :: c :: rest)
  | plain {c : Char} {rest : List Char} : c ∉ ['\\', '[', '(', ')'] → Grouped rest → Grouped (c :: rest)
  | charClass {inside rest : List Char} : ClassBody inside → Grouped rest → Grouped ('[' :: (inside ++ ']' :: rest))
  | group {inside rest : List Char} : Grouped inside → Grouped rest → Grouped ('(' :: (inside ++ ')' :: rest))

/-- A pattern that closes a number of groups opened in front of it. -/
def Closing : Nat → List Char → Prop
  | 0, pattern => Grouped pattern
  | depth + 1, pattern => ∃ inside rest, pattern = inside ++ ')' :: rest ∧ Grouped inside ∧ Closing depth rest

/-- What can be put in front of every closed pattern can be put in front of one that closes groups. -/
theorem Closing.append (front : List Char) (hfront : ∀ pattern, Grouped pattern → Grouped (front ++ pattern))
    (h : Closing depth rest) : Closing depth (front ++ rest) := by
  cases depth with
  | zero => exact hfront rest h
  | succ depth =>
    obtain ⟨inside, behind, rfl, hinside, hbehind⟩ := h
    exact ⟨front ++ inside, behind, (List.append_assoc ..).symm, hfront inside hinside, hbehind⟩

/-- How a pattern goes on behind open groups, and possibly behind an open class. -/
def Continues (depth : Nat) : (inClass : Bool) → List Char → Prop
  | false, pattern => Closing depth pattern
  | true, pattern => ∃ inside rest, pattern = inside ++ ']' :: rest ∧ ClassBody inside ∧ Closing depth rest

theorem continues_of_balanced {inClass : Bool}
    (h : balanced depth inClass pattern = true) : Continues depth inClass pattern := by
  fun_induction balanced depth inClass pattern with
  | case1 depth inClass =>
    simp only [Bool.and_eq_true, decide_eq_true_eq, Bool.not_eq_true'] at h
    obtain ⟨rfl, rfl⟩ := h
    exact Grouped.nil
  | case2 => cases h
  | case3 depth inClass c rest ih =>
    cases inClass with
    | false => exact Closing.append ['\\', c] (fun _ => .escape) (ih h)
    | true =>
      obtain ⟨inside, behind, rfl, hinside, hbehind⟩ := ih h
      exact ⟨_, behind, rfl, .escape hinside, hbehind⟩
  | case4 depth c rest hescape ih =>
    by_cases hclose : c = ']'
    · subst hclose
      exact ⟨[], rest, rfl, .nil, ih h⟩
    · rw [decide_eq_true hclose] at h ih
      obtain ⟨inside, behind, rfl, hinside, hbehind⟩ := ih h
      exact ⟨c :: inside, behind, rfl, .plain (by simpa using ⟨hescape, hclose⟩) hinside, hbehind⟩
  | case5 depth inClass rest hclass _ ih =>
    rw [Bool.eq_false_of_not_eq_true hclass]
    obtain ⟨inside, behind, rfl, hinside, hbehind⟩ := ih h
    have hfront : ∀ pattern, Grouped pattern → Grouped (('[' :: (inside ++ [']'])) ++ pattern) := by
      intro pattern hpattern
      simpa using Grouped.charClass hinside hpattern
    have hclosing := hbehind.append _ hfront
    rwa [List.cons_append, List.append_assoc, List.singleton_append] at hclosing
  | case6 depth inClass rest hclass _ _ ih =>
    rw [Bool.eq_false_of_not_eq_true hclass]
    obtain ⟨inside, behind, rfl, hinside, hbehind⟩ := ih h
    have hfront : ∀ pattern, Grouped pattern → Grouped (('(' :: (inside ++ [')'])) ++ pattern) := by
      intro pattern hpattern
      simpa using Grouped.group hinside hpattern
    have hclosing := hbehind.append _ hfront
    rwa [List.cons_append, List.append_assoc, List.singleton_append] at hclosing
  | case7 => cases h
  | case8 inClass rest hclass depth _ _ _ ih =>
    rw [Bool.eq_false_of_not_eq_true hclass]
    exact ⟨[], rest, rfl, .nil, ih h⟩
  | case9 depth inClass c rest hescape hclass hbracket hopen hclose ih =>
    rw [Bool.eq_false_of_not_eq_true hclass]
    exact Closing.append [c] (fun _ => .plain (by simpa using ⟨hescape, hbracket, hopen, hclose⟩)) (ih h)

/-- No backslash stands alone at the end: those behind the last other character come in pairs. -/
def PairedEnd (pattern : List Char) : Prop :=
  ∀ front count, pattern = front ++ List.replicate count '\\' → front.getLast? ≠ some '\\' → Even count

theorem PairedEnd.escape {c : Char} (h : PairedEnd rest) : PairedEnd ('\\' :: c :: rest) := by
  intro front count hpattern hlast
  match front with
  | [] =>
    match count with
    | 0 | 1 => simp at hpattern
    | count + 2 =>
      have hrest : rest = [] ++ List.replicate count '\\' := by
        simp only [List.nil_append, List.replicate_succ, List.cons.injEq] at hpattern
        exact hpattern.2.2
      have heven : Even count := h [] count hrest (by simp)
      exact Even.add heven ⟨1, rfl⟩
  | [_] =>
    obtain ⟨rfl, -⟩ := List.cons.inj hpattern
    exact absurd rfl hlast
  | _ :: _ :: front =>
    have hrest : rest = front ++ List.replicate count '\\' := by simp_all
    refine h front count hrest fun hfront => hlast ?_
    simp [List.getLast?_cons, hfront]

theorem PairedEnd.plain {c : Char} (hc : c ≠ '\\') (h : PairedEnd rest) : PairedEnd (c :: rest) := by
  intro front count hpattern hlast
  match front with
  | [] => cases count <;> simp_all [List.replicate_succ]
  | _ :: front =>
    have hrest : rest = front ++ List.replicate count '\\' := by simp_all
    refine h front count hrest fun hfront => hlast ?_
    simp [List.getLast?_cons, hfront]

theorem pairedEnd_of_balanced {inClass : Bool} (h : balanced depth inClass pattern = true) : PairedEnd pattern := by
  fun_induction balanced depth inClass pattern with
  | case1 =>
    intro front count hpattern _
    simp_all
  | case2 | case7 => cases h
  | case3 _ _ _ _ ih => exact (ih h).escape
  | case4 _ _ _ hescape ih | case9 _ _ _ _ hescape _ _ _ _ ih => exact (ih h).plain hescape
  | case5 _ _ _ _ _ ih | case6 _ _ _ _ _ _ ih | case8 _ _ _ _ _ _ _ ih => exact (ih h).plain (by decide)

/-- The pattern and the flags of a regular expression that can stand between slashes. -/
structure WellFormed (pattern flags : List Char) : Prop where
  ne_nil : pattern ≠ []
  unquantified : ∀ c ∈ pattern.head?, c ∉ ['*', '+', '?']
  pairedEnd : PairedEnd pattern
  grouped : Grouped pattern
  distinct : flags.Nodup
  letters : ∀ c ∈ flags, c ∈ ['d', 'g', 'i', 'm', 's', 'u', 'y']

theorem nodup_of_validFlags (h : validFlags flags = true) :
    flags.Nodup ∧ ∀ c ∈ flags, c ∈ ['d', 'g', 'i', 'm', 's', 'u', 'y'] := by
  induction flags with
  | nil => simp
  | cons c rest ih =>
    simp only [validFlags, Bool.and_eq_true, Bool.not_eq_true', List.contains_eq_mem, decide_eq_false_iff_not] at h
    obtain ⟨⟨hflag, hnew⟩, hrest⟩ := h
    obtain ⟨hnodup, hletters⟩ := ih hrest
    exact ⟨List.nodup_cons.2 ⟨hnew, hnodup⟩, List.forall_mem_cons.2 ⟨by simpa [isFlag] using hflag, hletters⟩⟩

/-- What a text was checked for before it was split. -/
theorem valid_of_split? {text : List Char} (h : split? text = some (pattern, flags)) :
    validFlags flags = true ∧ pattern ≠ [] ∧ (∀ c ∈ pattern.head?, c ∉ ['*', '+', '?']) ∧
      balanced 0 false pattern = true := by
  unfold split? at h
  split at h
  · obtain ⟨⟨found, letters⟩, -, hfound⟩ := Option.bind_eq_some_iff.1 h
    obtain ⟨hvalid, hparts⟩ := Option.ite_none_right_eq_some.1 hfound
    cases hparts
    obtain ⟨hflags, hpattern⟩ := Bool.and_eq_true_iff.1 hvalid
    cases pattern with
    | nil => cases hpattern
    | cons first rest =>
      obtain ⟨hfirst, hbalanced⟩ := Bool.and_eq_true_iff.1 hpattern
      exact ⟨hflags, List.cons_ne_nil _ _, by simpa using hfirst, hbalanced⟩
  · cases h

theorem wellFormed_of_split? {text : List Char} (h : split? text = some (pattern, flags)) :
    WellFormed pattern flags := by
  obtain ⟨hflags, hne, hfirst, hbalanced⟩ := valid_of_split? h
  obtain ⟨hnodup, hletters⟩ := nodup_of_validFlags hflags
  exact ⟨hne, hfirst, pairedEnd_of_balanced hbalanced, continues_of_balanced hbalanced, hnodup, hletters⟩

end Grammar.Regex

/-! ## Nodes -/

/-- Only the last parameter may take all arguments that are left. -/
def WildcardLast (params : List (Param Expr)) : Prop := ∀ p ∈ params.dropLast, p.kind = .standard

/-- What the writer of scripts asks of an expression, apart from its parts. -/
def Expr.WellFormed : Expr → Prop
  | .lambda params _ _ => WildcardLast params
  | .subscript _ start colon stop | .assignSubscript _ start colon stop _ =>
    colon = false → start.isSome = true ∧ stop = none
  | .literal (.regex pattern flags) => Grammar.Regex.WellFormed pattern.toList flags.toList
  | _ => True

/-- What an expression increments. -/
def Expr.incremented? : Expr → Option Expr
  | .updateAfter _ target | .updateBefore _ target => some target
  | _ => none

/-- What the writer of scripts asks of a statement, apart from its parts. -/
def Stmt.WellFormed : Stmt → Prop
  | .declare .constant _ init => init.isSome = true
  | .function decl => WildcardLast decl.params
  | .classDecl _ _ methods => ∀ decl ∈ methods, WildcardLast decl.params
  | _ => True

namespace Grammar

variable {source : List Token} {quiet : Prop}

theorem Derives.wellFormed {e : Expr} (h : Derives source quiet e) : e.WellFormed := by
  cases h with
  | lambda hparams => exact hparams.standard
  | subscript _ _ _ _ hindex => exact hindex
  | assignSubscript _ _ _ _ hindex => exact hindex
  | @literal token value _ hvalue =>
    cases value with
    | regex pattern flags => exact absurd hvalue (by unfold literal?; split <;> simp)
    | _ => trivial
  | regex _ _ hsplit => simpa [Expr.WellFormed] using Regex.wellFormed_of_split? hsplit
  | _ => trivial

theorem Derives.isUpdatable {e target : Expr} (h : Derives source quiet e) (hquiet : quiet)
    (htarget : target ∈ e.incremented?) : target.isUpdatable = true := by
  cases h with
  | updateBefore _ _ hupdatable | updateAfter _ _ hupdatable => exact Option.some.inj htarget ▸ hupdatable hquiet
  | _ => cases htarget

theorem StmtDerives.wellFormed {s : Stmt} (h : StmtDerives source quiet s) : s.WellFormed := by
  cases h with
  | @declare binding _ _ _ _ hconstant =>
    cases binding with
    | constant => exact hconstant rfl
    | _ => trivial
  | function hhead => exact hhead.params.standard
  | classDecl _ _ hheads => exact fun decl hdecl => (hheads decl hdecl).params.standard
  | _ => trivial

/-- Whichever faults a parse records, all nodes that it gives are well formed; if it records none, what is incremented
is a variable, a member or a subscript. -/
theorem Parse.wellFormed_ofTokens (tokens : List Token) :
    (∀ s ∈ Program.statements (ofTokens tokens).program, s.WellFormed) ∧
      (∀ e ∈ Program.expressions (ofTokens tokens).program, e.WellFormed) ∧
      ((ofTokens tokens).diagnostics = [] → ∀ e ∈ Program.expressions (ofTokens tokens).program,
        ∀ target ∈ e.incremented?, target.isUpdatable = true) := by
  have hprogram := stmtDerives_ofTokens tokens
  refine ⟨fun s hs => ?_, fun e he => ?_, fun hquiet e he target htarget => ?_⟩
  · exact (stmtDerives_of_mem_statements hprogram hs).wellFormed
  · exact (derives_of_mem_expressions hprogram he).wellFormed
  · exact (derives_of_mem_expressions hprogram he).isUpdatable hquiet htarget

end Grammar

end Offside
