import Offside.Proofs.Grammar.StatementRules

/-!
# Parsing goes on

The laws of the parser monad, and what is left of the tokens where parsing goes on after a failure: an end of those
before it, with at least one token less.
-/

namespace Offside.Grammar

open Offside.Grammar.Parser

variable {α β : Type}

theorem bind_assoc_apply {γ : Type} (p : Parser α) (f : α → Parser β) (g : β → Parser γ) :
    p >>= f >>= g = p >>= fun a => f a >>= g := by
  funext stop tokens
  simp only [Bind.bind]
  cases p stop tokens with
  | mk outcome rest notes =>
    cases outcome with
    | error diagnostic => rfl
    | ok a =>
      cases hnext : f a stop rest with
      | mk outcome rest notes => cases outcome <;> simp [hnext]

theorem id_map_apply (p : Parser α) : id <$> p = p := by
  funext stop tokens
  simp only [Functor.map]
  cases p stop tokens with
  | mk outcome rest notes =>
    cases outcome with
    | error diagnostic => rfl
    | ok a => exact congrArg (Reply.mk (.ok a) rest) (List.append_nil notes)

instance : LawfulMonad Parser := LawfulMonad.mk' Parser id_map_apply (fun _ _ => rfl) bind_assoc_apply

/-! ## Recovery -/

section
variable {tokens : List Token}

theorem synchronize_suffix (depth : Nat) (tokens : List Token) : synchronize depth tokens <:+ tokens := by
  fun_induction synchronize depth tokens with
  | case1 | case5 | case8 => exact List.suffix_refl _
  | case2 token rest | case6 token rest => exact List.suffix_cons token rest
  | case3 _ token rest _ _ ih | case4 _ token rest _ ih | case7 token rest _ _ _ ih | case9 _ token rest _ _ _ _ ih =>
    exact ih.trans (List.suffix_cons token rest)

theorem resume_suffix {rest : List Token} (h : rest <:+ tokens) : resume tokens rest <:+ tokens := by
  have hnext : synchronize 0 rest <:+ tokens := (synchronize_suffix 0 rest).trans h
  simp only [resume]
  split
  · exact (List.tail_suffix _).trans hnext
  · exact hnext

theorem length_resume_lt {rest : List Token} (h : rest <:+ tokens) (hne : tokens ≠ []) :
    (resume tokens rest).length < tokens.length := by
  have hnext : synchronize 0 rest <:+ tokens := (synchronize_suffix 0 rest).trans h
  have hlength := hnext.length_le
  have hpos := List.length_pos_iff.2 hne
  simp only [resume]
  split
  · rw [List.length_tail]
    omega
  · omega

theorem exists_outcome_recovering (p : Parser α) (stop : Token) (tokens : List Token) :
    ∃ found, (recovering p stop tokens).outcome = .ok found := by
  unfold recovering
  split
  · exact ⟨_, rfl⟩
  · exact ⟨_, rfl⟩

end

end Offside.Grammar
