import BranchStream.Rewriting.Grammar

namespace BranchStream.Grammar

variable {g : Grammar} {c : Symbol} {w : Word}

theorem rewriteSymbol_of_terminal (h : g.rule? c = none) : g.rewriteSymbol c = [c] := by
  rw [rewriteSymbol, h, Option.getD_none]

theorem terminals_sublist_rewrite (g : Grammar) (w : Word) :
    (g.terminals w).Sublist (g.terminals (g.rewrite w)) := by
  induction w with
  | nil => exact .slnil
  | cons c w ih =>
    have hsymbol : (g.terminals [c]).Sublist (g.terminals (g.rewriteSymbol c)) := by
      cases h : g.rule? c with
      | none => exact (rewriteSymbol_of_terminal h).symm ▸ List.Sublist.refl _
      | some production =>
        have hdropped : g.terminals [c] = [] := by simp [terminals, h]
        rw [hdropped]
        exact List.nil_sublist _
    have happend := hsymbol.append ih
    rwa [← terminals_append, ← terminals_append] at happend

theorem rewrite_of_terminal (h : ∀ c ∈ w, g.rule? c = none) : g.rewrite w = w := by
  induction w with
  | nil => rfl
  | cons c w ih =>
    obtain ⟨hc, hw⟩ := List.forall_mem_cons.mp h
    have hrest := ih hw
    rw [rewrite] at hrest ⊢
    rw [List.flatMap_cons, rewriteSymbol_of_terminal hc, hrest, List.singleton_append]

theorem terminals_of_terminal (h : ∀ c ∈ w, g.rule? c = none) : g.terminals w = w :=
  List.filter_eq_self.mpr fun c hc ↦ Option.isNone_iff_eq_none.mpr (h c hc)

theorem passes_of_terminal {n : Nat} (h : ∀ c ∈ g.passes n w, g.rule? c = none) (k : Nat) :
    g.passes (n + k) w = g.passes n w := by
  induction k with
  | zero => rfl
  | succ k ih => rw [← Nat.add_assoc, passes_succ, ih, rewrite_of_terminal h]

/-- Iterating only adds terminals. What a number of passes leaves of the start is still there, in
the same order, after one pass more; and if so many passes leave no symbol with a rule, then the
word that they lead to is the expansion, for this and for every greater number of passes. -/
theorem expand_sublist_succ (g : Grammar) (n : Nat) :
    (g.expand n).Sublist (g.expand (n + 1)) ∧
      ((∀ c ∈ g.passes n g.start, g.rule? c = none) →
        g.expand n = g.passes n g.start ∧ ∀ m, n ≤ m → g.expand m = g.expand n) := by
  constructor
  · rw [expand, expand, passes_succ]
    exact g.terminals_sublist_rewrite _
  · intro h
    refine ⟨terminals_of_terminal h, fun m hle ↦ ?_⟩
    obtain ⟨k, rfl⟩ := Nat.exists_eq_add_of_le hle
    rw [expand, expand, passes_of_terminal h k]

theorem expand_sublist_succ_of_erasing :
    let g : Grammar := ⟨['A', '+', 'F'], .ofList [('A', ['F', 'B', '-']), ('B', []), ('F', ['!'])],
      by decide⟩
    (∀ c ∈ g.passes 2 g.start, g.rule? c = none) ∧ g.expand 0 = ['+'] ∧
      g.expand 1 = ['-', '+', '!'] ∧ g.expand 2 = ['!', '-', '+', '!'] ∧
      (g.expand 1).Sublist (g.expand 2) ∧ ∀ m, 2 ≤ m → g.expand m = ['!', '-', '+', '!'] := by
  intro g
  have hnone : (g.passes 2 g.start).all (fun c ↦ (g.rule? c).isNone) = true := by decide +kernel
  have hterminal : ∀ c ∈ g.passes 2 g.start, g.rule? c = none :=
    fun c hc ↦ Option.isNone_iff_eq_none.mp (List.all_eq_true.mp hnone c hc)
  have hlast : g.expand 2 = ['!', '-', '+', '!'] := by decide +kernel
  refine ⟨hterminal, by decide +kernel, by decide +kernel, hlast, (expand_sublist_succ g 1).1, ?_⟩
  intro m hle
  exact (((expand_sublist_succ g 2).2 hterminal).2 m hle).trans hlast

end BranchStream.Grammar
