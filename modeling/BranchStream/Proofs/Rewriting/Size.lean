import BranchStream.Rewriting.Grammar
import Mathlib.Algebra.Ring.Nat

namespace BranchStream.Grammar

def longest (g : Grammar) : Nat := (g.rules.toList.map fun r ↦ r.2.length).max?.getD 0

variable {g : Grammar} {c : Symbol} {production : Word}

theorem length_le_longest (h : g.rule? c = some production) : production.length ≤ g.longest := by
  have hmem : (c, production) ∈ g.rules.toList :=
    Std.ExtTreeMap.mem_toList_iff_getElem?_eq_some.mpr h
  exact List.le_max?_getD_of_mem (List.mem_map_of_mem hmem)

theorem length_rewriteSymbol_le (g : Grammar) (c : Symbol) :
    (g.rewriteSymbol c).length ≤ max 1 g.longest := by
  rw [rewriteSymbol]
  cases h : g.rule? c with
  | none => exact Nat.le_max_left _ _
  | some production => exact Nat.le_trans (length_le_longest h) (Nat.le_max_right _ _)

theorem length_rewrite_le (g : Grammar) (w : Word) :
    (g.rewrite w).length ≤ w.length * max 1 g.longest := by
  induction w with
  | nil => exact Nat.zero_le _
  | cons c w ih =>
    have hsymbol := g.length_rewriteSymbol_le c
    have hlength : (g.rewrite (c :: w)).length = (g.rewriteSymbol c).length + (g.rewrite w).length :=
      List.length_append
    rw [hlength, List.length_cons, Nat.succ_mul]
    omega

theorem length_passes_le (g : Grammar) (n : Nat) (w : Word) :
    (g.passes n w).length ≤ w.length * max 1 g.longest ^ n := by
  -- after the first pass the word is no longer the start, so the bound is needed for every word
  induction n generalizing w with
  | zero => rw [passes, pow_zero, Nat.mul_one]
  | succ n ih =>
    calc (g.passes n (g.rewrite w)).length
      _ ≤ (g.rewrite w).length * max 1 g.longest ^ n := ih _
      _ ≤ w.length * max 1 g.longest * max 1 g.longest ^ n :=
        Nat.mul_le_mul_right _ (g.length_rewrite_le w)
      _ = w.length * max 1 g.longest ^ (n + 1) := by rw [pow_succ', Nat.mul_assoc]

theorem length_expand_le (g : Grammar) (n : Nat) :
    (g.expand n).length ≤ g.start.length * max 1 g.longest ^ n :=
  Nat.le_trans (List.length_filter_le _ _) (g.length_passes_le n g.start)

end BranchStream.Grammar
