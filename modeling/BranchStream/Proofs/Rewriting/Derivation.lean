import BranchStream.Rewriting.Grammar

namespace BranchStream.Grammar

/-- What a symbol stands for when rules may be applied `n` times on the way down: a terminal for
itself, any other symbol for what its production stands for, or for nothing if `n` is used up. -/
def meaning (g : Grammar) : Nat → Symbol → Word
  | 0, c =>
    match g.rule? c with
    | none => [c]
    | some _ => []
  | n + 1, c =>
    match g.rule? c with
    | none => [c]
    | some production => production.flatMap (g.meaning n)

variable {g g' : Grammar} {n : Nat} {c : Symbol}

theorem meaning_of_terminal (h : g.rule? c = none) : g.meaning n c = [c] := by
  cases n with
  | zero => rw [meaning, h]
  | succ n => rw [meaning, h]

theorem meaning_succ : g.meaning (n + 1) c = (g.rewriteSymbol c).flatMap (g.meaning n) := by
  rw [meaning, rewriteSymbol]
  cases h : g.rule? c with
  | none => rw [Option.getD_none, List.flatMap_singleton, meaning_of_terminal h]
  | some production => rfl

theorem terminals_eq_flatMap (w : Word) : g.terminals w = w.flatMap (g.meaning 0) := by
  induction w with
  | nil => rfl
  | cons c w ih =>
    rw [List.flatMap_cons, ← ih, meaning]
    cases h : g.rule? c with
    | none => simp [terminals, h]
    | some production => simp [terminals, h]

theorem terminals_passes (n : Nat) (w : Word) :
    g.terminals (g.passes n w) = w.flatMap (g.meaning n) := by
  -- the first pass replaces the whole word, so the rest must be known for every word
  induction n generalizing w with
  | zero => exact terminals_eq_flatMap w
  | succ n ih =>
    have hmeaning : g.meaning (n + 1) = fun c ↦ (g.rewriteSymbol c).flatMap (g.meaning n) :=
      funext fun _ ↦ meaning_succ
    rw [passes, ih, rewrite, List.flatMap_assoc, hmeaning]

theorem rule?_of_mem_terminals {w : Word} (h : c ∈ g.terminals w) : g.rule? c = none := by
  simpa using (List.mem_filter.mp h).2

theorem meaning_congr (h : g.rules = g'.rules) : g.meaning n = g'.meaning n := by
  have hrule (c : Symbol) : g.rule? c = g'.rule? c := by rw [rule?, rule?, h]
  induction n with
  | zero => funext c; simp only [meaning, hrule]
  | succ n ih => funext c; simp only [meaning, hrule, ih]

/-- An expansion is what the start stands for. So it holds only terminals, and it can be had part by
part: the expansion of a start in two parts is that of the first followed by that of the second. -/
theorem expand_eq_flatMap_meaning (g : Grammar) (n : Nat) :
    g.expand n = g.start.flatMap (g.meaning n) ∧ (∀ c ∈ g.expand n, g.rule? c = none) ∧
      ∀ u v (hu : u ≠ []) (hv : v ≠ []), g.start = u ++ v →
        g.expand n = expand ⟨u, g.rules, hu⟩ n ++ expand ⟨v, g.rules, hv⟩ n := by
  refine ⟨terminals_passes n g.start, fun c hc ↦ rule?_of_mem_terminals hc, ?_⟩
  intro u v hu hv hstart
  have hpart (w : Word) (hw : w ≠ []) :
      expand ⟨w, g.rules, hw⟩ n = w.flatMap (g.meaning n) := by
    rw [expand, terminals_passes]
    exact congrArg w.flatMap (meaning_congr rfl)
  rw [hpart u hu, hpart v hv, expand, terminals_passes, hstart, List.flatMap_append]

theorem expand_of_two_symbols :
    let g : Grammar := ⟨['A', 'B'], .ofList [('A', ['A', '+', 'B']), ('B', ['-', 'A'])], by decide⟩
    ['A'] ≠ [] ∧ ['B'] ≠ [] ∧ g.start = ['A'] ++ ['B'] ∧
      g.expand 2 = expand ⟨['A'], g.rules, by decide⟩ 2 ++ expand ⟨['B'], g.rules, by decide⟩ 2 ∧
      g.expand 2 = ['+', '+', '-', '-', '+'] := by
  intro g
  refine ⟨by decide, by decide, rfl, ?_, by decide +kernel⟩
  exact (expand_eq_flatMap_meaning g 2).2.2 ['A'] ['B'] (by decide) (by decide) rfl

end BranchStream.Grammar
