import BranchStream.Rewriting.Expander

namespace BranchStream.Expander

/-- The expander is that of `g`, and what it remembers is an expansion of `g`. -/
structure Faithful (g : Grammar) (e : Expander) : Prop where
  grammar_eq : e.grammar = g
  last_eq : ∀ n w, e.last = some (n, w) → w = g.expand n

variable {g : Grammar} {e : Expander}

theorem faithful_ofGrammar (g : Grammar) : (ofGrammar g).Faithful g := ⟨rfl, nofun⟩

theorem Faithful.recompute (h : e.Faithful g) (n : Nat) :
    (expand.recompute e n).1 = g.expand n ∧ (expand.recompute e n).2.Faithful g := by
  rw [expand.recompute, h.grammar_eq]
  refine ⟨rfl, rfl, ?_⟩
  intro m w hw
  obtain ⟨rfl, rfl⟩ := Prod.mk.inj (Option.some.inj hw)
  rfl

theorem Faithful.expand (h : e.Faithful g) (n : Nat) :
    (e.expand n).1 = g.expand n ∧ (e.expand n).2.Faithful g := by
  rw [Expander.expand]
  cases hl : e.last with
  | none => exact h.recompute n
  | some entry =>
    obtain ⟨m, w⟩ := entry
    by_cases hm : m = n
    · subst hm
      simpa only [if_true] using And.intro (h.last_eq m w hl) h
    · simpa only [if_neg hm] using h.recompute n

theorem lastCount_expand (e : Expander) (n : Nat) : (e.expand n).2.lastCount = some n := by
  rw [Expander.expand]
  cases hl : e.last with
  | none => rfl
  | some entry =>
    obtain ⟨m, w⟩ := entry
    by_cases hm : m = n
    · simp [hm, lastCount, hl]
    · simp [hm, lastCount, expand.recompute]

def after (e : Expander) (ns : List Nat) : Expander := ns.foldl (fun e n ↦ (e.expand n).2) e

theorem Faithful.after (h : e.Faithful g) (ns : List Nat) : (e.after ns).Faithful g := by
  induction ns generalizing e with
  | nil => exact h
  | cons n ns ih => exact ih (h.expand n).2

end BranchStream.Expander
