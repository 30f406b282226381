import BranchStream.Turtle.Interpreter

namespace BranchStream.Interpreter

variable {α : Type}

theorem last_setAction (i : Interpreter α) (c : Symbol) (a : Action α) :
    (i.setAction c a).last = none := rfl

section

variable [Scalar α]

theorem last_standard (parameters : Parameters α) (maxDepth : Nat) :
    (standard parameters maxDepth).last = none := rfl

theorem remembers_eq_true_iff {i : Interpreter α} {w : Word} {m : Modifiers α} :
    i.remembers w m = true ↔ ∃ b, i.last = some b ∧ (b.modifiers == m) = true ∧ b.word = w := by
  cases h : i.last with
  | none => simp [remembers, h]
  | some b => simp [remembers, h]

end

variable [Elementary α] {i : Interpreter α} {w : Word} {m : Modifiers α}

theorem interpret_of_remembers (h : i.remembers w m = true) :
    ∃ b, i.last = some b ∧ (b.modifiers == m) = true ∧ b.word = w ∧
      i.interpret w m = (b.tree, i) := by
  obtain ⟨b, hb, hm, hw⟩ := remembers_eq_true_iff.mp h
  refine ⟨b, hb, hm, hw, ?_⟩
  simp only [interpret, hb, hm, hw, Bool.true_and, beq_self_eq_true, if_true]

theorem interpret_of_forgotten (h : i.remembers w m = false) :
    i.interpret w m = (i.build w m, { i with last := some ⟨w, m, i.build w m⟩ }) := by
  cases hb : i.last with
  | none => simp only [interpret, hb, interpret.rebuild]
  | some b =>
    have hno : (b.modifiers == m && b.word == w) = false := by simpa only [remembers, hb] using h
    simp only [interpret, hb, hno, interpret.rebuild, Bool.false_eq_true, if_false]

theorem lastTree_interpret (i : Interpreter α) (w : Word) (m : Modifiers α) :
    (i.interpret w m).2.lastTree = some (i.interpret w m).1 := by
  cases h : i.remembers w m with
  | false => rw [interpret_of_forgotten h, lastTree, Option.map_some]
  | true =>
    obtain ⟨b, hb, -, -, hi⟩ := interpret_of_remembers h
    rw [hi, lastTree, hb, Option.map_some]

/-- The remembered tree is the one that its word is read as now. -/
def Faithful (i : Interpreter α) : Prop :=
  ∀ b, i.last = some b → b.tree = i.build b.word b.modifiers

theorem faithful_of_last_eq_none (h : i.last = none) : i.Faithful := by
  intro b hb
  rw [h] at hb
  cases hb

theorem faithful_of_last_eq_some {b : BuiltTree α} (h : i.last = some b)
    (hb : b.tree = i.build b.word b.modifiers) : i.Faithful := by
  intro b' hb'
  obtain rfl := Option.some.inj (h.symm.trans hb')
  exact hb

theorem Faithful.interpret (hi : i.Faithful) (w : Word) (m : Modifiers α) :
    ∃ b, i.interpret w m = (b.tree, { i with last := some b }) ∧
      b.tree = i.build b.word b.modifiers ∧ b.word = w ∧
      (b.modifiers = m ∨ (b.modifiers == m) = true) := by
  cases h : i.remembers w m with
  | false => exact ⟨⟨w, m, i.build w m⟩, interpret_of_forgotten h, rfl, rfl, .inl rfl⟩
  | true =>
    obtain ⟨b, hb, hm, rfl, hi'⟩ := interpret_of_remembers h
    refine ⟨b, ?_, hi b hb, rfl, .inr hm⟩
    rw [hi', ← hb]

end BranchStream.Interpreter
