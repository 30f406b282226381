import BranchStream.Turtle.Interpreter
import Mathlib.Data.List.Induction

namespace BranchStream

theorem foldl_filter_of_idle {σ β : Type} {f : σ → β → σ} {keep : β → Bool}
    (h : ∀ b, keep b = false → ∀ s, f s b = s) (bs : List β) (s : σ) :
    (bs.filter keep).foldl f s = bs.foldl f s := by
  induction bs generalizing s with
  | nil => rfl
  | cons b bs ih =>
    cases hb : keep b with
    | true => rw [List.filter_cons_of_pos hb, List.foldl_cons, List.foldl_cons, ih]
    | false =>
      have hskip : ¬ keep b = true := by simp [hb]
      rw [List.filter_cons_of_neg hskip, List.foldl_cons, h b hb, ih]

variable {α : Type}

namespace Action

def isForward : Action α → Bool
  | .forward => true
  | _ => false

def isPush : Action α → Bool
  | .push => true
  | _ => false

def isPop : Action α → Bool
  | .pop => true
  | _ => false

variable {a : Action α}

@[simp]
theorem isPush_push : (push : Action α).isPush = true := rfl

@[simp]
theorem isPush_pop : (pop : Action α).isPush = false := rfl

@[simp]
theorem isPop_push : (push : Action α).isPop = false := rfl

@[simp]
theorem isPop_pop : (pop : Action α).isPop = true := rfl

theorem isPush_iff : a.isPush = true ↔ a = .push := by
  cases a <;> simp [isPush]

theorem isPop_iff : a.isPop = true ↔ a = .pop := by
  cases a <;> simp [isPop]

theorem bracket_cases (a : Action α) :
    a = .push ∨ a = .pop ∨ a.isPush = false ∧ a.isPop = false := by
  cases a <;> simp [isPush, isPop]

end Action

namespace Walk

@[simp]
theorem size_grow (w : Walk α) (turtle : Turtle α) :
    (w.grow turtle).tree.size = w.tree.size + 1 := Tree.size_addChild

variable [Elementary α] {p : Parameters α} {m : Modifiers α} {maxDepth : Nat} {w w' : Walk α}
  {a : Action α}

/-- All that an action can do to a walk. -/
inductive Effect (p : Parameters α) (m : Modifiers α) (maxDepth : Nat) (w : Walk α) :
    Action α → Walk α → Prop
  | forward : Effect p m maxDepth w .forward (w.grow (w.turtle.act p m .forward))
  | opened (h : w.stack.length < maxDepth) :
      Effect p m maxDepth w .push { w.grow w.turtle with stack := (w.turtle, w.node) :: w.stack }
  | counted (h : maxDepth ≤ w.stack.length) :
      Effect p m maxDepth w .push { w with dropped := w.dropped + 1 }
  | uncounted (h : 0 < w.dropped) :
      Effect p m maxDepth w .pop { w with dropped := w.dropped - 1 }
  | unmatched (h : w.dropped = 0) (hs : w.stack = []) : Effect p m maxDepth w .pop w
  | closed (h : w.dropped = 0) {turtle : Turtle α} {node : Nat} {rest : List (Turtle α × Nat)}
      (hs : w.stack = (turtle, node) :: rest) :
      Effect p m maxDepth w .pop { w with turtle, node, stack := rest }
  | turned {a : Action α} (hforward : a.isForward = false) (hpush : a.isPush = false)
      (hpop : a.isPop = false) :
      Effect p m maxDepth w a { w with turtle := w.turtle.act p m a }

theorem Effect.step_eq (h : w.Effect p m maxDepth a w') : w.step p m maxDepth a = w' := by
  cases h with
  | forward => rfl
  | opened h => exact if_pos h
  | counted h => exact if_neg (Nat.not_lt.mpr h)
  | uncounted h => exact if_pos h
  | unmatched h hs => simp [step, closeBranch, h, hs]
  | closed h hs => simp [step, closeBranch, h, hs]
  | turned hforward hpush hpop =>
    cases a with
    | forward => cases hforward
    | push => cases hpush
    | pop => cases hpop
    | _ => rfl

theorem effect_step (p : Parameters α) (m : Modifiers α) (maxDepth : Nat) (w : Walk α)
    (a : Action α) : w.Effect p m maxDepth a (w.step p m maxDepth a) := by
  have hexists : ∃ w', w.Effect p m maxDepth a w' := by
    cases a with
    | forward => exact ⟨_, .forward⟩
    | push =>
      rcases Nat.lt_or_ge w.stack.length maxDepth with h | h
      · exact ⟨_, .opened h⟩
      · exact ⟨_, .counted h⟩
    | pop =>
      rcases Nat.eq_zero_or_pos w.dropped with h | h
      · cases hs : w.stack with
        | nil => exact ⟨_, .unmatched h hs⟩
        | cons e rest => exact ⟨_, .closed h hs⟩
      · exact ⟨_, .uncounted h⟩
    | _ => exact ⟨_, .turned rfl rfl rfl⟩
  obtain ⟨w', hw'⟩ := hexists
  rwa [hw'.step_eq]

theorem run_concat {as : List (Action α)} : run p m maxDepth (as ++ [a]) =
    (run p m maxDepth as).step p m maxDepth a := run_append

theorem step_ignore (p : Parameters α) (m : Modifiers α) (maxDepth : Nat) (w : Walk α) :
    w.step p m maxDepth .ignore = w := rfl

theorem foldl_induction {P : List (Action α) → Walk α → Prop} (start : P [] w)
    (step : ∀ {as w a w'}, P as w → w.Effect p m maxDepth a w' → P (as ++ [a]) w')
    (as : List (Action α)) : P as (as.foldl (Walk.step p m maxDepth) w) := by
  induction as using List.reverseRecOn with
  | nil => exact start
  | append_singleton as a ih =>
    rw [List.foldl_append]
    exact step ih (effect_step p m maxDepth _ a)

end Walk

theorem Interpreter.walk_append [Elementary α] (i : Interpreter α) (x y : Word) (m : Modifiers α) :
    i.walk (x ++ y) m =
      (y.map i.action).foldl (Walk.step i.parameters m i.maxDepth) (i.walk x m) := by
  rw [walk, List.map_append, Walk.run_append]
  rfl

end BranchStream
