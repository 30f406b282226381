import BranchStream.Binary32.Instances
import BranchStream.Proofs.Rewriting.Derivation
import BranchStream.Proofs.Turtle.DepthLimit

namespace BranchStream

variable {α β : Type}

namespace Action

variable {u : List (Action α)} {a : Action α} {act : β → Action α} {f : β → List (Action α)}
  {bs : List β}

/-- The actions may stand in the place of the action: brackets are kept, and for any other action
there is a balanced list. -/
def Substitutes (u : List (Action α)) (a : Action α) : Prop :=
  u = [a] ∨ (a.isPush = false ∧ a.isPop = false) ∧ Balanced u

theorem Substitutes.countP_eq (h : Substitutes u a) :
    u.countP isPop + [a].countP isPush = u.countP isPush + [a].countP isPop := by
  rcases h with rfl | ⟨⟨hpush, hpop⟩, hu⟩
  · exact Nat.add_comm _ _
  · simp [hpush, hpop, hu.2]

theorem countP_isPop_flatMap (hf : ∀ b ∈ bs, Substitutes (f b) (act b)) :
    (bs.flatMap f).countP isPop + (bs.map act).countP isPush =
      (bs.flatMap f).countP isPush + (bs.map act).countP isPop := by
  induction bs with
  | nil => rfl
  | cons b bs ih =>
    obtain ⟨hb, hbs⟩ := List.forall_mem_cons.mp hf
    have hfirst := hb.countP_eq
    have hrest := ih hbs
    rw [List.flatMap_cons, List.map_cons, ← List.singleton_append]
    simp only [List.countP_append]
    omega

theorem covered_flatMap (hf : ∀ b ∈ bs, Substitutes (f b) (act b)) (h : Covered (bs.map act)) :
    Covered (bs.flatMap f) := by
  induction bs using List.reverseRecOn with
  | nil => exact covered_nil
  | append_singleton bs b ih =>
    obtain ⟨hbs, hb⟩ := List.forall_mem_append.mp hf
    rw [List.map_append, List.map_singleton, covered_concat] at h
    rw [List.flatMap_append, List.flatMap_singleton]
    have hcovered := ih hbs h.1
    rcases List.forall_mem_singleton.mp hb with hkept | ⟨-, hbalanced⟩
    · -- a bracket meets as many open ones as it does in the word before the substitution
      have hcount := countP_isPop_flatMap hbs
      have hle := h.2
      rw [hkept, covered_concat]
      refine ⟨hcovered, ?_⟩
      simp only [List.countP_append] at hle ⊢
      omega
    · exact hcovered.append hbalanced.1

theorem balanced_flatMap (hf : ∀ b ∈ bs, Substitutes (f b) (act b)) (h : Balanced (bs.map act)) :
    Balanced (bs.flatMap f) := by
  have hcount := countP_isPop_flatMap hf
  have heq := h.2
  exact ⟨covered_flatMap hf h.1, by omega⟩

end Action

/-- Read as these actions, the start and all productions are balanced, and no rule is about a symbol
that opens or closes a branch. -/
structure Grammar.BalancedUnder (g : Grammar) (act : Symbol → Action α) : Prop where
  start : Action.Balanced (g.start.map act)
  brackets : ∀ c, act c = .push ∨ act c = .pop → g.rule? c = none
  productions : ∀ c production, g.rule? c = some production →
    Action.Balanced (production.map act)

namespace Grammar

variable {g : Grammar} {act : Symbol → Action α} {c : Symbol} {production : Word}

theorem BalancedUnder.not_bracket (h : g.BalancedUnder act) (hrule : g.rule? c = some production) :
    (act c).isPush = false ∧ (act c).isPop = false := by
  rcases (act c).bracket_cases with hpush | hpop | hother
  · rw [h.brackets c (.inl hpush)] at hrule
    cases hrule
  · rw [h.brackets c (.inr hpop)] at hrule
    cases hrule
  · exact hother

theorem balancedUnder_iff : g.BalancedUnder act ↔ Action.Balanced (g.start.map act) ∧
    ∀ r ∈ g.rules.toList, ((act r.1).isPush = false ∧ (act r.1).isPop = false) ∧
      Action.Balanced (r.2.map act) := by
  have hmem (c : Symbol) (production : Word) :
      (c, production) ∈ g.rules.toList ↔ g.rule? c = some production :=
    Std.ExtTreeMap.mem_toList_iff_getElem?_eq_some
  constructor
  · intro h
    refine ⟨h.start, fun r hr ↦ ?_⟩
    have hrule := (hmem r.1 r.2).mp hr
    exact ⟨h.not_bracket hrule, h.productions _ _ hrule⟩
  · rintro ⟨hstart, hrules⟩
    refine ⟨hstart, fun c hc ↦ ?_, fun c production hrule ↦ (hrules _ ((hmem _ _).mpr hrule)).2⟩
    cases hrule : g.rule? c with
    | none => rfl
    | some production =>
      obtain ⟨⟨hpush, hpop⟩, -⟩ := hrules _ ((hmem _ _).mpr hrule)
      rcases hc with hc | hc
      · simp [hc] at hpush
      · simp [hc] at hpop

instance (g : Grammar) (act : Symbol → Action α) : Decidable (g.BalancedUnder act) :=
  decidable_of_iff _ balancedUnder_iff.symm

theorem BalancedUnder.substitutes (h : g.BalancedUnder act) (n : Nat) (c : Symbol) :
    Action.Substitutes ((g.meaning n c).map act) (act c) := by
  induction n generalizing c with
  | zero =>
    cases hrule : g.rule? c with
    | none =>
      rw [meaning_of_terminal hrule]
      exact .inl rfl
    | some production =>
      simp only [meaning, hrule]
      exact .inr ⟨h.not_bracket hrule, Action.balanced_nil⟩
  | succ n ih =>
    cases hrule : g.rule? c with
    | none =>
      rw [meaning_of_terminal hrule]
      exact .inl rfl
    | some production =>
      simp only [meaning, hrule, List.map_flatMap]
      have hbalanced := h.productions c production hrule
      exact .inr ⟨h.not_bracket hrule, Action.balanced_flatMap (fun c _ ↦ ih c) hbalanced⟩

theorem BalancedUnder.expand (h : g.BalancedUnder act) (n : Nat) :
    Action.Balanced ((g.expand n).map act) := by
  rw [Grammar.expand, terminals_passes, List.map_flatMap]
  exact Action.balanced_flatMap (fun c _ ↦ h.substitutes n c) h.start

end Grammar

variable [Elementary α]

namespace Walk

variable {p : Parameters α} {m : Modifiers α} {maxDepth : Nat} {as : List (Action α)}

theorem height_run (p : Parameters α) (m : Modifiers α) (maxDepth : Nat) (h : Action.Covered as) :
    (run p m maxDepth as).stack.length + (run p m maxDepth as).dropped +
      as.countP Action.isPop = as.countP Action.isPush := by
  have hheight := height_run_append p m maxDepth [] h
  rw [List.nil_append] at hheight
  exact hheight.trans (Nat.zero_add _)

theorem dropped_pos_or_stack_ne_nil (h : Action.Covered (as ++ [.pop])) :
    0 < (run p m maxDepth as).dropped ∨ (run p m maxDepth as).stack ≠ [] := by
  have hlt := h.countP_lt
  have hheight := height_run p m maxDepth (Action.covered_concat.mp h).1
  rcases Nat.eq_zero_or_pos (run p m maxDepth as).dropped with hzero | hpos
  · refine .inr fun hs ↦ ?_
    rw [hs, List.length_nil] at hheight
    omega
  · exact .inl hpos

theorem run_of_balanced (h : Action.Balanced as) :
    (run p m maxDepth as).stack = [] ∧ (run p m maxDepth as).dropped = 0 := by
  have hcount := h.2
  have hheight := height_run p m maxDepth h.1
  exact ⟨List.length_eq_zero_iff.mp (by omega), by omega⟩

end Walk

/-- Balanced grammars never lose their stack. All their expansions are balanced; a walk over one,
whatever its greatest depth, has at each place as many branches open or counted as brackets are open
there, so that it finds one for each bracket that closes, and in the end none is left. -/
theorem Interpreter.walk_balanced_expand (i : Interpreter α) (m : Modifiers α) {g : Grammar}
    (h : g.BalancedUnder i.action) (n : Nat) :
    let w := g.expand n
    Action.Balanced (w.map i.action) ∧
      (∀ v, v <+: w → (i.walk v m).stack.length + (i.walk v m).dropped +
        v.countP (fun c ↦ (i.action c).isPop) = v.countP (fun c ↦ (i.action c).isPush)) ∧
      (∀ v c, v ++ [c] <+: w → i.action c = .pop →
        0 < (i.walk v m).dropped ∨ (i.walk v m).stack ≠ []) ∧
      (i.walk w m).stack = [] ∧ (i.walk w m).dropped = 0 := by
  intro w
  have hbalanced : Action.Balanced (w.map i.action) := h.expand n
  have hcovered (v : Word) (hv : v <+: w) : Action.Covered (v.map i.action) :=
    hbalanced.1.initial (hv.map i.action)
  refine ⟨hbalanced, fun v hv ↦ ?_, fun v c hv hc ↦ ?_, Walk.run_of_balanced hbalanced⟩
  · have hheight := Walk.height_run i.parameters m i.maxDepth (hcovered v hv)
    rw [List.countP_map, List.countP_map] at hheight
    exact hheight
  · have hclosed := hcovered _ hv
    rw [List.map_append, List.map_singleton, hc] at hclosed
    exact Walk.dropped_pos_or_stack_ne_nil hclosed

theorem Interpreter.walk_balanced_expand_of_dropped :
    let i : Interpreter Float32 := .standard default 1
    let g : Grammar := ⟨['F', '[', 'X', ']'],
      .ofList [('X', ['[', '+', 'Y', ']', 'F']), ('Y', ['X', '[', ']'])], by decide⟩
    let w := g.expand 3
    g.BalancedUnder i.action ∧ Action.Balanced (w.map i.action) ∧
      ['F', '[', '['] ++ ['+'] <+: w ∧ (i.walk ['F', '[', '['] default).dropped = 1 ∧
      (i.walk w default).stack = [] ∧ (i.walk w default).dropped = 0 := by
  intro i g w
  have hg : g.BalancedUnder i.action := by decide +kernel
  obtain ⟨hbalanced, -, -, hstack, hdropped⟩ := walk_balanced_expand i default hg 3
  exact ⟨hg, hbalanced, by decide +kernel, by decide +kernel, hstack, hdropped⟩

end BranchStream
