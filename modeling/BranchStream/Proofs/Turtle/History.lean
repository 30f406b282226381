import BranchStream.Proofs.Rewriting.Memory
import BranchStream.Proofs.Turtle.Memory
import BranchStream.Proofs.Turtle.Modifiers

namespace BranchStream

namespace Interpreter

inductive Call (α : Type) where
  | setAction (c : Symbol) (a : Action α)
  | addStandard
  | withActions (actions : Actions α)
  | build (w : Word) (m : Modifiers α)
  | remembers (w : Word) (m : Modifiers α)
  | interpret (w : Word) (m : Modifiers α)

def Call.remaps {α : Type} : Call α → Bool
  | .setAction .. | .addStandard | .withActions .. => true
  | _ => false

section

variable {α : Type}

/-- Some tree was asked for since the actions last changed. -/
def Asked (calls : List (Call α)) : Prop :=
  ∃ before w m since, calls = before ++ .interpret w m :: since ∧ ∀ c ∈ since, c.remaps = false

theorem asked_concat {calls : List (Call α)} {c : Call α} : Asked (calls ++ [c]) ↔
    (∃ w m, c = .interpret w m) ∨ c.remaps = false ∧ Asked calls := by
  constructor
  · rintro ⟨before, w, m, since, heq, hsince⟩
    rcases List.eq_nil_or_concat since with rfl | ⟨since, c', rfl⟩
    · obtain ⟨-, hc⟩ := List.append_inj' heq rfl
      exact .inl ⟨w, m, List.singleton_inj.mp hc⟩
    · rw [List.concat_eq_append, ← List.cons_append, ← List.append_assoc] at heq
      rw [List.concat_eq_append, List.forall_mem_append] at hsince
      obtain ⟨rfl, hc⟩ := List.append_inj' heq rfl
      obtain rfl := List.singleton_inj.mp hc
      exact .inr ⟨hsince.2 c List.mem_cons_self, before, w, m, since, rfl, hsince.1⟩
  · rintro (⟨w, m, rfl⟩ | ⟨hc, before, w, m, since, rfl, hsince⟩)
    · exact ⟨calls, w, m, [], rfl, nofun⟩
    · refine ⟨before, w, m, since ++ [c], by simp, ?_⟩
      exact List.forall_mem_append.mpr ⟨hsince, List.forall_mem_singleton.mpr hc⟩

variable [Scalar α]

def Call.actions (actions : Actions α) : Call α → Actions α
  | .setAction c a => actions.insert c a
  | .addStandard => standardActions.foldl (fun actions (c, a) ↦ actions.insert c a) actions
  | .withActions actions' => actions'
  | _ => actions

/-- The actions in force after some calls, read off their changes. -/
def inForce (calls : List (Call α)) : Actions α := calls.foldl Call.actions ∅

theorem inForce_concat (calls : List (Call α)) (c : Call α) :
    inForce (calls ++ [c]) = c.actions (inForce calls) := List.foldl_concat ..

theorem addStandard_eq (i : Interpreter α) :
    i.addStandard = i.withActions (Call.addStandard.actions i.actions) := rfl

end

variable {α : Type} [Elementary α]

def perform (i : Interpreter α) : Call α → Interpreter α
  | .setAction c a => i.setAction c a
  | .addStandard => i.addStandard
  | .withActions actions => i.withActions actions
  | .build .. | .remembers .. => i
  | .interpret w m => (i.interpret w m).2

def after (i : Interpreter α) (calls : List (Call α)) : Interpreter α := calls.foldl perform i

theorem after_concat (i : Interpreter α) (calls : List (Call α)) (c : Call α) :
    i.after (calls ++ [c]) = (i.after calls).perform c := List.foldl_concat ..

theorem perform_cases (i : Interpreter α) (c : Call α) :
    (c.remaps = true ∧ i.perform c = i.withActions (c.actions i.actions)) ∨
      (c.remaps = false ∧ ∃ w m, c = .interpret w m ∧ i.perform c = (i.interpret w m).2) ∨
      (c.remaps = false ∧ (∀ w m, c ≠ .interpret w m) ∧ i.perform c = i) := by
  cases c with
  | setAction c a => exact .inl ⟨rfl, rfl⟩
  | addStandard => exact .inl ⟨rfl, i.addStandard_eq⟩
  | withActions actions => exact .inl ⟨rfl, rfl⟩
  | build w m => exact .inr (.inr ⟨rfl, nofun, rfl⟩)
  | remembers w m => exact .inr (.inr ⟨rfl, nofun, rfl⟩)
  | interpret w m => exact .inr (.inl ⟨rfl, w, m, rfl, rfl⟩)

theorem actions_of_not_remaps {c : Call α} (h : c.remaps = false) (actions : Actions α) :
    c.actions actions = actions := by
  cases c with
  | setAction c a => cases h
  | addStandard => cases h
  | withActions actions => cases h
  | _ => rfl

theorem Faithful.perform {i : Interpreter α} (hi : i.Faithful) (c : Call α) :
    (i.perform c).Faithful := by
  rcases i.perform_cases c with ⟨-, hc⟩ | ⟨-, w, m, -, hc⟩ | ⟨-, -, hc⟩
  · rw [hc]
    exact faithful_of_last_eq_none rfl
  · obtain ⟨b, hb, htree, -⟩ := hi.interpret w m
    rw [hc, hb]
    exact faithful_of_last_eq_some rfl htree
  · rwa [hc]

/-- But for its memory an interpreter is set up by the changes of its actions. -/
structure SetUp (parameters : Parameters α) (maxDepth : Nat) (actions : Actions α)
    (i : Interpreter α) : Prop where
  eq : ∃ last, i = { (bare parameters maxDepth).withActions actions with last }
  faithful : i.Faithful

theorem SetUp.perform {parameters : Parameters α} {maxDepth : Nat} {actions : Actions α}
    {i : Interpreter α} (hi : i.SetUp parameters maxDepth actions) (c : Call α) :
    (i.perform c).SetUp parameters maxDepth (c.actions actions) := by
  refine ⟨?_, hi.faithful.perform c⟩
  obtain ⟨⟨last, rfl⟩, hfaithful⟩ := hi
  rcases perform_cases _ c with ⟨-, hc⟩ | ⟨hno, w, m, -, hc⟩ | ⟨hno, -, hc⟩
  · rw [hc]
    exact ⟨none, rfl⟩
  · obtain ⟨b, hb, -⟩ := hfaithful.interpret w m
    rw [hc, hb, actions_of_not_remaps hno]
    exact ⟨some b, rfl⟩
  · rw [hc, actions_of_not_remaps hno]
    exact ⟨last, rfl⟩

theorem setUp_after (parameters : Parameters α) (maxDepth : Nat) (calls : List (Call α)) :
    ((bare parameters maxDepth).after calls).SetUp parameters maxDepth (inForce calls) := by
  induction calls using List.reverseRecOn with
  | nil => exact ⟨⟨none, rfl⟩, faithful_of_last_eq_none rfl⟩
  | append_singleton calls c ih =>
    rw [after_concat, inForce_concat]
    exact ih.perform c

theorem isSome_lastTree_after (parameters : Parameters α) (maxDepth : Nat)
    (calls : List (Call α)) :
    ((bare parameters maxDepth).after calls).lastTree.isSome = true ↔ Asked calls := by
  induction calls using List.reverseRecOn with
  | nil => simp [after, bare, lastTree, Asked]
  | append_singleton calls c ih =>
    rw [after_concat, asked_concat]
    rcases perform_cases ((bare parameters maxDepth).after calls) c with
      ⟨hc, h⟩ | ⟨hc, w, m, rfl, h⟩ | ⟨hc, hno, h⟩
    · have hforgotten : (((bare parameters maxDepth).after calls).perform c).lastTree = none := by
        rw [h]
        rfl
      have hno : ∀ w m, c ≠ .interpret w m := by
        rintro w m rfl
        cases hc
      simp [hforgotten, hc, hno]
    · rw [h, lastTree_interpret]
      simp
    · rw [h, ih]
      simp [hc, hno]

/-- Memories do not show. An expander answers with the expansion of its grammar, and an interpreter
with the tree that the word is read as under the actions in force, for modifiers that differ from
those asked for at most in the sign of a zero. It answers from memory only if it said that it
remembers, which it never does for a modifier that is no number; and it holds a tree just if it was
asked for one since its actions last changed. -/
theorem memories_transparent (g : Grammar) (ns : List Nat) (n : Nat)
    (parameters : Parameters Float32) (maxDepth : Nat) (calls : List (Call Float32)) (w : Word)
    (m : Modifiers Float32) :
    let e := (Expander.ofGrammar g).after ns
    let i := (bare parameters maxDepth).after calls
    let fresh := (bare parameters maxDepth).withActions (inForce calls)
    ((e.expand n).1 = g.expand n ∧ (e.expand n).2.lastCount = some n) ∧
      (∃ m' : Modifiers Float32, (i.interpret w m).1 = fresh.build w m' ∧ m'.Agree m) ∧
      (if i.remembers w m then ∃ t, i.lastTree = some t ∧ i.interpret w m = (t, i)
        else i.interpret w m = (i.build w m, { i with last := some ⟨w, m, i.build w m⟩ })) ∧
      (m.angle.isNaN = true ∨ m.growth.isNaN = true → i.remembers w m = false) ∧
      (i.lastTree.isSome = true ↔ Asked calls) := by
  intro e i fresh
  have hsetup := setUp_after parameters maxDepth calls
  refine ⟨?_, ?_, ?_, ?_, isSome_lastTree_after parameters maxDepth calls⟩
  · have hexpander := (Expander.faithful_ofGrammar g).after ns
    exact ⟨(hexpander.expand n).1, e.lastCount_expand n⟩
  · obtain ⟨b, hb, htree, rfl, hm⟩ := hsetup.faithful.interpret w m
    obtain ⟨last, hi⟩ := hsetup.eq
    refine ⟨b.modifiers, ?_, ?_⟩
    · rw [hb, htree, hi]
      rfl
    · rcases hm with hm | hm
      · exact hm ▸ Modifiers.agree_self _
      · exact Modifiers.agree_of_beq hm
  · split
    · rename_i h
      obtain ⟨b, hb, -, -, hi⟩ := interpret_of_remembers h
      exact ⟨b.tree, by rw [lastTree, hb, Option.map_some], hi⟩
    · rename_i h
      exact interpret_of_forgotten (Bool.eq_false_iff.mpr h)
  · intro hnan
    by_contra h
    obtain ⟨b, -, hm, -⟩ := remembers_eq_true_iff.mp (Bool.not_eq_false _ ▸ h)
    obtain ⟨hangle, hgrowth⟩ := Modifiers.beq_iff.mp hm
    rcases hnan with hnan | hnan
    · exact Bool.false_ne_true ((Modifiers.not_isNaN_of_beq hangle).symm.trans hnan)
    · exact Bool.false_ne_true ((Modifiers.not_isNaN_of_beq hgrowth).symm.trans hnan)

theorem memories_transparent_of_nan :
    let m : Modifiers Float32 := ⟨Float32.nan, 1⟩
    let i := (bare default 4).after [.addStandard, .interpret ['F'] m]
    m.angle.isNaN = true ∧ i.remembers ['F'] m = false ∧ i.lastTree.isSome = true := by
  intro m i
  have hnan : m.angle.isNaN = true := by decide +kernel
  obtain ⟨-, -, -, hforgotten, hasked⟩ :=
    memories_transparent default [] 0 default 4 [.addStandard, .interpret ['F'] m] ['F'] m
  exact ⟨hnan, hforgotten (.inl hnan), hasked.mpr ⟨[.addStandard], ['F'], m, [], rfl, nofun⟩⟩

end Interpreter

end BranchStream
