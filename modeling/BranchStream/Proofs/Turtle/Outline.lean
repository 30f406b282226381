import BranchStream.Binary32.Instances
import BranchStream.Proofs.Stream.Course
import BranchStream.Proofs.Turtle.Step

namespace BranchStream

variable {α : Type}

namespace Tree

variable {σ : Type}

theorem size_links (t : Tree σ) : t.links.size = t.size := Array.size_map

theorem links_addChild (t : Tree σ) (parent : Nat) (state : σ) :
    (t.addChild parent state).links =
      (t.links.modify parent fun l ↦ (l.1, l.2 ++ [t.links.size])).push (some parent, []) := by
  rw [size_links, links, addChild, Array.map_push]
  congr 1
  apply Array.ext_getElem?
  intro id
  simp only [links, Array.getElem?_map, Array.getElem?_modify]
  split <;> cases t.nodes[id]? <;> rfl

end Tree

namespace Action

def draws (a : Action α) : Bool := a.isForward || a.isPush || a.isPop

/-- The steps forward and the brackets among the actions. -/
def skeleton (as : List (Action α)) : List (Action α) := as.filter draws

end Action

namespace Walk

/-- What is left of a walk when its turtles are taken away. -/
structure Outline where
  links : Array (Option Nat × List Nat)
  node : Nat
  branches : List Nat
  dropped : Nat

namespace Outline

def start : Outline := ⟨#[(none, [])], Tree.rootId, [], 0⟩

def grow (o : Outline) : Outline :=
  { o with
    links := (o.links.modify o.node fun l ↦ (l.1, l.2 ++ [o.links.size])).push (some o.node, [])
    node := o.links.size }

def step (maxDepth : Nat) (o : Outline) : Action α → Outline
  | .forward => o.grow
  | .push =>
    if o.branches.length < maxDepth then { o.grow with branches := o.node :: o.branches }
    else { o with dropped := o.dropped + 1 }
  | .pop =>
    if 0 < o.dropped then { o with dropped := o.dropped - 1 }
    else
      match o.branches with
      | [] => o
      | node :: rest => { o with node, branches := rest }
  | _ => o

theorem step_of_not_draws {a : Action α} (h : a.draws = false) (maxDepth : Nat) (o : Outline) :
    o.step maxDepth a = o := by
  cases a with
  | forward | push | pop => cases h
  | _ => rfl

end Outline

def outline (w : Walk α) : Outline := ⟨w.tree.links, w.node, w.stack.map Prod.snd, w.dropped⟩

theorem outline_start (turtle : Turtle α) : (start turtle).outline = .start := by
  simp [outline, start, Outline.start, Tree.links, Tree.ofRoot]

theorem outline_grow (w : Walk α) (turtle : Turtle α) :
    (w.grow turtle).outline = w.outline.grow := by
  simp only [outline, grow, Outline.grow, Tree.links_addChild, Tree.size_links]

variable [Elementary α] {p : Parameters α} {m : Modifiers α} {maxDepth : Nat}

theorem outline_step (w : Walk α) (a : Action α) :
    (w.step p m maxDepth a).outline = w.outline.step maxDepth a := by
  have hlength : w.outline.branches.length = w.stack.length := List.length_map Prod.snd
  have he := effect_step p m maxDepth w a
  generalize w.step p m maxDepth a = w' at he
  cases he with
  | forward => exact w.outline_grow _
  | opened hroom =>
    have hgrow := w.outline_grow w.turtle
    rw [Outline.step, if_pos (by rwa [hlength]), ← hgrow]
    rfl
  | counted hroom =>
    rw [Outline.step, if_neg (by rwa [hlength, Nat.not_lt])]
    rfl
  | uncounted hpos => exact (if_pos hpos).symm
  | unmatched hzero hs => simp [Outline.step, outline, hzero, hs]
  | closed hzero hs => simp [Outline.step, outline, hzero, hs]
  | turned hforward hpush hpop =>
    have hother : a.draws = false := by simp [Action.draws, hforward, hpush, hpop]
    rw [Outline.step_of_not_draws hother]
    rfl

theorem outline_run (p : Parameters α) (m : Modifiers α) (maxDepth : Nat) (as : List (Action α)) :
    (run p m maxDepth as).outline =
      (Action.skeleton as).foldl (Outline.step maxDepth) Outline.start := by
  rw [Action.skeleton, foldl_filter_of_idle fun _ h o ↦ Outline.step_of_not_draws h maxDepth o]
  induction as using List.reverseRecOn with
  | nil => exact outline_start _
  | append_singleton as a ih => rw [run_concat, outline_step, ih, List.foldl_concat]

end Walk

namespace Interpreter

theorem action_of_not_contains {i : Interpreter α} {c : Symbol}
    (h : i.actions.contains c = false) : i.action c = .ignore := by
  rw [action, Std.ExtTreeMap.getElem?_eq_none_of_contains_eq_false h, Option.getD_none]

variable [Elementary α]

theorem walk_filter_contains (i : Interpreter α) (w : Word) (m : Modifiers α) :
    i.walk (w.filter fun c ↦ i.actions.contains c) m = i.walk w m := by
  rw [walk, walk, Walk.run, Walk.run, List.foldl_map, List.foldl_map]
  refine foldl_filter_of_idle (fun c hc walk ↦ ?_) w _
  rw [action_of_not_contains hc, Walk.step_ignore]

/-- The links of a tree depend on the skeleton of the word only. Two interpreters with one greatest
depth give trees of one size and the same parents and children for any two words that agree in
their steps forward and brackets, whatever the numbers are that they compute with; in particular
other parameters or modifiers change no link, and symbols without an action change nothing at
all. -/
theorem links_build_eq (i : Interpreter α) (w : Word) (m : Modifiers α) :
    (∀ (j : Interpreter α) (v : Word) (m' : Modifiers α), j.maxDepth = i.maxDepth →
      Action.skeleton (v.map j.action) = Action.skeleton (w.map i.action) →
      (j.build v m').size = (i.build w m).size ∧ (j.build v m').links = (i.build w m).links) ∧
    (∀ parameters m', ({ i with parameters }.build w m').links = (i.build w m).links) ∧
    i.build (w.filter fun c ↦ i.actions.contains c) m = i.build w m := by
  have hlinks (j : Interpreter α) (v : Word) (m' : Modifiers α) (hdepth : j.maxDepth = i.maxDepth)
      (h : Action.skeleton (v.map j.action) = Action.skeleton (w.map i.action)) :
      (j.build v m').links = (i.build w m).links := by
    have houtline : (j.walk v m').outline = (i.walk w m).outline := by
      rw [walk, walk, Walk.outline_run, Walk.outline_run, hdepth, h]
    exact congrArg Walk.Outline.links houtline
  refine ⟨fun j v m' hdepth h ↦ ⟨?_, hlinks j v m' hdepth h⟩, fun parameters m' ↦ ?_, ?_⟩
  · rw [← Tree.size_links, hlinks j v m' hdepth h, Tree.size_links]
  · exact hlinks _ w m' rfl rfl
  · rw [build, walk_filter_contains, build]

theorem links_build_eq_of_nan :
    let i : Interpreter Float32 := .standard ⟨0, 0, 90, 10⟩ 1
    let actions : Actions Float32 := .ofList [('a', Action.forward), ('(', Action.push),
      (')', Action.pop), ('!', Action.growSize Binary32.nan)]
    let j : Interpreter Float32 :=
      (bare ⟨Binary32.nan, 1, 1 / 0, Binary32.nan⟩ 1).withActions actions
    let w : Word := ['F', '[', '+', '[', 'F', ']', ']', '-', 'F']
    let v : Word := ['!', 'a', '(', '(', 'x', 'a', ')', '!', ')', 'a']
    j.maxDepth = i.maxDepth ∧
      Action.skeleton (v.map j.action) = Action.skeleton (w.map i.action) ∧
      (j.build v ⟨Binary32.nan, 1⟩).links = (i.build w default).links ∧
      (i.build w default).links =
        #[(none, [1]), (some 0, [2, 4]), (some 1, [3]), (some 2, []), (some 1, [])] := by
  intro i actions j w v
  have hskeleton : Action.skeleton (v.map j.action) = Action.skeleton (w.map i.action) := by
    decide +kernel
  obtain ⟨-, hlinks⟩ := (links_build_eq i w default).1 j v ⟨Binary32.nan, 1⟩ rfl hskeleton
  exact ⟨rfl, hskeleton, hlinks, by decide +kernel⟩

end Interpreter

end BranchStream
