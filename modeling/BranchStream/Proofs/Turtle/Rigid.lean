import BranchStream.Proofs.Geometry.Quaternion
import BranchStream.Proofs.Turtle.Segments

namespace BranchStream

open Exact

def Turtle.drawn {α : Type} [Scalar α] (t : Turtle α) : Vec3 α := t.position - t.segmentStart

variable {K : Type} [Field K] [LinearOrder K] [FloorRing K]

namespace Vec3

theorem dot_unitX : (unitX : Vec3 K).dot unitX = 1 := by
  simp [dot_eq, unitX]

theorem dot_unitY : (unitY : Vec3 K).dot unitY = 1 := by
  simp [dot_eq, unitY]

theorem dot_unitZ : (unitZ : Vec3 K).dot unitZ = 1 := by
  simp [dot_eq, unitZ]

end Vec3

theorem Turtle.dot_drawn_advance [IsStrictOrderedRing K] {t : Turtle K}
    (h : t.orientation.normSq = 1) (distance : K) :
    (t.advance distance).drawn.dot (t.advance distance).drawn = distance ^ 2 := by
  have hdrawn : (t.advance distance).drawn = t.orientation.transform ⟨distance, 0, 0⟩ :=
    Vec3.ext (add_sub_cancel_left _ _) (add_sub_cancel_left _ _) (add_sub_cancel_left _ _)
  obtain ⟨hdot, -⟩ := Quaternion.transform_products (Quaternion.ne_zero_of_unit h)
    ⟨distance, 0, 0⟩ ⟨distance, 0, 0⟩
  rw [hdrawn, hdot, Vec3.dot_eq]
  ring

section

variable [Functions K] (hsqrt : Functions.sqrt (1 : K) = 1)
  (hcircle : ∀ x : K, Functions.sin x ^ 2 + Functions.cos x ^ 2 = 1)

include hsqrt

theorem Vec3.normalize_of_unit {axis : Vec3 K} (h : axis.dot axis = 1) : axis.normalize = axis := by
  have hlength : axis.length = 1 := (congrArg Functions.sqrt h).trans hsqrt
  have hscale : ∀ x : K, x * (1 / axis.length) = x := by simp [hlength]
  exact Vec3.ext (hscale _) (hscale _) (hscale _)

theorem Quaternion.ofAxisAngle_of_unit {axis : Vec3 K} (h : axis.dot axis = 1) (angle : K) :
    ofAxisAngle axis angle = ⟨Functions.cos (angle / 2), axis.x * Functions.sin (angle / 2),
      axis.y * Functions.sin (angle / 2), axis.z * Functions.sin (angle / 2)⟩ := by
  rw [ofAxisAngle, Vec3.normalize_of_unit hsqrt h]
  rfl

include hcircle

theorem Quaternion.normSq_ofAxisAngle {axis : Vec3 K} (h : axis.dot axis = 1) (angle : K) :
    (ofAxisAngle axis angle).normSq = 1 := by
  rw [ofAxisAngle_of_unit hsqrt h, normSq_eq]
  rw [Vec3.dot_eq] at h
  linear_combination hcircle (angle / 2) + Functions.sin (angle / 2) ^ 2 * h

theorem Turtle.normSq_act (p : Parameters K) (m : Modifiers K) (t : Turtle K) (a : Action K)
    (h : t.orientation.normSq = 1) : (t.act p m a).orientation.normSq = 1 := by
  have hturn : ∀ {axis : Vec3 K}, axis.dot axis = 1 → ∀ angle : K,
      (Quaternion.ofAxisAngle axis angle * t.orientation).normSq = 1 := by
    intro axis haxis angle
    rw [Quaternion.normSq_mul, Quaternion.normSq_ofAxisAngle hsqrt hcircle haxis, h, one_mul]
  cases a with
  | yaw => exact hturn Vec3.dot_unitZ _
  | pitch => exact hturn Vec3.dot_unitX _
  | roll => exact hturn Vec3.dot_unitY _
  | reverse => exact hturn Vec3.dot_unitZ _
  | _ => exact h

theorem Walk.normSq_run (p : Parameters K) (m : Modifiers K) (maxDepth : Nat)
    (as : List (Action K)) : (run p m maxDepth as).turtle.orientation.normSq = 1 :=
  turtle_induction (P := fun t ↦ t.orientation.normSq = 1) Quaternion.normSq_one
    (Turtle.normSq_act hsqrt hcircle p m) as

end

/-- Over exact numbers a walk bends and stretches nothing. Whatever was read before, the orientation
of every node is of unit length, and a step forward draws from the end of the parent's segment a
segment as long as the step size says. -/
theorem Interpreter.build_rigid [IsStrictOrderedRing K] [Functions K]
    (hsqrt : Functions.sqrt (1 : K) = 1)
    (hcircle : ∀ x : K, Functions.sin x ^ 2 + Functions.cos x ^ 2 = 1) (i : Interpreter K)
    (w : Word) (m : Modifiers K) :
    let t := i.build w m
    (∀ id n, t.get? id = some n → n.state.orientation.normSq = 1) ∧
      ∀ before c, before ++ [c] <+: w → i.action c = .forward → ∃ n q parent,
        t.get? (i.walk before m).tree.size = some n ∧ n.parent = some q ∧
        t.get? q = some parent ∧ n.state.segmentStart = parent.state.position ∧
        n.state.drawn.dot n.state.drawn = (n.state.stepSize * m.angle) ^ 2 := by
  intro t
  have hunit : ∀ before, (i.walk before m).turtle.orientation.normSq = 1 := fun before ↦
    Walk.normSq_run hsqrt hcircle i.parameters m i.maxDepth (before.map i.action)
  refine ⟨fun id n hn ↦ ?_, fun before c hprefix hc ↦ ?_⟩
  · obtain ⟨before, -, hstate⟩ := exists_prefix_state hn
    rw [hstate, hunit]
  · have hactions : before.map i.action ++ [.forward] <+: w.map i.action := by
      have hmap := hprefix.map i.action
      rwa [List.map_append, List.map_singleton, hc] at hmap
    obtain ⟨n, parent, hn, hstate, hnode, hparent, hstart⟩ :=
      Walk.exists_node_of_forward i.parameters m i.maxDepth hactions
    refine ⟨n, _, parent, hn, hnode, hparent, hstart, ?_⟩
    rw [hstate]
    exact Turtle.dot_drawn_advance (hunit before) _

/-- Rational functions that turn: a number stands for the angle whose half has it as tangent. A
quarter of the circle is one, so half a turn is two, and there sine and cosine are the true ones. -/
@[reducible]
def Exact.byHalfTangent : Functions ℚ where
  sqrt x := Rat.sqrt x
  sin x := 2 * x / (1 + x ^ 2)
  cos x := (1 - x ^ 2) / (1 + x ^ 2)
  acos _ := 0
  ln _ := 0
  exp _ := 0
  pi := 2
  radiansPerDegree := 1 / 90

theorem Interpreter.build_rigid_of_reversed :
    letI := Exact.byHalfTangent
    let i : Interpreter ℚ := .standard ⟨0, 1 / 2, 360, 12⟩ 1
    let t := i.build ['+', 'F', '<', '[', '|', '[', ']', 'F', ']', 'F'] ⟨1 / 2, 1⟩
    Functions.sqrt (1 : ℚ) = 1 ∧ (∀ x : ℚ, Functions.sin x ^ 2 + Functions.cos x ^ 2 = 1) ∧
      ∃ n q parent, t.get? 3 = some n ∧ n.parent = some q ∧ t.get? q = some parent ∧
        n.state.orientation.normSq = 1 ∧ n.state.segmentStart = parent.state.position ∧
        n.state.drawn = ⟨9, 0, 0⟩ ∧ n.state.drawn.dot n.state.drawn = 81 := by
  let _ := Exact.byHalfTangent
  intro i t
  have hsqrt : Functions.sqrt (1 : ℚ) = 1 := by decide +kernel
  have hcircle : ∀ x : ℚ, Functions.sin x ^ 2 + Functions.cos x ^ 2 = 1 := by
    intro x
    show (2 * x / (1 + x ^ 2)) ^ 2 + ((1 - x ^ 2) / (1 + x ^ 2)) ^ 2 = 1
    have hne : 1 + x ^ 2 ≠ 0 := by positivity
    field_simp
    ring
  obtain ⟨hunit, hforward⟩ := build_rigid hsqrt hcircle i
    ['+', 'F', '<', '[', '|', '[', ']', 'F', ']', 'F'] ⟨1 / 2, 1⟩
  obtain ⟨n, q, parent, hn, hq, hparent, hstart, hlength⟩ :=
    hforward ['+', 'F', '<', '[', '|', '[', ']'] 'F' (by decide) (by decide +kernel)
  have hid : (i.walk ['+', 'F', '<', '[', '|', '[', ']'] ⟨1 / 2, 1⟩).tree.size = 3 := by
    decide +kernel
  rw [hid] at hn
  have hdrawn : (t.get? 3).map (fun n ↦ (n.state.drawn, n.state.stepSize)) =
      some (⟨9, 0, 0⟩, 18) := by decide +kernel
  rw [hn, Option.map_some, Option.some.injEq, Prod.mk.injEq] at hdrawn
  obtain ⟨hdrawn, hstep⟩ := hdrawn
  refine ⟨hsqrt, hcircle, n, q, parent, hn, hq, hparent, hunit 3 n hn, hstart, hdrawn, ?_⟩
  rw [hlength, hstep]
  norm_num

end BranchStream
