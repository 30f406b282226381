import BranchStream.Binary32.Instances
import BranchStream.Turtle.Action
import Mathlib

namespace BranchStream.Modifiers

variable {α : Type} [Scalar α] {l m n : Modifiers α}

theorem beq_iff :
    (m == n) = true ↔ (m.angle == n.angle) = true ∧ (m.growth == n.growth) = true :=
  Bool.and_eq_true_iff

instance [PartialEquivBEq α] : PartialEquivBEq (Modifiers α) where
  symm h := by
    obtain ⟨hangle, hgrowth⟩ := beq_iff.mp h
    exact beq_iff.mpr ⟨PartialEquivBEq.symm hangle, PartialEquivBEq.symm hgrowth⟩
  trans h h' := by
    obtain ⟨hangle, hgrowth⟩ := beq_iff.mp h
    obtain ⟨hangle', hgrowth'⟩ := beq_iff.mp h'
    exact beq_iff.mpr
      ⟨PartialEquivBEq.trans hangle hangle', PartialEquivBEq.trans hgrowth hgrowth'⟩

theorem beq_self_of_isFinite {m : Modifiers Float32} (hangle : Scalar.isFinite m.angle = true)
    (hgrowth : Scalar.isFinite m.growth = true) : (m == m) = true := by
  have hself {x : Float32} (hx : x.isFinite = true) : (x == x) = true := by
    rw [Float32.beq_self_iff]
    rintro rfl
    exact absurd hx (by decide)
  exact beq_iff.mpr ⟨hself hangle, hself hgrowth⟩

/-- Two numbers are the same, but for the sign of a zero. -/
def SameNumber (x y : Float32) : Prop := x = y ∨ x = 0 ∧ y = -0 ∨ x = -0 ∧ y = 0

structure Agree (m n : Modifiers Float32) : Prop where
  angle : SameNumber m.angle n.angle
  growth : SameNumber m.growth n.growth

theorem agree_self (m : Modifiers Float32) : m.Agree m := ⟨.inl rfl, .inl rfl⟩

theorem agree_of_beq {m n : Modifiers Float32} (h : (m == n) = true) : m.Agree n := by
  obtain ⟨hangle, hgrowth⟩ := beq_iff.mp h
  exact ⟨(Float32.beq_iff_ne_nan_and_eq.mp hangle).2.2,
    (Float32.beq_iff_ne_nan_and_eq.mp hgrowth).2.2⟩

theorem not_isNaN_of_beq {x y : Float32} (h : (x == y) = true) : y.isNaN = false := by
  have hcompare : (x.toModel.unpack.compare y.toModel.unpack == some .eq) = true := h
  show y.toModel.unpack.isNaN = false
  cases hy : y.toModel.unpack with
  | notANumber =>
    rw [hy] at hcompare
    cases hx : x.toModel.unpack <;> simp [hx, Float.Model.UnpackedFloat.compare] at hcompare
  | _ => rfl

end BranchStream.Modifiers
