import BranchStream.Proofs.Exact.Numbers
import BranchStream.Geometry.Quaternion

open scoped Quaternion

namespace BranchStream

open Exact

variable {K : Type} [Field K] [LinearOrder K] [FloorRing K]

namespace Vec3

theorem dot_eq (u v : Vec3 K) : u.dot v = u.x * v.x + u.y * v.y + u.z * v.z := rfl

theorem cross_eq (u v : Vec3 K) : u.cross v =
    ⟨u.y * v.z - v.y * u.z, u.z * v.x - v.z * u.x, u.x * v.y - v.x * u.y⟩ := rfl

end Vec3

namespace Quaternion

variable {p q : Quaternion K}

theorem ofVector_eq (v : Vec3 K) : ofVector v = ⟨0, v.x, v.y, v.z⟩ := rfl

theorem mul_eq (p q : Quaternion K) : p * q =
    ⟨p.w * q.w - (p.x * q.x + p.y * q.y + p.z * q.z),
      q.x * p.w + p.x * q.w + (p.y * q.z - q.y * p.z),
      q.y * p.w + p.y * q.w + (p.z * q.x - q.z * p.x),
      q.z * p.w + p.z * q.w + (p.x * q.y - q.x * p.y)⟩ := rfl

theorem inverse_eq (q : Quaternion K) : q.inverse =
    ⟨q.w * (1 / q.normSq), -q.x * (1 / q.normSq), -q.y * (1 / q.normSq),
      -q.z * (1 / q.normSq)⟩ := rfl

theorem normSq_eq (q : Quaternion K) : q.normSq = q.w ^ 2 + q.x ^ 2 + q.y ^ 2 + q.z ^ 2 := by
  show q.w * q.w + q.x * q.x + q.y * q.y + q.z * q.z = _
  ring

theorem normSq_zero : (0 : Quaternion K).normSq = 0 := by
  rw [normSq_eq]
  show (0 : K) ^ 2 + (0 : K) ^ 2 + (0 : K) ^ 2 + (0 : K) ^ 2 = 0
  ring

theorem normSq_one : (1 : Quaternion K).normSq = 1 := by
  rw [normSq_eq]
  show (1 : K) ^ 2 + (0 : K) ^ 2 + (0 : K) ^ 2 + (0 : K) ^ 2 = 1
  ring

theorem normSq_mul (p q : Quaternion K) : (p * q).normSq = p.normSq * q.normSq := by
  rw [mul_eq, normSq_eq, normSq_eq, normSq_eq]
  ring

theorem ne_zero_of_unit (h : q.normSq = 1) : q ≠ 0 := by
  rintro rfl
  exact zero_ne_one (normSq_zero.symm.trans h)

theorem normSq_ne_zero [IsStrictOrderedRing K] (hq : q ≠ 0) : q.normSq ≠ 0 := by
  contrapose! hq
  rw [normSq_eq] at hq
  have hw : q.w ^ 2 = 0 := by linarith [sq_nonneg q.w, sq_nonneg q.x, sq_nonneg q.y, sq_nonneg q.z]
  have hx : q.x ^ 2 = 0 := by linarith [sq_nonneg q.x, sq_nonneg q.y, sq_nonneg q.z]
  have hy : q.y ^ 2 = 0 := by linarith [sq_nonneg q.y, sq_nonneg q.z]
  have hz : q.z ^ 2 = 0 := by linarith
  exact Quaternion.ext (pow_eq_zero_iff two_ne_zero |>.mp hw) (pow_eq_zero_iff two_ne_zero |>.mp hx)
    (pow_eq_zero_iff two_ne_zero |>.mp hy) (pow_eq_zero_iff two_ne_zero |>.mp hz)

theorem mul_inverse [IsStrictOrderedRing K] (hq : q ≠ 0) : q * q.inverse = 1 := by
  have hone : q.normSq * (1 / q.normSq) = 1 := mul_one_div_cancel (normSq_ne_zero hq)
  rw [mul_eq, inverse_eq]
  generalize 1 / q.normSq = r at hone
  rw [normSq_eq] at hone
  apply Quaternion.ext
  · show _ = (1 : K)
    linear_combination hone
  · show _ = (0 : K)
    ring
  · show _ = (0 : K)
    ring
  · show _ = (0 : K)
    ring

end Quaternion

@[simps]
def Quaternion.hamilton {K : Type} [Zero K] [One K] [Neg K] (q : Quaternion K) : ℍ[K] :=
  ⟨q.w, q.x, q.y, q.z⟩

@[simps!]
def Vec3.hamilton (v : Vec3 K) : ℍ[K] := (Quaternion.ofVector v).hamilton

namespace Quaternion

variable {p q : Quaternion K} {u v : Vec3 K} {s : K}

theorem hamilton_inj : p.hamilton = q.hamilton ↔ p = q := by
  refine ⟨fun h ↦ ?_, congrArg hamilton⟩
  obtain ⟨hw, hx, hy, hz⟩ := QuaternionAlgebra.mk.inj h
  exact Quaternion.ext hw hx hy hz

theorem hamilton_vector_inj : u.hamilton = v.hamilton ↔ u = v := by
  refine ⟨fun h ↦ ?_, congrArg Vec3.hamilton⟩
  obtain ⟨-, hx, hy, hz⟩ := QuaternionAlgebra.mk.inj h
  exact Vec3.ext hx hy hz

theorem hamilton_one : (1 : Quaternion K).hamilton = 1 := rfl

theorem hamilton_zero : (0 : Quaternion K).hamilton = 0 := rfl

theorem hamilton_ne_zero_iff : q.hamilton ≠ 0 ↔ q ≠ 0 := by
  rw [Ne, ← hamilton_zero, hamilton_inj]

theorem hamilton_mul (p q : Quaternion K) : (p * q).hamilton = p.hamilton * q.hamilton := by
  ext <;> simp [mul_eq] <;> ring

theorem hamilton_scale (q : Quaternion K) (s : K) :
    (q * s : Quaternion K).hamilton = s • q.hamilton := by
  ext <;> exact mul_comm _ _

theorem hamilton_inverse [IsStrictOrderedRing K] (hq : q ≠ 0) :
    q.inverse.hamilton = q.hamilton⁻¹ := by
  refine eq_inv_of_mul_eq_one_right ?_
  rw [← hamilton_mul, mul_inverse hq, hamilton_one]

theorem hamilton_mul_vector (u v : Vec3 K) :
    u.hamilton * v.hamilton = -((u.dot v : K) : ℍ[K]) + (u.cross v).hamilton := by
  ext <;> simp [Vec3.dot_eq, Vec3.cross_eq, ofVector_eq] <;> ring

theorem w_sandwich (q : Quaternion K) (v : Vec3 K) : (q * ofVector v * q.inverse).w = 0 := by
  simp only [mul_eq, inverse_eq, ofVector_eq]
  ring

theorem hamilton_transform [IsStrictOrderedRing K] (hq : q ≠ 0) (v : Vec3 K) :
    (q.transform v).hamilton = q.hamilton * v.hamilton * q.hamilton⁻¹ := by
  have hsandwich : ofVector (q.transform v) = q * ofVector v * q.inverse :=
    Quaternion.ext (w_sandwich q v).symm rfl rfl rfl
  rw [Vec3.hamilton, hsandwich, hamilton_mul, hamilton_mul, hamilton_inverse hq]
  rfl

theorem scalar_add_vector_inj {x y : K} :
    -(x : ℍ[K]) + u.hamilton = -(y : ℍ[K]) + v.hamilton ↔ x = y ∧ u = v := by
  constructor
  · intro h
    have hscalar := congrArg QuaternionAlgebra.re h
    obtain rfl : x = y := by simpa [ofVector_eq] using hscalar
    exact ⟨rfl, hamilton_vector_inj.mp (add_left_cancel h)⟩
  · rintro ⟨rfl, rfl⟩
    rfl

section

variable [IsStrictOrderedRing K]

theorem transform_mul (hp : p ≠ 0) (hq : q ≠ 0) (v : Vec3 K) :
    (p * q).transform v = p.transform (q.transform v) := by
  have hpq : p * q ≠ 0 := by
    rw [← hamilton_ne_zero_iff, hamilton_mul]
    exact mul_ne_zero (hamilton_ne_zero_iff.mpr hp) (hamilton_ne_zero_iff.mpr hq)
  rw [← hamilton_vector_inj, hamilton_transform hpq, hamilton_transform hp, hamilton_transform hq,
    hamilton_mul, mul_inv_rev]
  simp only [mul_assoc]

theorem transform_inverse (hq : q ≠ 0) (v : Vec3 K) :
    q.inverse.transform (q.transform v) = v := by
  have hne := hamilton_ne_zero_iff.mpr hq
  have hinverse : q.inverse ≠ 0 := by
    rw [← hamilton_ne_zero_iff, hamilton_inverse hq]
    exact inv_ne_zero hne
  rw [← hamilton_vector_inj, hamilton_transform hinverse, hamilton_transform hq,
    hamilton_inverse hq, inv_inv]
  simp only [mul_assoc, inv_mul_cancel₀ hne, mul_one, inv_mul_cancel_left₀ hne]

theorem transform_scale (hq : q ≠ 0) (hs : s ≠ 0) (v : Vec3 K) :
    (q * s : Quaternion K).transform v = q.transform v := by
  have hscaled : (q * s : Quaternion K) ≠ 0 := by
    rw [← hamilton_ne_zero_iff, hamilton_scale]
    exact smul_ne_zero hs (hamilton_ne_zero_iff.mpr hq)
  rw [← hamilton_vector_inj, hamilton_transform hscaled, hamilton_transform hq, hamilton_scale,
    smul_inv₀, smul_mul_assoc, smul_mul_assoc, mul_smul_comm, smul_smul, mul_inv_cancel₀ hs,
    one_smul]

theorem transform_products (hq : q ≠ 0) (u v : Vec3 K) :
    (q.transform u).dot (q.transform v) = u.dot v ∧
      (q.transform u).cross (q.transform v) = q.transform (u.cross v) := by
  have hne := hamilton_ne_zero_iff.mpr hq
  rw [← scalar_add_vector_inj, ← hamilton_mul_vector, hamilton_transform hq, hamilton_transform hq,
    hamilton_transform hq]
  calc q.hamilton * u.hamilton * q.hamilton⁻¹ * (q.hamilton * v.hamilton * q.hamilton⁻¹) =
        q.hamilton * (u.hamilton * v.hamilton) * q.hamilton⁻¹ := by
          simp only [mul_assoc, inv_mul_cancel_left₀ hne]
    _ = q.hamilton * (-((u.dot v : K) : ℍ[K])) * q.hamilton⁻¹ +
        q.hamilton * (u.cross v).hamilton * q.hamilton⁻¹ := by
          rw [hamilton_mul_vector, mul_add, add_mul]
    _ = -((u.dot v : K) : ℍ[K]) + q.hamilton * (u.cross v).hamilton * q.hamilton⁻¹ := by
          rw [mul_neg, ← Quaternion.coe_commutes, neg_mul, mul_assoc, mul_inv_cancel₀ hne, mul_one]

/-- Turning by a quaternion is a rotation, whatever its length. The sandwich product is a vector;
turning keeps dot and cross products, so lengths, angles and orientation; a product turns by its
second factor and then by its first, an inverse turns back, and a scale does not matter. -/
theorem transform_rotates (hp : p ≠ 0) (hq : q ≠ 0) (u v : Vec3 K) :
    (q * ofVector v * q.inverse).w = 0 ∧
      (q.transform u).dot (q.transform v) = u.dot v ∧
      q.transform (u.cross v) = (q.transform u).cross (q.transform v) ∧
      (p * q).transform v = p.transform (q.transform v) ∧
      q.inverse.transform (q.transform v) = v ∧
      (∀ s : K, s ≠ 0 → (q * s : Quaternion K).transform v = q.transform v) ∧ q / q = 1 := by
  obtain ⟨hdot, hcross⟩ := transform_products hq u v
  exact ⟨w_sandwich q v, hdot, hcross.symm, transform_mul hp hq v, transform_inverse hq v,
    fun s hs ↦ transform_scale hq hs v, mul_inverse hq⟩

end

theorem transform_rotates_of_long :
    let p : Quaternion ℚ := ⟨0, 0, 0, 1⟩
    let q : Quaternion ℚ := ⟨2, -1, 1 / 2, 3⟩
    let v : Vec3 ℚ := ⟨3, 4, -7⟩
    p ≠ 0 ∧ q ≠ 0 ∧ q.normSq = 57 / 4 ∧ q.transform v = ⟨-49 / 19, -52 / 19, -147 / 19⟩ ∧
      (q.transform v).dot (q.transform v) = 74 ∧
      (p * q).transform v = p.transform (q.transform v) ∧ q / q = 1 := by
  intro p q v
  have hp : p ≠ 0 := by decide +kernel
  have hq : q ≠ 0 := by decide +kernel
  obtain ⟨-, hdot, -, hmul, -, -, hover⟩ := transform_rotates hp hq v v
  exact ⟨hp, hq, by decide +kernel, by decide +kernel, hdot.trans (by decide +kernel), hmul, hover⟩

end Quaternion

end BranchStream
