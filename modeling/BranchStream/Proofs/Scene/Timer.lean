import BranchStream.Proofs.Binary32.Special
import BranchStream.Scene.Timing

namespace BranchStream

open Binary32

variable {i t dt x y : Float32} {cap : Nat}

structure Ticking (i t : Float32) : Prop where
  isFinite : t.isFinite = true
  nonneg : 0 ≤ value t
  lt : t < i

def Stopped (t : Float32) : Prop := parts t = .notANumber

theorem Ticking.le (h : Ticking i t) : 0 ≤ t := by
  rw [le_iff_value rfl h.isFinite, value_zero]
  exact h.nonneg

theorem not_ticking_of_stopped (h : Stopped t) (i : Float32) : ¬ t < i := not_lt_of_nan h i

theorem ticking_zero (hi : 0 < i) : Ticking i 0 := ⟨rfl, value_zero.ge, hi⟩

theorem ticking_rem (hi : 0 < i) (hx : x.isFinite = true) (hx' : 0 ≤ value x) :
    Ticking i (rem x i) := by
  rcases pos_cases hi with ⟨hfinite, hpos⟩ | hinf
  · obtain ⟨hrem, hvalue⟩ := exact_rem hx hfinite hx' hpos
    refine ⟨hrem, ?_, ?_⟩
    · rw [hvalue]
      exact Int.sub_floor_div_mul_nonneg _ hpos
    · rw [lt_iff_value hrem hfinite, hvalue]
      exact Int.sub_floor_div_mul_lt _ hpos
  · rw [rem_infinity hx hinf]
    exact ⟨hx, hx', lt_of_infinity hx hinf⟩

theorem fst_emission : (emission i cap t dt).1 =
    Scalar.toNat (Scalar.lesser (floor ((t + dt) / i)) (Float32.ofNat cap)) := rfl

theorem fst_emission_le : (emission i cap t dt).1 ≤ Scalar.toNat (Float32.ofNat cap) :=
  toNat_lesser_le _ _

theorem Ticking.add_cases (ht : Ticking i t) (hdt : dt.isFinite = true) (hdt' : 0 ≤ value dt) :
    ((t + dt).isFinite = true ∧ 0 ≤ value (t + dt)) ∨ parts (t + dt) = .infinity .positive :=
  (rounded_add ht.isFinite hdt).nonneg (add_nonneg ht.nonneg hdt')

theorem emission_of_not_finite (hi : 0 < i)
    (hsum : parts (t + dt) = .infinity .positive ∨ Stopped (t + dt)) :
    (emission i cap t dt).1 = Scalar.toNat (Float32.ofNat cap) ∧
      Stopped (emission i cap t dt).2 := by
  have hfinite : (t + dt).isFinite = false := by
    rcases hsum with h | h
    · exact isFinite_of_parts h
    · exact isFinite_of_parts h
  have hquotient : parts ((t + dt) / i) = .infinity .positive ∨ Stopped ((t + dt) / i) := by
    rcases hsum with h | h
    · exact parts_div_of_infinity h hi
    · exact .inr (parts_div_of_nan h i)
  refine ⟨?_, parts_rem_of_not_finite hfinite i⟩
  rw [fst_emission]
  rcases hquotient with h | h
  · rw [floor_of_not_finite (isFinite_of_parts h), lesser_of_not_lt (not_lt_of_infinity h _)]
  · rw [floor_of_not_finite (isFinite_of_parts h), lesser_of_not_lt (not_lt_of_nan h _)]

theorem Ticking.emission_cases (ht : Ticking i t) (hi : 0 < i) (hdt : dt.isFinite = true)
    (hdt' : 0 ≤ value dt) (cap : Nat) :
    ((t + dt).isFinite = true ∧ Ticking i (emission i cap t dt).2) ∨
      (t + dt).isFinite = false ∧ (emission i cap t dt).1 = Scalar.toNat (Float32.ofNat cap) ∧
        Stopped (emission i cap t dt).2 := by
  rcases ht.add_cases hdt hdt' with ⟨hsum, hsum'⟩ | hinf
  · exact .inl ⟨hsum, ticking_rem hi hsum hsum'⟩
  · exact .inr ⟨isFinite_of_parts hinf, emission_of_not_finite hi (.inl hinf)⟩

theorem Stopped.emission (ht : Stopped t) (hi : 0 < i) (cap : Nat) (dt : Float32) :
    (t + dt).isFinite = false ∧ (emission i cap t dt).1 = Scalar.toNat (Float32.ofNat cap) ∧
      Stopped (emission i cap t dt).2 := by
  have hnan := parts_add_of_nan ht dt
  exact ⟨isFinite_of_parts hnan, emission_of_not_finite hi (.inr hnan)⟩

theorem fst_emission_of_zero (hi : 0 < i) (ht : Ticking i t) (hdt : dt.isFinite = true)
    (hzero : value dt = 0) : (emission i cap t dt).1 = 0 := by
  have hsum := rounded_add ht.isFinite hdt
  rw [hzero, add_zero] at hsum
  obtain ⟨hfinite, hvalue⟩ := hsum.exact (representable_value t) (abs_value_le t)
  have hlt : t + dt < i := by
    rcases pos_cases hi with ⟨hfinite', -⟩ | hinf
    · rw [lt_iff_value hfinite hfinite', hvalue, ← lt_iff_value ht.isFinite hfinite']
      exact ht.lt
    · exact lt_of_infinity hfinite hinf
  obtain ⟨hfloor, hcount⟩ := toNat_floor_quotient hi hfinite (hvalue ▸ ht.nonneg) hlt
  rw [fst_emission, toNat_lesser hfloor, hcount, Nat.zero_min]

theorem fst_emission_of_unlimited (hcap : cap < 2 ^ 64) (hi : 0 < i)
    (hsum : (t + dt).isFinite = true) (hsum' : 0 ≤ value (t + dt))
    (hlimit : ¬ Float32.ofNat cap < floor ((t + dt) / i)) :
    (emission i cap t dt).1 = min ⌊value ((t + dt) / i)⌋₊ (2 ^ 64 - 1) := by
  have hmax : |(cap : ℚ)| ≤ maxValue := by
    have hcap' : (cap : ℚ) < 2 ^ 64 := by exact_mod_cast hcap
    rw [Nat.abs_cast]
    exact hcap'.le.trans (by norm_num [maxValue])
  have hfinite := ((rounded_ofNat cap).finite_of_le hmax).1
  rcases div_cases hsum hsum' hi with ⟨hquotient, -⟩ | hinf
  · obtain ⟨hfloor, hvalue⟩ := exact_floor hquotient
    have hle := toNat_mono hfloor hfinite (not_lt.mp ((lt_iff_value hfinite hfloor).not.mp hlimit))
    rw [fst_emission, toNat_lesser hfloor, min_eq_left hle, toNat_eq hfloor, hvalue,
      ← Int.floor_toNat, Int.floor_intCast, Int.floor_toNat]
  · rw [floor_of_not_finite (isFinite_of_parts hinf)] at hlimit
    exact absurd (lt_of_infinity hfinite hinf) hlimit

theorem sum_eq_iff (hi : i.isFinite = true) (hi' : 0 < value i) (hx : x.isFinite = true)
    (hx' : 0 ≤ value x) (k : Nat) :
    value x = k * value i + value (rem x i) ↔ (k : ℤ) = ⌊value x / value i⌋ := by
  rw [(exact_rem hx hi hx' hi').2]
  constructor
  · intro h
    have hproduct : (k : ℚ) * value i = ⌊value x / value i⌋ * value i := by linarith
    exact_mod_cast mul_right_cancel₀ hi'.ne' hproduct
  · intro h
    have hcast : (k : ℚ) = ⌊value x / value i⌋ := by exact_mod_cast h
    rw [hcast]
    ring

theorem sum_eq_or (hi : i.isFinite = true) (hi' : 0 < value i) (hx : x.isFinite = true)
    (hx' : 0 ≤ value x) (hlarge : ⌊value x / value i⌋ < 2 ^ 24) {k : Nat}
    (hk : k = min ⌊value (x / i)⌋₊ (2 ^ 64 - 1)) :
    value x = k * value i + value (rem x i) ∨
      value x + value i = k * value i + value (rem x i) := by
  have hnonneg : 0 ≤ value x / value i := by positivity
  have hmax : |value x / value i| ≤ maxValue := by
    have hlt : value x / value i < (2 ^ 24 : ℤ) := Int.floor_lt.mp hlarge
    rw [abs_of_nonneg hnonneg]
    exact hlt.le.trans (by norm_num [maxValue])
  obtain ⟨-, hround⟩ := (rounded_div hx hi hi'.ne').finite_of_le hmax
  have hcount : (⌊value (x / i)⌋₊ : ℤ) = ⌊value (x / i)⌋ :=
    Int.natCast_floor_eq_floor ((hround 0 representable_zero).2 hnonneg)
  rcases floor_of_roundsTo hround hnonneg hlarge with h | h
  · exact .inl ((sum_eq_iff hi hi' hx hx' k).mpr (by omega))
  · right
    have hk' : (k : ℤ) = ⌊value x / value i⌋ + 1 := by omega
    have hcast : (k : ℚ) = ⌊value x / value i⌋ + 1 := by exact_mod_cast hk'
    rw [(exact_rem hx hi hx' hi').2, hcast]
    ring

end BranchStream
