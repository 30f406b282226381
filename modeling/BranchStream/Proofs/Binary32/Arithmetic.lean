import BranchStream.Proofs.Binary32.Rounding

namespace BranchStream.Binary32

open Float.Model (Format UnpackedFloat)
open Float.Model.UnpackedFloat

theorem representable_value (x : Float32) : Representable (value x) := by
  rw [value]
  cases hp : parts x with
  | finite s m e h =>
    have hc := (canonical_unpack hp).1
    have hscaled := representable_scaled hc.lt.le hc.le
    cases s with
    | positive => exact hscaled
    | negative => exact hscaled.neg
  | _ => exact representable_zero

theorem near_parts {x : Float32} (hx : x.isFinite = true) : Near (value x) (parts x) := by
  refine ⟨?_, hx, .refl _⟩
  cases hp : parts x with
  | finite s m e h => exact (canonical_unpack hp).1
  | _ => trivial

theorem signed_scaled (s : Sign) (m : Nat) (e : Int) :
    signed s (m * 2 ^ e) = (s.apply m : ℤ) * 2 ^ e := by
  cases s with
  | positive => simp [signed, Sign.apply]
  | negative => simp [signed, Sign.apply]

theorem near_add {s s' : Sign} {m m' : Nat} {e e' : Int} (h : 0 < m) (h' : 0 < m') :
    Near (signed s (m * 2 ^ e) + signed s' (m' * 2 ^ e'))
      (UnpackedFloat.add .binary32 (.finite s m e h) (.finite s' m' e' h')) := by
  rw [← scaled_shiftLeft (min_le_left e e'), ← scaled_shiftLeft (min_le_right e e'),
    signed_scaled, signed_scaled, ← add_mul, ← Int.cast_add]
  exact near_normalize _ _ _

theorem near_sum {x y : Float32} (hx : x.isFinite = true) (hy : y.isFinite = true) :
    Near (value x + value y) (UnpackedFloat.add .binary32 (parts x) (parts y)) := by
  have hnear := near_parts hx
  have hnear' := near_parts hy
  rcases finite_cases hx with ⟨s, hp⟩ | ⟨s, m, e, h, hp, -⟩
  · rw [value_of_zero hp, zero_add, hp]
    rcases finite_cases hy with ⟨s', hp'⟩ | ⟨s', m', e', h', hp', -⟩
    · rw [hp', value_of_zero hp']
      cases s <;> cases s' <;> exact near_zero _
    · rw [hp'] at hnear' ⊢
      exact hnear'
  · rcases finite_cases hy with ⟨s', hp'⟩ | ⟨s', m', e', h', hp', -⟩
    · rw [value_of_zero hp', add_zero, hp']
      rw [hp] at hnear ⊢
      exact hnear
    · rw [value_of_finite hp, value_of_finite hp', hp, hp']
      exact near_add h h'

theorem rounded_add {x y : Float32} (hx : x.isFinite = true) (hy : y.isFinite = true) :
    Rounded (value x + value y) (x + y) :=
  (near_sum hx hy).rounded

theorem signed_div (s s' : Sign) (p q : ℚ) :
    signed s p / signed s' q = signed (s / s') (p / q) := by
  rcases s with _ | _ <;> rcases s' with _ | _
  · exact neg_div_neg_eq p q
  · exact neg_div q p
  · exact div_neg p
  · rfl

theorem targetExponent_div (m n : Nat) (e f : Int) :
    Format.binary32.targetExponent
        (Float.Model.totalExponent m e - Float.Model.totalExponent n f) =
      max (m.log2 + e - (n.log2 + f) - 24) (-149) := by
  have hmin : Format.binary32.minExponent = -149 := rfl
  rw [Format.targetExponent, Float.Model.totalExponent, Float.Model.totalExponent,
    mantissaBits_eq, hmin]
  congr 1
  push_cast
  ring

theorem scaled_quotient (m : Nat) {n k : Nat} {e f g : Int} (hn : 0 < n) (he : e = f + g + k) :
    (m : ℚ) * 2 ^ e / (n * 2 ^ f) =
      ((m <<< k / n : ℕ) + ((m <<< k % n : ℕ) : ℚ) / n) * 2 ^ g := by
  have hdiv : ((n * (m <<< k / n) + m <<< k % n : ℕ) : ℚ) = m * 2 ^ k := by
    rw [Nat.div_add_mod, Nat.shiftLeft_eq]
    push_cast
    rfl
  rw [he, scaled_add, ← hdiv, zpow_add₀ two_ne_zero]
  push_cast
  field_simp

theorem le_log2_quotient {m n k : Nat} (hm : 0 < m) (hn : 0 < n) (h : n.log2 + 24 ≤ m.log2 + k) :
    23 ≤ (m <<< k / n).log2 := by
  have hle : 2 ^ 23 ≤ m <<< k / n := by
    rw [Nat.le_div_iff_mul_le hn, Nat.shiftLeft_eq]
    calc 2 ^ 23 * n ≤ 2 ^ 23 * 2 ^ (n.log2 + 1) := by
          gcongr
          exact Nat.lt_log2_self.le
      _ = 2 ^ (n.log2 + 24) := by rw [← pow_add]; congr 1; omega
      _ ≤ 2 ^ (m.log2 + k) := Nat.pow_le_pow_right (by norm_num) h
      _ = 2 ^ m.log2 * 2 ^ k := pow_add _ _ _
      _ ≤ m * 2 ^ k := by
          gcongr
          exact Nat.log2_self_le hm.ne'
  exact (Nat.le_log2 (by omega)).mpr hle

theorem near_div {s : Sign} {m n : Nat} {e f : Int} (hm : 0 < m) (hn : 0 < n) :
    Near (signed s (m * 2 ^ e / (n * 2 ^ f)))
      (let (m, e, a) := divCore .binary32 m e n f; roundWithAccuracy .binary32 s m e a) := by
  simp only [divCore, targetExponent_div]
  set g := min (e - f) (max ((m.log2 : Int) + e - (n.log2 + f) - 24) (-149)) with hg
  obtain ⟨k, hk⟩ : ∃ k, k = (e - f - g).toNat := ⟨_, rfl⟩
  have hfraction : ((m <<< k % n : ℕ) : ℚ) / n < 1 := by
    rw [div_lt_one (by positivity)]
    exact_mod_cast Nat.mod_lt _ hn
  rw [← hk, scaled_quotient (k := k) (g := g) m hn (by omega)]
  refine near_roundWithAccuracy s ?_ ?_ ?_ ?_
  · gcongr
    exact le_add_of_nonneg_right (by positivity)
  · gcongr
  · have hzero : m <<< k % n = 0 ↔
        ((m <<< k / n : ℕ) + ((m <<< k % n : ℕ) : ℚ) / n) * 2 ^ g = (m <<< k / n : ℕ) * 2 ^ g := by
      rw [mul_left_inj' (by positivity), add_eq_left, div_eq_zero_iff, Nat.cast_eq_zero,
        Nat.cast_eq_zero, or_iff_left hn.ne']
    rw [accuracyOfFraction, ← hzero]
    split_ifs with hr <;> simp [hr]
  · by_cases hmin : g ≤ -149
    · exact hmin.trans (le_max_right _ _)
    · have hlog := le_log2_quotient (k := k) hm hn (by omega)
      omega

theorem rounded_div {x y : Float32} (hx : x.isFinite = true) (hy : y.isFinite = true)
    (hy' : value y ≠ 0) : Rounded (value x / value y) (x / y) := by
  suffices h : Near (value x / value y) (UnpackedFloat.div .binary32 (parts x) (parts y)) from
    h.rounded
  rcases finite_cases hy with ⟨s', hp'⟩ | ⟨s', n, f, h', hp', -⟩
  · exact absurd (value_of_zero hp') hy'
  · rw [value_of_finite hp', hp']
    rcases finite_cases hx with ⟨s, hp⟩ | ⟨s, m, e, h, hp, -⟩
    · rw [value_of_zero hp, zero_div, hp]
      exact near_zero _
    · rw [value_of_finite hp, hp, signed_div]
      exact near_div h h'

theorem rounded_ofParts (s : Sign) (m : Nat) (e : Int) :
    Rounded (signed s (m * 2 ^ e)) (ofParts s m e) :=
  (near_round s m e).rounded

theorem signed_mul (s s' : Sign) (p q : ℚ) :
    signed s p * signed s' q = signed (s * s') (p * q) := by
  rcases s with _ | _ <;> rcases s' with _ | _
  · exact neg_mul_neg p q
  · exact neg_mul p q
  · exact mul_neg p q
  · rfl

theorem near_mul {s : Sign} {m n : Nat} {e f : Int} (h : e + f ≤ -149 ∨ 2 ^ 23 ≤ m * n) :
    Near (signed s (m * 2 ^ e * (n * 2 ^ f)))
      (roundWithAccuracy .binary32 s (m * n) (e + f) .exact) := by
  have hscale : (m : ℚ) * 2 ^ e * (n * 2 ^ f) = ((m * n : ℕ) : ℚ) * 2 ^ (e + f) := by
    rw [zpow_add₀ two_ne_zero]
    push_cast
    ring
  rw [hscale]
  refine near_roundWithAccuracy s le_rfl ?_ (by simp) ?_
  · gcongr
    exact lt_add_one _
  · rcases h with h | h
    · exact h.trans (le_max_right _ _)
    · have hlog : 23 ≤ (m * n).log2 := (Nat.le_log2 (by omega)).mpr h
      omega

theorem near_product {x y : Float32} (hx : x.isFinite = true) (hy : y.isFinite = true) :
    Near (value x * value y) (UnpackedFloat.mul .binary32 (parts x) (parts y)) := by
  rcases finite_cases hx with ⟨s, hp⟩ | ⟨s, m, e, h, hp, hc, -⟩
  · rw [value_of_zero hp, zero_mul, hp]
    rcases finite_cases hy with ⟨s', hp'⟩ | ⟨s', n, f, h', hp', -⟩ <;> rw [hp'] <;>
      exact near_zero _
  · rw [value_of_finite hp, hp]
    rcases finite_cases hy with ⟨s', hp'⟩ | ⟨s', n, f, h', hp', hc', -⟩
    · rw [value_of_zero hp', mul_zero, hp']
      exact near_zero _
    · rw [value_of_finite hp', hp', signed_mul]
      refine near_mul ?_
      rcases hc.normal with hm | he
      · exact .inr (hm.trans (Nat.le_mul_of_pos_right m h'))
      · rcases hc'.normal with hn | hf
        · exact .inr (hn.trans (Nat.le_mul_of_pos_left n h))
        · exact .inl (by omega)

theorem rounded_mul {x y : Float32} (hx : x.isFinite = true) (hy : y.isFinite = true) :
    Rounded (value x * value y) (x * y) :=
  (near_product hx hy).rounded

theorem Rounded.finite_of_le {q : ℚ} {x : Float32} (h : Rounded q x) (hmax : |q| ≤ maxValue) :
    x.isFinite = true ∧ RoundsTo q (value x) := by
  cases h with
  | finite hx hround => exact ⟨hx, hround⟩
  | overflow s hx hlarge =>
    have hle : signed s q ≤ |q| := by
      cases s with
      | positive => exact le_abs_self q
      | negative => exact neg_le_abs q
    exact absurd (hle.trans hmax) (not_le.mpr hlarge)

theorem Rounded.exact {q : ℚ} {x : Float32} (h : Rounded q x) (hq : Representable q)
    (hmax : |q| ≤ maxValue) : x.isFinite = true ∧ value x = q := by
  obtain ⟨hx, hround⟩ := h.finite_of_le hmax
  exact ⟨hx, hround.eq_of_representable hq⟩

theorem abs_signed {q : ℚ} (s : Sign) (hq : 0 ≤ q) : |signed s q| = q := by
  cases s with
  | positive => exact abs_of_nonneg hq
  | negative => rw [signed, abs_neg, abs_of_nonneg hq]

theorem maxValue_nonneg : 0 ≤ maxValue := by norm_num [maxValue]

theorem abs_value_le (x : Float32) : |value x| ≤ maxValue := by
  rw [value]
  cases hp : parts x with
  | finite s m e h =>
    obtain ⟨hc, he⟩ := canonical_unpack hp
    have hm : (m : ℚ) ≤ 2 ^ 24 - 1 := by
      rw [le_sub_iff_add_le]
      exact_mod_cast hc.lt
    rw [toRat, abs_signed s (by positivity), maxValue]
    calc (m : ℚ) * 2 ^ e ≤ (2 ^ 24 - 1) * 2 ^ (104 : ℤ) := by
          gcongr
          norm_num
      _ = (2 ^ 24 - 1) * 2 ^ 104 := by norm_num
  | _ => simpa [toRat] using maxValue_nonneg

theorem exact_ofParts {m : Nat} {e : Int} (s : Sign) (hm : m ≤ 2 ^ 24) (he : -149 ≤ e)
    (hmax : (m : ℚ) * 2 ^ e ≤ maxValue) :
    (ofParts s m e).isFinite = true ∧ value (ofParts s m e) = signed s (m * 2 ^ e) := by
  have hscaled := representable_scaled hm he
  refine (rounded_ofParts s m e).exact ?_ (by rwa [abs_signed s (by positivity)])
  cases s with
  | positive => exact hscaled
  | negative => exact hscaled.neg

theorem Rounded.nonneg {q : ℚ} {x : Float32} (h : Rounded q x) (hq : 0 ≤ q) :
    (x.isFinite = true ∧ 0 ≤ value x) ∨ parts x = .infinity .positive := by
  cases h with
  | finite hx hround => exact .inl ⟨hx, (hround 0 representable_zero).2 hq⟩
  | overflow s hx hlarge =>
    cases s with
    | positive => exact .inr hx
    | negative => exact absurd (hlarge.trans_le (neg_nonpos.mpr hq)) (not_lt.mpr maxValue_nonneg)

theorem value_div_le {x y : Float32} (hx : x.isFinite = true) (hy : y.isFinite = true)
    (hx' : 0 ≤ value x) (hlt : value x < value y) :
    value x / value y ≤ ((2 ^ 24 - 1 : ℕ) : ℚ) * 2 ^ (-24 : ℤ) := by
  have hy' : 0 < value y := hx'.trans_lt hlt
  rcases nonneg_cases hy hy'.le with ⟨s, hp'⟩ | ⟨n, f, h', hp', hc'⟩
  · exact absurd (value_of_zero hp') hy'.ne'
  rcases nonneg_cases hx hx' with ⟨s, hp⟩ | ⟨m, e, h, hp, hc⟩
  · rw [value_of_zero hp, zero_div]
    positivity
  rw [div_le_iff₀ hy']
  rw [value_of_finite hp, value_of_finite hp', signed, signed] at hlt ⊢
  have hm : m ≤ 2 ^ 24 - 1 := Nat.le_sub_one_of_lt hc.lt
  rcases lt_trichotomy e f with hef | rfl | hef
  · have hn : 2 ^ 23 ≤ n := hc'.normal.resolve_right (by have := hc.le; omega)
    calc (m : ℚ) * 2 ^ e ≤ (2 ^ 24 - 1 : ℕ) * 2 ^ (f - 1) := by
          gcongr
          · norm_num
          · omega
      _ = (2 ^ 24 - 1 : ℕ) * 2 ^ (-24 : ℤ) * ((2 ^ 23 : ℕ) * 2 ^ f) := by
          rw [zpow_sub₀ two_ne_zero, zpow_neg]
          push_cast
          norm_num
          ring
      _ ≤ (2 ^ 24 - 1 : ℕ) * 2 ^ (-24 : ℤ) * (n * 2 ^ f) := by gcongr
  · have hmn : m < n := by
      have hcast := lt_of_mul_lt_mul_right hlt (by positivity)
      exact_mod_cast hcast
    have hn : n < 2 ^ 24 := hc'.lt
    have hscaled : (m : ℚ) ≤ (2 ^ 24 - 1 : ℕ) * 2 ^ (-24 : ℤ) * n := by
      have hcross : m * 2 ^ 24 ≤ (2 ^ 24 - 1) * n := by omega
      have hcast : (m : ℚ) * 2 ^ 24 ≤ (2 ^ 24 - 1 : ℕ) * n := by exact_mod_cast hcross
      rw [mul_right_comm, zpow_neg, ← div_eq_mul_inv, le_div_iff₀ (by positivity)]
      exact_mod_cast hcast
    rw [← mul_assoc]
    gcongr
  · exact absurd (scaled_lt hc' hc (.inl hef)) (not_lt.mpr hlt.le)

end BranchStream.Binary32
