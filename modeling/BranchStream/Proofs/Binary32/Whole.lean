import BranchStream.Proofs.Binary32.Arithmetic

namespace BranchStream.Binary32

open Float.Model (Format UnpackedFloat)
open Float.Model.UnpackedFloat

theorem representable_natCast {n : Nat} (hn : n ≤ 2 ^ 24) : Representable n := by
  have h := representable_scaled hn (e := 0) (by norm_num)
  rwa [zpow_zero, mul_one] at h

theorem value_one : (Float32.ofBits 0x3F800000).isFinite = true ∧
    value (Float32.ofBits 0x3F800000) = 1 := by
  have hparts : parts (Float32.ofBits 0x3F800000) =
      .finite .positive (2 ^ 23) (-23) (by norm_num) := rfl
  refine ⟨by decide, ?_⟩
  rw [value_of_finite hparts, signed]
  norm_num

theorem natCast_le_maxValue {n : Nat} (hn : n ≤ 2 ^ 24) : |(n : ℚ)| ≤ maxValue := by
  have hn' : (n : ℚ) ≤ 2 ^ 24 := by exact_mod_cast hn
  rw [Nat.abs_cast]
  exact hn'.trans (by norm_num [maxValue])

theorem ofNat_eq_ofScientific (n : Nat) : Float32.ofNat n = .ofScientific n false 0 := rfl

theorem ofNat_of_lt {n : Nat} (hn : n < 2 ^ 23) : Float32.ofNat n =
    .ofModel (.pack (UnpackedFloat.normalize .binary32 n 0 .positive)) *
      Float32.ofBits 0x3F800000 := by
  have hword : n.toUInt64.toNat = n := by
    rw [Nat.toUInt64, UInt64.toNat_ofNat']
    omega
  have hliteral : Float32.ofNat n =
      .ofModel (.pack (UnpackedFloat.normalize .binary32 n.toUInt64.toNat 0 .positive)) *
        Float32.ofBits 0x3F800000 := by
    rw [ofNat_eq_ofScientific, Float32.ofScientific, dif_pos ⟨hn, by norm_num⟩]
    rfl
  rw [hliteral, hword]

theorem ofNat_of_ge {n : Nat} (hn : 2 ^ 23 ≤ n) : Float32.ofNat n =
    .ofModel (.pack (roundWithAccuracy .binary32 .positive (n <<< 24 * 1) (-24 + 0) .exact)) := by
  have hscientific : Float32.ofNat n =
      .ofModel (.pack (UnpackedFloat.ofScientific .binary32 n 0)) := by
    rw [ofNat_eq_ofScientific, Float32.ofScientific, dif_neg (by omega)]
    rfl
  have hlarge : ¬ (0 : ℤ) < -(2 ^ Format.binary32.exponentBits + (n.log2 : ℤ)) := by
    have hbits : (0 : ℤ) < 2 ^ Format.binary32.exponentBits := by positivity
    omega
  rw [hscientific, UnpackedFloat.ofScientific, dif_neg (by omega), if_neg (by norm_num),
    if_neg hlarge, if_pos le_rfl]
  rfl

theorem rounded_ofNat (n : Nat) : Rounded n (Float32.ofNat n) := by
  by_cases hn : n < 2 ^ 23
  · have hle : n ≤ 2 ^ 24 := by omega
    have hnormal := (near_normalize n 0 .positive).rounded
    rw [zpow_zero, mul_one, Int.cast_natCast] at hnormal
    obtain ⟨hfinite, hvalue⟩ := hnormal.exact (representable_natCast hle) (natCast_le_maxValue hle)
    have hmul := rounded_mul hfinite value_one.1
    rwa [hvalue, value_one.2, mul_one, ← ofNat_of_lt hn] at hmul
  · have hscaled : signed .positive (((n <<< 24 : ℕ) : ℚ) * 2 ^ (-24 : ℤ) *
        ((1 : ℕ) * 2 ^ (0 : ℤ))) = n := by
      rw [signed, Nat.shiftLeft_eq, zpow_neg, zpow_zero]
      push_cast
      norm_num
      ring
    have hlarge : 2 ^ 23 ≤ n <<< 24 * 1 := by
      rw [Nat.shiftLeft_eq]
      omega
    have hnear := (near_mul (s := .positive) (e := -24) (f := 0) (.inr hlarge)).rounded
    rwa [hscaled, ← ofNat_of_ge (not_lt.mp hn)] at hnear

theorem exact_ofNat {n : Nat} (hn : n ≤ 2 ^ 24) :
    (Float32.ofNat n).isFinite = true ∧ value (Float32.ofNat n) = n :=
  (rounded_ofNat n).exact (representable_natCast hn) (natCast_le_maxValue hn)

theorem exact_ofParts_whole {n : Nat} (s : Sign) (hn : n ≤ 2 ^ 24) :
    (ofParts s n 0).isFinite = true ∧ value (ofParts s n 0) = signed s n := by
  have hmax : (n : ℚ) * 2 ^ (0 : ℤ) ≤ maxValue := by
    rw [zpow_zero, mul_one, ← Nat.abs_cast]
    exact natCast_le_maxValue hn
  have h := exact_ofParts s hn (by norm_num) hmax
  rwa [zpow_zero, mul_one] at h

theorem floor_of_whole {s : Sign} {m : Nat} {e : Int} (he : 0 ≤ e) :
    (⌊signed s (m * 2 ^ e)⌋ : ℚ) = signed s (m * 2 ^ e) := by
  obtain ⟨k, rfl⟩ := Int.eq_ofNat_of_zero_le he
  have hwhole : signed s ((m : ℚ) * 2 ^ (k : ℤ)) = (s.apply m * 2 ^ k : ℤ) := by
    rw [signed_scaled, zpow_natCast]
    push_cast
    rfl
  rw [hwhole, Int.floor_intCast]

theorem floor_neg_div (m : Nat) {d : Nat} (hd : 0 < d) :
    ⌊-((m : ℚ) / d)⌋ = -((m + (d - 1)) / d : ℕ) := by
  set a := (m + (d - 1)) / d with ha
  have hmod := Nat.div_add_mod (m + (d - 1)) d
  have hlt := Nat.mod_lt (m + (d - 1)) hd
  have habove : m ≤ a * d := by
    rw [mul_comm, ha]
    omega
  have hbelow : a * d < m + d := by
    rw [mul_comm, ha]
    omega
  have hd' : (0 : ℚ) < d := by exact_mod_cast hd
  rw [Int.floor_eq_iff]
  constructor
  · rw [Int.cast_neg, Int.cast_natCast, neg_le_neg_iff, div_le_iff₀ hd']
    exact_mod_cast habove
  · have hone : (m : ℚ) / d + 1 = (m + d : ℕ) / d := by
      rw [Nat.cast_add, add_div, div_self hd'.ne']
    have hlt' : (a : ℚ) < m / d + 1 := by
      rw [hone, lt_div_iff₀ hd']
      exact_mod_cast hbelow
    rw [Int.cast_neg, Int.cast_natCast]
    linarith

theorem exact_floor {x : Float32} (hx : x.isFinite = true) :
    (floor x).isFinite = true ∧ value (floor x) = ⌊value x⌋ := by
  rcases finite_cases hx with ⟨s, hp⟩ | ⟨s, m, e, h, hp, hc, -⟩
  · have hfloor : floor x = x := by simp only [floor, hp]
    rw [hfloor, value_of_zero hp, Int.floor_zero]
    exact ⟨hx, rfl⟩
  · rcases le_or_gt 0 e with he | he
    · have hfloor : floor x = x := by simp only [floor, hp, if_pos he]
      rw [hfloor, value_of_finite hp, floor_of_whole he]
      exact ⟨hx, rfl⟩
    · obtain ⟨k, rfl⟩ : ∃ k : ℕ, e = -k := ⟨(-e).toNat, by omega⟩
      have hk : (- -(k : ℤ)).toNat = k := by omega
      have hunit : 1 <<< k = 2 ^ k := by rw [Nat.shiftLeft_eq, one_mul]
      have hlt := hc.lt
      have hpow : 0 < 2 ^ k := by positivity
      rw [value_of_finite hp, scaled_neg]
      cases s with
      | positive =>
        have hfloor : floor x = ofParts .positive (m / 2 ^ k) 0 := by
          simp only [floor, hp, if_neg (not_le.mpr he), hk, hunit]
        have hn : m / 2 ^ k ≤ 2 ^ 24 := (Nat.div_le_self _ _).trans hlt.le
        rw [hfloor, signed, Rat.floor_natCast_div_natCast]
        exact_mod_cast exact_ofParts_whole .positive hn
      | negative =>
        have hfloor : floor x = ofParts .negative ((m + (2 ^ k - 1)) / 2 ^ k) 0 := by
          simp only [floor, hp, if_neg (not_le.mpr he), hk, hunit]
        have hn : (m + (2 ^ k - 1)) / 2 ^ k ≤ 2 ^ 24 := by
          refine (Nat.div_le_iff_le_mul_add_pred hpow).mpr ?_
          nlinarith
        rw [hfloor, signed, floor_neg_div m hpow]
        exact_mod_cast exact_ofParts_whole .negative hn

theorem floor_div_of_scale {a b : Nat} {q : ℚ} (hq : q ≠ 0) :
    ⌊(a * q) / (b * q)⌋ = ((a / b : ℕ) : ℤ) := by
  rw [mul_div_mul_right _ _ hq, Rat.floor_natCast_div_natCast]
  rfl

theorem floor_of_roundsTo {q v : ℚ} (h : RoundsTo q v) (hq : 0 ≤ q) (hlarge : ⌊q⌋ < 2 ^ 24) :
    ⌊v⌋ = ⌊q⌋ ∨ ⌊v⌋ = ⌊q⌋ + 1 := by
  obtain ⟨n, hn⟩ := Int.eq_ofNat_of_zero_le (Int.floor_nonneg.mpr hq)
  have hbelow : ((n : ℕ) : ℚ) ≤ q := by
    have := Int.floor_le q
    rwa [hn, Int.cast_natCast] at this
  have habove : q ≤ ((n + 1 : ℕ) : ℚ) := by
    have := (Int.lt_floor_add_one q).le
    rwa [hn, Int.cast_natCast, ← Nat.cast_one, ← Nat.cast_add] at this
  have hle := (h n (representable_natCast (by omega))).2 hbelow
  have hge := (h _ (representable_natCast (by omega))).1 habove
  rw [hn]
  rcases hge.lt_or_eq with hlt | heq
  · left
    rw [Int.floor_eq_iff]
    push_cast at hlt ⊢
    exact ⟨hle, hlt⟩
  · right
    rw [heq]
    exact_mod_cast Int.floor_natCast (n + 1)

/-- The remainder is exact, since it is a multiple of the finer of the two units. -/
theorem exact_rem_of_parts {x y : Float32} {s s' : Sign} {m n : Nat} {e f : Int} {h : 0 < m}
    {h' : 0 < n} (hp : parts x = .finite s m e h) (hp' : parts y = .finite s' n f h') :
    (rem x y).isFinite = true ∧ value (rem x y) =
      signed s (m * 2 ^ e - ⌊(m : ℚ) * 2 ^ e / (n * 2 ^ f)⌋ * (n * 2 ^ f)) := by
  have hc := (canonical_unpack hp).1
  have hc' := (canonical_unpack hp').1
  have hrem : rem x y = ofParts s
      ((m <<< (e - min e f).toNat) % (n <<< (f - min e f).toNat)) (min e f) := by
    simp only [rem, hp, hp']
  have hle : (m <<< (e - min e f).toNat) % (n <<< (f - min e f).toNat) ≤ 2 ^ 24 := by
    rcases min_choice e f with he | hf
    · rw [he, sub_self]
      exact (Nat.mod_le _ _).trans hc.lt.le
    · rw [hf, sub_self]
      exact (Nat.mod_lt _ h').le.trans hc'.lt.le
  have hmax : (m : ℚ) * 2 ^ e ≤ maxValue := by
    have habs := abs_value_le x
    rwa [value_of_finite hp, abs_signed s (by positivity)] at habs
  rw [← scaled_shiftLeft (min_le_left e f)] at hmax ⊢
  rw [← scaled_shiftLeft (min_le_right e f)]
  set a := m <<< (e - min e f).toNat
  set b := n <<< (f - min e f).toNat
  have hmod : ((a % b : ℕ) : ℚ) * 2 ^ min e f ≤ maxValue := by
    refine le_trans ?_ hmax
    gcongr
    exact Nat.mod_le _ _
  obtain ⟨hfinite, hresult⟩ := exact_ofParts s hle (le_min hc.le hc'.le) hmod
  have hdiv : ((b * (a / b) + a % b : ℕ) : ℚ) = a := by rw [Nat.div_add_mod]
  rw [hrem, hresult, floor_div_of_scale (by positivity)]
  refine ⟨hfinite, congrArg (signed s) ?_⟩
  rw [← hdiv, Int.cast_natCast, Nat.cast_add, Nat.cast_mul]
  ring

theorem exact_rem {x y : Float32} (hx : x.isFinite = true) (hy : y.isFinite = true)
    (hx' : 0 ≤ value x) (hy' : 0 < value y) :
    (rem x y).isFinite = true ∧
      value (rem x y) = value x - ⌊value x / value y⌋ * value y := by
  rcases nonneg_cases hy hy'.le with ⟨s', hp'⟩ | ⟨n, f, h', hp', -⟩
  · exact absurd (value_of_zero hp') hy'.ne'
  rcases nonneg_cases hx hx' with ⟨s, hp⟩ | ⟨m, e, h, hp, -⟩
  · have hrem : rem x y = x := by simp only [rem, hp, hp']
    rw [hrem, value_of_zero hp, zero_div, Int.floor_zero, Int.cast_zero, zero_mul, sub_zero]
    exact ⟨hx, rfl⟩
  · rw [value_of_finite hp, value_of_finite hp']
    exact exact_rem_of_parts hp hp'

theorem roundToInt_eq (s : Sign) (m : Nat) (e : Int) :
    roundToInt s m e = s.apply ⌊(m : ℚ) * 2 ^ e⌋₊ := by
  simp only [roundToInt, decreaseExponent, shiftToExponent, mantissa_shiftRight,
    mantissa_ofMantissaAndAccuracy, sub_zero]
  congr 2
  rcases le_or_gt 0 e with he | he
  · obtain ⟨k, rfl⟩ := Int.eq_ofNat_of_zero_le he
    have hk : (0 - ((k : ℤ) - (k : ℤ).toNat)).toNat = 0 := by omega
    have hwhole : (m : ℚ) * 2 ^ (k : ℤ) = (m * 2 ^ k : ℕ) := by
      rw [zpow_natCast]
      push_cast
      rfl
    rw [hk, pow_zero, Nat.div_one, Int.toNat_natCast, Nat.shiftLeft_eq, hwhole, Nat.floor_natCast]
  · obtain ⟨k, rfl⟩ : ∃ k : ℕ, e = -k := ⟨(-e).toNat, by omega⟩
    have hk₀ : (-(k : ℤ)).toNat = 0 := by omega
    have hk : (0 - (-(k : ℤ) - (0 : ℕ))).toNat = k := by omega
    rw [hk₀, hk, Nat.shiftLeft_zero, scaled_neg, Nat.floor_div_eq_div]

theorem toNat_ofNatClamp (n : Nat) : (UInt64.ofNatClamp n).toNat = min n (2 ^ 64 - 1) := by
  have hsize : UInt64.size = 2 ^ 64 := rfl
  rcases lt_or_ge n UInt64.size with h | h
  · rw [UInt64.toNat_ofNatClamp_of_lt h]
    omega
  · rw [UInt64.toNat_ofNatClamp_of_le h]
    omega

theorem toNat_eq {x : Float32} (hx : x.isFinite = true) :
    Scalar.toNat x = min ⌊value x⌋₊ (2 ^ 64 - 1) := by
  have hword : Scalar.toNat x = min (UnpackedFloat.toInt 0 (UInt64.size - 1) (parts x)).toNat
      (2 ^ 64 - 1) := toNat_ofNatClamp _
  rw [hword]
  congr 1
  rcases finite_cases hx with ⟨s, hp⟩ | ⟨s, m, e, h, hp, -⟩
  · rw [value_of_zero hp, hp, Nat.floor_zero]
    rfl
  · rw [value_of_finite hp, hp, UnpackedFloat.toInt, roundToInt_eq]
    cases s with
    | positive => rfl
    | negative =>
      have hneg : -((m : ℚ) * 2 ^ e) ≤ 0 := neg_nonpos.mpr (by positivity)
      rw [signed, Nat.floor_of_nonpos hneg, Sign.apply]
      omega

theorem toNat_mono {x y : Float32} (hx : x.isFinite = true) (hy : y.isFinite = true)
    (h : value x ≤ value y) : Scalar.toNat x ≤ Scalar.toNat y := by
  rw [toNat_eq hx, toNat_eq hy]
  exact min_le_min_right _ (Nat.floor_mono h)

end BranchStream.Binary32
