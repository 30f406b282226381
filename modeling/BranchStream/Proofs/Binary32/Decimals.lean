import BranchStream.Json.Coded
import BranchStream.Proofs.Binary32.Wrapping

namespace BranchStream

open Float.Model (Format UnpackedFloat totalExponent)
open Float.Model.UnpackedFloat Float.Model.UnpackedFloat.ExtendedMantissa

def Decimal.toRat (d : Decimal) : ℚ :=
  Binary32.signed (Binary32.signOf d.negative) (d.digits * 10 ^ d.exponent)

namespace Binary32

theorem roundWithAccuracy_shiftLeft {f : Format} (s : Sign) {m k : Nat} {e : Int} (hm : 0 < m)
    (hk : (f.targetExponent (totalExponent m (e + k)) - e).toNat = k) :
    roundWithAccuracy f s (m <<< k) e .exact = .finite s m (e + k) hm := by
  have htotal : totalExponent (m <<< k) e = totalExponent m (e + k) := by
    rw [totalExponent, totalExponent, log2_shiftLeft hm.ne']
    push_cast
    ring
  have hcut : (ofMantissaAndAccuracy (m <<< k) .exact >>> k).roundedMantissa = m := by
    have hexact : Exact (ofMantissaAndAccuracy (m <<< k) .exact >>> k) := by
      rw [exact_shiftRight_iff]
      exact ⟨⟨rfl, rfl⟩, Dvd.intro_left m (Nat.shiftLeft_eq m k).symm⟩
    rw [(roundedMantissa_cases _).2 hexact, mantissa_shiftRight, mantissa_ofMantissaAndAccuracy,
      Nat.shiftLeft_eq, Nat.mul_div_cancel m (by positivity)]
  have hdone : (f.targetExponent (totalExponent m (e + k)) - (e + k)).toNat = 0 := by omega
  have hnone : (ofMantissaAndAccuracy m .exact >>> 0).mantissa = m := rfl
  simp only [roundWithAccuracy, shiftToTargetExponent, shiftToExponent, htotal, hk, hcut, hdone,
    hnone, Nat.cast_zero, add_zero, dif_neg hm.ne']

theorem eq_shiftLeft_of_scaled_eq {m n : Nat} {e g : Int} (h : (n : ℚ) * 2 ^ g = m * 2 ^ e)
    (hle : g ≤ e) : n = m <<< (e - g).toNat := by
  rw [← scaled_shiftLeft hle] at h
  exact_mod_cast mul_right_cancel₀ (by positivity) h

theorem totalExponent_eq_of_scaled_eq {m n : Nat} {e g : Int} (hm : m ≠ 0) (hn : n ≠ 0)
    (h : (n : ℚ) * 2 ^ g = m * 2 ^ e) : totalExponent n g = totalExponent m e := by
  rw [totalExponent, totalExponent]
  rcases le_total g e with hle | hle
  · rw [eq_shiftLeft_of_scaled_eq h hle, log2_shiftLeft hm]
    omega
  · rw [eq_shiftLeft_of_scaled_eq h.symm hle, log2_shiftLeft hn]
    omega

theorem targetExponent_binary64 (t : Int) :
    Format.binary64.targetExponent t = max (t - 53) (-1074) := rfl

theorem ne_zero_of_scaled_eq {m n : Nat} {e : Int} {q : ℚ} (hm : m ≠ 0)
    (h : (n : ℚ) * q = m * 2 ^ e) : n ≠ 0 := by
  rintro rfl
  rw [Nat.cast_zero, zero_mul, eq_comm, mul_eq_zero, Nat.cast_eq_zero] at h
  exact h.elim hm (by positivity)

theorem roundWithAccuracy_binary64 (s : Sign) {m n : Nat} {e g : Int} (hm : m ≠ 0)
    (hc : Canonical m e) (h : (n : ℚ) * 2 ^ g = m * 2 ^ e) :
    ∃ r e' hr, roundWithAccuracy .binary64 s n g .exact = .finite s r e' hr ∧
      (r : ℚ) * 2 ^ e' = m * 2 ^ e := by
  have hn := ne_zero_of_scaled_eq hm h
  have htotal := totalExponent_eq_of_scaled_eq hm hn h
  have hlog : m.log2 < 24 := (Nat.log2_lt hm).mpr hc.lt
  have hle := hc.le
  obtain ⟨t, ht⟩ : ∃ t, t = Format.binary64.targetExponent (totalExponent m e) := ⟨_, rfl⟩
  have hte : t ≤ e := by
    rw [ht, targetExponent_binary64, totalExponent]
    omega
  obtain ⟨k, hk⟩ : ∃ k, k = (t - g).toNat := ⟨_, rfl⟩
  obtain ⟨r, rfl⟩ : ∃ r, n = r <<< k := by
    rcases le_or_gt t g with hg | hg
    · obtain rfl : k = 0 := by omega
      exact ⟨n, rfl⟩
    · refine ⟨m <<< (e - t).toNat, ?_⟩
      rw [eq_shiftLeft_of_scaled_eq h (by omega), ← Nat.shiftLeft_add]
      congr 1
      omega
  have hr : r ≠ 0 := by
    rintro rfl
    exact hn (Nat.zero_shiftLeft k)
  have hvalue : (r : ℚ) * 2 ^ (g + k) = m * 2 ^ e := by
    rw [← h, scaled_add, Nat.shiftLeft_eq]
    push_cast
    rfl
  refine ⟨r, g + k, Nat.pos_of_ne_zero hr, roundWithAccuracy_shiftLeft s _ ?_, hvalue⟩
  rw [totalExponent_eq_of_scaled_eq hm hr hvalue, ← ht, hk]

theorem div_binary64 (s s' : Sign) {m n d : Nat} {e : Int} (hm : m ≠ 0) (hc : Canonical m e)
    (hn : 0 < n) (hd : 0 < d) (h : (n : ℚ) = m * 2 ^ e * d) :
    ∃ r e' hr, UnpackedFloat.div .binary64 (.finite s n 0 hn) (.finite s' d 0 hd) =
      .finite (s / s') r e' hr ∧ (r : ℚ) * 2 ^ e' = m * 2 ^ e := by
  obtain ⟨t, ht⟩ : ∃ t, t = min 0 (Format.binary64.targetExponent
    (totalExponent n 0 - totalExponent d 0)) := ⟨_, rfl⟩
  have hte : t ≤ e := by
    have hlog : (2 : ℚ) ^ (n.log2 : ℤ) < 2 ^ (25 + e + d.log2) := by
      calc (2 : ℚ) ^ (n.log2 : ℤ) ≤ n := by
            rw [zpow_natCast]
            exact_mod_cast Nat.log2_self_le hn.ne'
        _ = m * 2 ^ e * d := h
        _ < 2 ^ 24 * 2 ^ e * 2 ^ (d.log2 + 1) := by
            gcongr
            · exact_mod_cast hc.lt
            · exact_mod_cast Nat.lt_log2_self
        _ = 2 ^ (25 + e + d.log2) := by
            rw [zpow_add₀ two_ne_zero, zpow_add₀ two_ne_zero, zpow_natCast]
            ring
    have hlt := (zpow_lt_zpow_iff_right₀ one_lt_two).mp hlog
    have hle := hc.le
    rw [ht, targetExponent_binary64, totalExponent, totalExponent]
    omega
  obtain ⟨k, hk⟩ : ∃ k : Nat, t = -k := ⟨(-t).toNat, by omega⟩
  have hshift : n <<< k = m <<< (e - t).toNat * d := by
    have hscaled := scaled_shiftLeft (m := m) hte
    rw [← hscaled, hk, zpow_neg, zpow_natCast] at h
    field_simp at h
    rw [hk, Nat.shiftLeft_eq]
    exact_mod_cast h
  have hcore : divCore .binary64 n 0 d 0 = (m <<< (e - t).toNat, t, .exact) := by
    have hbits : (0 - t).toNat = k := by omega
    rw [divCore, sub_zero, ← ht]
    simp only [hbits, hshift, Nat.mul_div_cancel _ hd, Nat.mul_mod_left, accuracyOfFraction,
      if_true]
  rw [UnpackedFloat.div, hcore]
  exact roundWithAccuracy_binary64 _ hm hc (scaled_shiftLeft hte)

theorem exponent_le_of_scaled_eq {m n : Nat} {e i : Int} (hm : m ≠ 0) (hc : Canonical m e)
    (he : e ≤ 104) (h : (n : ℚ) * 10 ^ i = m * 2 ^ e) : i ≤ 128 := by
  by_contra! hi
  have hone : (1 : ℚ) ≤ n := by exact_mod_cast Nat.pos_of_ne_zero (ne_zero_of_scaled_eq hm h)
  have hpow : (2 : ℚ) ^ i < 2 ^ (128 : ℤ) := by
    calc (2 : ℚ) ^ i ≤ 10 ^ i := zpow_le_zpow_left₀ (by omega) (by norm_num) (by norm_num)
      _ ≤ n * 10 ^ i := le_mul_of_one_le_left (by positivity) hone
      _ = m * 2 ^ e := h
      _ < 2 ^ 24 * 2 ^ e := by
          gcongr
          exact_mod_cast hc.lt
      _ ≤ 2 ^ 24 * 2 ^ (104 : ℤ) := by
          gcongr
          norm_num
      _ = 2 ^ (128 : ℤ) := by norm_num
  have hlt := (zpow_lt_zpow_iff_right₀ one_lt_two).mp hpow
  omega

theorem le_exponent_of_scaled_eq {m n : Nat} {e i : Int} (hm : m ≠ 0) (hc : Canonical m e)
    (h : (n : ℚ) * 10 ^ i = m * 2 ^ e) : -149 - n.log2 ≤ i := by
  by_contra! hi
  have hone : (1 : ℚ) ≤ m := by exact_mod_cast Nat.pos_of_ne_zero hm
  have hpow : (2 : ℚ) ^ (-149 : ℤ) < 2 ^ (n.log2 + 1 + i) := by
    calc (2 : ℚ) ^ (-149 : ℤ) ≤ 2 ^ e := zpow_le_zpow_right₀ one_le_two hc.le
      _ ≤ m * 2 ^ e := le_mul_of_one_le_left (by positivity) hone
      _ = n * 10 ^ i := h.symm
      _ < 2 ^ (n.log2 + 1) * 10 ^ i := by
          gcongr
          exact_mod_cast Nat.lt_log2_self
      _ ≤ 2 ^ (n.log2 + 1) * 2 ^ i := by
          obtain ⟨k, rfl⟩ : ∃ k : Nat, i = -k := ⟨(-i).toNat, by omega⟩
          rw [zpow_neg, zpow_neg, zpow_natCast, zpow_natCast]
          gcongr
          norm_num
      _ = 2 ^ (n.log2 + 1 + i) := by
          rw [zpow_add₀ two_ne_zero]
          norm_cast
  have hlt := (zpow_lt_zpow_iff_right₀ one_lt_two).mp hpow
  omega

theorem ofScientific_binary64 {m n : Nat} {e i : Int} (hm : m ≠ 0) (hc : Canonical m e)
    (he : e ≤ 104) (h : (n : ℚ) * 10 ^ i = m * 2 ^ e) :
    ∃ r e' hr, UnpackedFloat.ofScientific .binary64 n i = .finite .positive r e' hr ∧
      (r : ℚ) * 2 ^ e' = m * 2 ^ e := by
  have hn := ne_zero_of_scaled_eq hm h
  have hlarge := exponent_le_of_scaled_eq hm hc he h
  have hsmall := le_exponent_of_scaled_eq hm hc h
  have hbound : (2 : ℤ) ^ Format.binary64.exponentBits = 2048 := rfl
  rw [UnpackedFloat.ofScientific, dif_neg hn, if_neg (by omega), if_neg (by omega)]
  split_ifs with hi
  · refine roundWithAccuracy_binary64 .positive hm hc ?_
    obtain ⟨k, rfl⟩ := Int.eq_ofNat_of_zero_le hi
    rw [← h, Int.toNat_natCast, zpow_natCast, add_zero, zpow_neg, zpow_natCast, Nat.shiftLeft_eq]
    push_cast
    field_simp
  · refine div_binary64 .positive .positive hm hc (Nat.pos_of_ne_zero hn) (by positivity) ?_
    obtain ⟨k, rfl⟩ : ∃ k : Nat, i = -k := ⟨(-i).toNat, by omega⟩
    rw [← h, neg_neg, Int.toNat_natCast, zpow_neg, zpow_natCast]
    push_cast
    field_simp

variable {x : Float32} {s : Sign}

@[simp] theorem signOf_beq_negative (s : Sign) : signOf (s == .negative) = s := by
  cases s <;> rfl

theorem toDecimal?_of_zero (hp : parts x = .zero s) :
    toDecimal? x = some ⟨s == .negative, 0, 0⟩ := by
  simp only [toDecimal?, hp]

theorem toDecimal?_of_finite {m : Nat} {e : Int} {h : 0 < m} (hp : parts x = .finite s m e h) :
    toDecimal? x = some ⟨s == .negative, m <<< e.toNat * 5 ^ (-e).toNat, -(-e).toNat⟩ := by
  simp only [toDecimal?, hp]
  rfl

theorem toRat_decimal_of_parts (s : Sign) (m : Nat) (e : Int) :
    Decimal.toRat ⟨s == .negative, m <<< e.toNat * 5 ^ (-e).toNat, -(-e).toNat⟩ =
      signed s (m * 2 ^ e) := by
  rw [Decimal.toRat, signOf_beq_negative]
  congr 1
  rw [zpow_neg, zpow_natCast, Nat.shiftLeft_eq]
  have hten : (10 : ℚ) ^ (-e).toNat = 2 ^ (-e).toNat * 5 ^ (-e).toNat := by
    rw [← mul_pow]
    norm_num
  have hpow : (2 : ℚ) ^ e = 2 ^ e.toNat / 2 ^ (-e).toNat := by
    rw [← zpow_natCast, ← zpow_natCast, ← zpow_sub₀ two_ne_zero]
    congr 1
    omega
  rw [hten, hpow]
  push_cast
  field_simp

theorem toRat_of_toDecimal? {d : Decimal} (h : toDecimal? x = some d) : d.toRat = value x := by
  cases hp : parts x with
  | zero s =>
    obtain rfl := Option.some.inj ((toDecimal?_of_zero hp).symm.trans h)
    simp [Decimal.toRat, value_of_zero hp]
  | finite s m e hm =>
    obtain rfl := Option.some.inj ((toDecimal?_of_finite hp).symm.trans h)
    rw [toRat_decimal_of_parts, value_of_finite hp]
  | _ => simp only [toDecimal?, hp, reduceCtorEq] at h

/-- A decimal is read as the number it denotes, if there is one. -/
theorem ofDecimal_of_toRat {d : Decimal} (hx : x.isFinite = true)
    (h₀ : value x ≠ 0) (h : d.toRat = value x) : ofDecimal d = x := by
  rcases finite_cases hx with ⟨s, hp⟩ | ⟨s, m, e, hm, hp, hc, he⟩
  · exact absurd (value_of_zero hp) h₀
  have hscaled : (d.digits : ℚ) * 10 ^ d.exponent = m * 2 ^ e := by
    have habs := congrArg (|·|) h
    rwa [value_of_finite hp, Decimal.toRat, abs_signed _ (by positivity),
      abs_signed _ (by positivity)] at habs
  obtain ⟨r, e', hr, hread, hvalue⟩ := ofScientific_binary64 hm.ne' hc he hscaled
  have hround := rounded_ofParts (signOf d.negative) r e'
  rw [hvalue, ← hscaled, ← Decimal.toRat, h] at hround
  obtain ⟨hfinite, hexact⟩ := hround.exact (representable_value x) (abs_value_le x)
  rw [ofDecimal, hread]
  exact (eq_of_value_eq hx hfinite hexact.symm h₀).symm

theorem eq_of_parts_eq {y : Float32} (h : parts x = parts y) : x = y := by
  have hwords := (unpack_inj_of_valid x.toModel.valid y.toModel.valid).mp h
  rwa [← Float32.toBits_inj, ← UInt32.toBitVec_inj]

theorem ofDecimal_of_toDecimal? {d : Decimal} (h : toDecimal? x = some d) : ofDecimal d = x := by
  cases hp : parts x with
  | zero s =>
    obtain rfl := Option.some.inj ((toDecimal?_of_zero hp).symm.trans h)
    have hread : ofDecimal ⟨s == .negative, 0, 0⟩ = ofParts s 0 0 := by
      rw [ofDecimal, signOf_beq_negative]
      rfl
    refine eq_of_parts_eq (hread ▸ ?_)
    rw [hp]
    cases s <;> rfl
  | finite s m e hm =>
    have hne : value x ≠ 0 := by
      rw [value_of_finite hp, ← abs_ne_zero, abs_signed s (by positivity)]
      positivity
    exact ofDecimal_of_toRat (isFinite_of_parts hp) hne (toRat_of_toDecimal? h)
  | _ => simp only [toDecimal?, hp, reduceCtorEq] at h

theorem exists_toDecimal? (hx : x.isFinite = true) : ∃ d, toDecimal? x = some d := by
  rcases finite_cases hx with ⟨s, hp⟩ | ⟨s, m, e, h, hp, -⟩
  · exact ⟨_, toDecimal?_of_zero hp⟩
  · exact ⟨_, toDecimal?_of_finite hp⟩

end Binary32

theorem decode?_encode_float {x : Float32} (hx : x.isFinite = true) :
    decode? (encode x) = some x := by
  obtain ⟨d, hd⟩ := Binary32.exists_toDecimal? hx
  have hencode : encode x = .decimal d := by simp only [encode, hd]
  rw [hencode]
  exact congrArg some (Binary32.ofDecimal_of_toDecimal? hd)

end BranchStream
