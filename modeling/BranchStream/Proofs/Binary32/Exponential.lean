import BranchStream.Proofs.Binary32.Truncation

namespace BranchStream.Binary32

open Float.Model (UnpackedFloat)
open Float.Model.UnpackedFloat
open FixedPoint (toReal ulp)

section Real

variable {a b c : ℝ}

theorem log_sub_log_le (hc : 0 < c) (ha : c ≤ a) (hb : c ≤ b) :
    Real.log a - Real.log b ≤ |a - b| / c := by
  have hb₀ : 0 < b := hc.trans_le hb
  rw [← Real.log_div (hc.trans_le ha).ne' hb₀.ne']
  calc Real.log (a / b) ≤ a / b - 1 := Real.log_le_sub_one_of_pos (div_pos (hc.trans_le ha) hb₀)
    _ = (a - b) / b := by rw [sub_div, div_self hb₀.ne']
    _ ≤ |a - b| / b := by
        gcongr
        exact le_abs_self _
    _ ≤ |a - b| / c := by gcongr

theorem abs_log_sub_le (hc : 0 < c) (ha : c ≤ a) (hb : c ≤ b) :
    |Real.log a - Real.log b| ≤ |a - b| / c := by
  rw [abs_le]
  refine ⟨?_, log_sub_log_le hc ha hb⟩
  have := log_sub_log_le hc hb ha
  rw [abs_sub_comm] at this
  linarith

theorem log_eq_sub (ha : 0 < a) :
    Real.log (1 + (a - 1) / (a + 1)) - Real.log (1 - (a - 1) / (a + 1)) = Real.log a := by
  have hsum : 1 + (a - 1) / (a + 1) = 2 * a / (a + 1) := by
    field_simp
    ring
  have hdiff : 1 - (a - 1) / (a + 1) = 2 / (a + 1) := by
    field_simp
    ring
  rw [hsum, hdiff, ← Real.log_div (by positivity) (by positivity)]
  congr 1
  field_simp

end Real

theorem log_near {n : ℕ} {z : ℤ} {f : ℝ} (hf : 3 / 4 ≤ f) (hz : |toReal precision z| ≤ 1 / 3)
    (hclose : |toReal precision z - (f - 1) / (f + 1)| ≤ ulp precision) :
    |2 * toReal precision (FixedPoint.artanh precision n z) - Real.log f| ≤
      1 / 2 ^ 180 + (1 / 8) ^ n * 4 := by
  have hseries := FixedPoint.artanh_near (p := precision) (n := n) (by norm_num) hz
  have hulp := FixedPoint.ulp_le precision (by norm_num)
  set t := (f - 1) / (f + 1) with ht
  have hclose' : |(1 + toReal precision z) - (1 + t)| ≤ ulp precision := by
    rwa [add_sub_add_left_eq_sub]
  have hclose'' : |(1 - toReal precision z) - (1 - t)| ≤ ulp precision := by
    rwa [sub_sub_sub_cancel_left, abs_sub_comm]
  obtain ⟨hlow, hhigh⟩ := abs_le.mp hz
  obtain ⟨hlow', hhigh'⟩ := abs_le.mp hclose
  have hplus := (abs_log_sub_le (c := 1 / 2) (by norm_num)
    (by linarith : 1 / 2 ≤ 1 + toReal precision z) (by linarith : 1 / 2 ≤ 1 + t)).trans
    (div_le_div_of_nonneg_right hclose' (by norm_num))
  have hminus := (abs_log_sub_le (c := 1 / 2) (by norm_num)
    (by linarith : 1 / 2 ≤ 1 - toReal precision z) (by linarith : 1 / 2 ≤ 1 - t)).trans
    (div_le_div_of_nonneg_right hclose'' (by norm_num))
  rw [← log_eq_sub (by linarith : 0 < f)]
  rw [ulp_precision, abs_le] at hseries hplus hminus
  norm_num at hseries hplus hminus
  rw [abs_le]
  norm_num
  constructor <;> linarith

theorem lnTwo_near : |toReal precision lnTwo - Real.log 2| ≤ 1 / 2 ^ 170 := by
  have hthird := FixedPoint.div_natCast_near precision (FixedPoint.one precision) (d := 3) three_pos
  obtain ⟨hle, -⟩ := FixedPoint.toReal_ediv precision (FixedPoint.one precision) three_pos
  have hpos := FixedPoint.toReal_nonneg precision
    (Int.ediv_nonneg (FixedPoint.one_pos precision).le three_pos.le)
  rw [FixedPoint.toReal_one] at hthird
  rw [FixedPoint.cast_one] at hle
  have h := log_near (n := 64) (z := FixedPoint.one precision / 3) (f := 2) (by norm_num)
    (by rw [abs_of_nonneg hpos]; refine hle.trans (le_of_eq ?_); push_cast; field_simp)
    (by norm_num at hthird ⊢; exact hthird)
  have hvalue : toReal precision lnTwo =
      2 * toReal precision (FixedPoint.artanh precision 64 (FixedPoint.one precision / 3)) := by
    have hfixed : lnTwo = 2 * FixedPoint.artanh precision 64 (FixedPoint.one precision / 3) := rfl
    rw [hfixed, FixedPoint.toReal_mul]
    push_cast
    rfl
  rw [hvalue]
  exact h.trans (by norm_num)

theorem scaled_bits {m : ℕ} (hm : 0 < m) :
    let bits : ℤ := if 3 <<< m.log2 < 2 * m then m.log2 + 1 else m.log2
    m.log2 ≤ bits ∧ bits ≤ m.log2 + 1 ∧ 3 / 4 ≤ (m : ℝ) * 2 ^ (-bits) ∧
      (m : ℝ) * 2 ^ (-bits) ≤ 3 / 2 := by
  intro bits
  have hlow : (2 : ℝ) ^ m.log2 ≤ m := by exact_mod_cast Nat.log2_self_le hm.ne'
  have hhigh : (m : ℝ) < 2 ^ m.log2 * 2 := by
    rw [← pow_succ]
    exact_mod_cast Nat.lt_log2_self
  have hpos : (0 : ℝ) < 2 ^ m.log2 := by positivity
  by_cases h : 3 <<< m.log2 < 2 * m
  · have hbits : bits = (m.log2 + 1 : ℕ) := by
      push_cast
      exact if_pos h
    have hscale : (m : ℝ) * 2 ^ (-bits) = m / (2 ^ m.log2 * 2) := by
      rw [hbits, zpow_neg, zpow_natCast, pow_succ, div_eq_mul_inv]
    rw [Nat.shiftLeft_eq] at h
    have hcast : 3 * (2 : ℝ) ^ m.log2 < 2 * m := by exact_mod_cast h
    rw [hscale, le_div_iff₀ (by positivity), div_le_iff₀ (by positivity)]
    refine ⟨by omega, by omega, ?_, ?_⟩ <;> linarith
  · have hbits : bits = m.log2 := if_neg h
    have hscale : (m : ℝ) * 2 ^ (-bits) = m / 2 ^ m.log2 := by
      rw [hbits, zpow_neg, zpow_natCast, div_eq_mul_inv]
    rw [Nat.shiftLeft_eq] at h
    have hcast : 2 * (m : ℝ) ≤ 3 * 2 ^ m.log2 := by exact_mod_cast not_lt.mp h
    rw [hscale, le_div_iff₀ (by positivity), div_le_iff₀ (by positivity)]
    refine ⟨by omega, by omega, ?_, ?_⟩ <;> linarith

theorem abs_log_ge {q : ℚ} (hq : Representable q) (hpos : 0 < q) (hone : q ≠ 1) :
    1 / 2 ^ 24 ≤ |Real.log q| := by
  have hpos' : (0 : ℝ) < q := by exact_mod_cast hpos
  rcases lt_or_gt_of_ne hone with hlt | hgt
  · have hle : q ≤ (2 ^ 24 - 1 : ℕ) * 2 ^ (-24 : ℤ) := by
      refine (hq.le_or_le (.inl (by norm_num))).resolve_right fun h ↦ ?_
      norm_num at h
      linarith
    have hreal : (q : ℝ) ≤ 1 - 1 / 2 ^ 24 := by
      have hcast := Rat.cast_le (K := ℝ).mpr hle
      push_cast at hcast
      norm_num at hcast ⊢
      exact hcast
    have := Real.log_le_sub_one_of_pos hpos'
    rw [abs_of_neg (by linarith)]
    linarith
  · have hge : (2 ^ 23 + 1) * 2 ^ (-23 : ℤ) ≤ q := by
      have := (hq.le_or_le (m := 2 ^ 23) (e := -23) (.inl le_rfl)).resolve_left fun h ↦ by
        norm_num at h
        linarith
      exact_mod_cast this
    have hreal : 1 + 1 / 2 ^ 23 ≤ (q : ℝ) := by
      have hcast := Rat.cast_le (K := ℝ).mpr hge
      push_cast at hcast
      norm_num at hcast ⊢
      exact hcast
    have hlog := Real.one_sub_inv_le_log_of_pos hpos'
    have hinv : (q : ℝ)⁻¹ ≤ 1 - 1 / 2 ^ 24 := by
      rw [inv_le_comm₀ hpos' (by norm_num)]
      exact le_trans (by norm_num) hreal
    rw [abs_of_pos (by norm_num at *; linarith)]
    linarith

section Logarithm

variable {x : Float32}

theorem lnFixed_near {m : ℕ} {e : ℤ} {h : 0 < m} (hp : parts x = .finite .positive m e h) :
    let bits : ℤ := if 3 <<< m.log2 < 2 * m then m.log2 + 1 else m.log2
    let f := toFixed precision .positive m (-bits)
    let z := FixedPoint.div precision (f - FixedPoint.one precision) (f + FixedPoint.one precision)
    |toReal precision (2 * FixedPoint.artanh precision 48 z + (e + bits) * lnTwo) -
      Real.log (real x)| ≤ 1 / 2 ^ 138 := by
  intro bits f z
  obtain ⟨hbits, hbits', hlow, hhigh⟩ := scaled_bits h
  obtain ⟨hc, he⟩ := canonical_unpack hp
  have hlog : m.log2 ≤ 23 := Nat.le_of_lt_succ ((Nat.log2_lt h.ne').mpr hc.lt)
  have hf : toReal precision f = m * 2 ^ (-bits) := by
    rw [toReal_toFixed (by push_cast; omega), signed]
    push_cast
    rfl
  set y := (m : ℝ) * 2 ^ (-bits) with hy
  have hden : 0 < f + FixedPoint.one precision :=
    add_pos_of_nonneg_of_pos (Int.natCast_nonneg _) (FixedPoint.one_pos precision)
  have hz := FixedPoint.div_near precision (f - FixedPoint.one precision) hden
  rw [FixedPoint.toReal_sub, FixedPoint.toReal_add, FixedPoint.toReal_one, hf] at hz
  have hratio : |(y - 1) / (y + 1)| ≤ 1 / 5 := by
    rw [abs_le, le_div_iff₀ (by linarith), div_le_iff₀ (by linarith)]
    constructor <;> linarith
  have hsmall : |toReal precision z| ≤ 1 / 3 := by
    have htri := abs_sub_abs_le_abs_sub (toReal precision z) ((y - 1) / (y + 1))
    linarith [FixedPoint.ulp_le precision (by norm_num)]
  have hseries := log_near (n := 48) hlow hsmall hz
  have hreal : real x = y * 2 ^ (e + bits) := by
    have habs : real x = m * 2 ^ e := by
      rw [real, value_of_finite hp, signed]
      push_cast
      rfl
    rw [habs, hy, mul_assoc, ← zpow_add₀ two_ne_zero, show -bits + (e + bits) = e by ring]
  have hturns : |((e + bits : ℤ) : ℝ)| ≤ 2 ^ 8 := by
    have hwhole : |e + bits| ≤ 2 ^ 8 := by
      rw [abs_le]
      constructor <;> have := hc.le <;> omega
    exact_mod_cast hwhole
  have hpowers : |((e + bits : ℤ) : ℝ) * toReal precision lnTwo - (e + bits : ℤ) * Real.log 2| ≤
      2 ^ 8 * (1 / 2 ^ 170) := by
    rw [← mul_sub, abs_mul]
    exact mul_le_mul hturns lnTwo_near (abs_nonneg _) (by positivity)
  rw [hreal, Real.log_mul (by linarith) (by positivity), Real.log_zpow, FixedPoint.toReal_add,
    FixedPoint.toReal_mul, FixedPoint.toReal_mul, add_sub_add_comm, Int.cast_ofNat]
  refine (abs_add_le _ _).trans ((add_le_add hseries hpowers).trans ?_)
  norm_num

theorem abs_log_real_le (hlow : 2 ^ (-149 : ℤ) ≤ real x) : |Real.log (real x)| ≤ 149 := by
  have hpos : 0 < real x := lt_of_lt_of_le (by positivity) hlow
  have htwo := Real.log_two_lt_d9
  have hfirst := Real.log_le_log (by positivity) hlow
  have hlast := Real.log_le_log hpos ((le_abs_self _).trans (abs_real_le x))
  rw [Real.log_zpow] at hfirst
  rw [Real.log_pow] at hlast
  push_cast at hfirst hlast
  rw [abs_le]
  constructor <;> linarith

theorem ln_near (hx : x.isFinite = true) (hpos : 0 < value x) :
    (ln x).isFinite = true ∧
      |real (ln x) - Real.log (real x)| ≤ 2 ^ (-20 : ℤ) * |Real.log (real x)| := by
  rcases nonneg_cases hx hpos.le with ⟨s, hp⟩ | ⟨m, e, h, hp, hc⟩
  · exact absurd (value_of_zero hp) hpos.ne'
  · by_cases hone : x = 1
    · have hln : ln x = 0 := by
        rw [hone]
        decide +kernel
      have hvalue : value x = 1 := by
        rw [hone, one_eq_ofBits]
        exact value_one.2
      rw [hln, real, real, value_zero, hvalue, Rat.cast_one, Real.log_one]
      exact ⟨rfl, by norm_num⟩
    · obtain ⟨v, hln, hclose⟩ : ∃ v, ln x = ofFixed v 0 ∧
          |toReal precision v - Real.log (real x)| ≤ 1 / 2 ^ 138 :=
        ⟨_, by simp only [ln, hp, hone, if_false], lnFixed_near hp⟩
      have hvalue : value x ≠ 1 := fun h ↦ hone <| by
        rw [one_eq_ofBits]
        exact eq_of_value_eq hx value_one.1 (h.trans value_one.2.symm) (by rw [h]; exact one_ne_zero)
      have hlarge := abs_log_ge (representable_value x) hpos hvalue
      have hbound := abs_log_real_le (least_le_real hx hpos)
      rw [hln]
      have htri := abs_sub_abs_le_abs_sub (toReal precision v) (Real.log (real x))
      norm_num at hclose
      obtain ⟨hfinite, hnear⟩ := ofFixed_near (v := v) (by norm_num; linarith)
      refine ⟨hfinite, ?_⟩
      have hsum := abs_sub_le (real (ofFixed v 0)) (toReal precision v) (Real.log (real x))
      norm_num at *
      linarith

end Logarithm

section Exponential

theorem two_zpow_eq (k : ℤ) (l : ℝ) :
    (2 : ℝ) ^ k = Real.exp (k * l) * Real.exp (k * (Real.log 2 - l)) := by
  rw [← Real.exp_add, ← mul_add, add_sub_cancel, ← Real.log_zpow, Real.exp_log (by positivity)]

theorem mul_exp_near {v ρ d : ℝ} (hv : |v - Real.exp ρ| ≤ 1 / 2 ^ 43) (hρ : 1 / 2 ≤ Real.exp ρ)
    (hd : |d| ≤ 1 / 2 ^ 100) : |v * Real.exp d - Real.exp ρ| ≤ 2 ^ (-40 : ℤ) * Real.exp ρ := by
  have hfactor := Real.abs_exp_sub_one_le (x := d) (hd.trans (by norm_num))
  have hbound : |v| ≤ 2 * Real.exp ρ := by
    have htri := abs_sub_abs_le_abs_sub v (Real.exp ρ)
    rw [abs_of_pos (Real.exp_pos ρ)] at htri
    norm_num at hv
    linarith
  calc |v * Real.exp d - Real.exp ρ| = |v * Real.exp d - Real.exp ρ * 1| := by rw [mul_one]
    _ ≤ |v| * |Real.exp d - 1| + |v - Real.exp ρ| * |1| := FixedPoint.abs_mul_sub_mul_le
    _ ≤ 2 * Real.exp ρ * (2 * (1 / 2 ^ 100)) + 1 / 2 ^ 43 * 1 := by
        rw [abs_one]
        gcongr
        exact hfactor.trans (by gcongr)
    _ ≤ 2 ^ (-40 : ℤ) * Real.exp ρ := by
        norm_num
        linarith

theorem rest_near {a : ℤ} (ha : |toReal precision a| ≤ 64) :
    let k := (a + lnTwo / 2) / lnTwo
    let l := toReal precision lnTwo
    toReal precision (a - k * lnTwo) = toReal precision a - k * l ∧
      |toReal precision a - k * l| ≤ 3 / 8 ∧ |(k : ℝ) * (Real.log 2 - l)| ≤ 1 / 2 ^ 100 := by
  intro k l
  have htwo := lnTwo_near
  have hlog := Real.log_two_gt_d9
  have hlog' := Real.log_two_lt_d9
  obtain ⟨hlow, hhigh⟩ := abs_le.mp htwo
  norm_num at hlow hhigh hlog hlog'
  have hl : 3 / 5 ≤ l ∧ l ≤ 3 / 4 := ⟨by linarith, by linarith⟩
  have hpos : 0 < lnTwo :=
    FixedPoint.pos_of_toReal_pos precision (lt_of_lt_of_le (by norm_num) hl.1)
  have hvalue : toReal precision (a - k * lnTwo) = toReal precision a - k * l := by
    rw [FixedPoint.toReal_sub, FixedPoint.toReal_mul]
  have hrest : |2 * (toReal precision a - k * l)| ≤ l := by
    rw [← hvalue]
    exact FixedPoint.rest_le precision a hpos
  rw [abs_mul, abs_two] at hrest
  have hk : |(k : ℝ)| ≤ 2 ^ 7 := by
    have hturn : |(k : ℝ) * l| ≤ 65 := by
      have htri := abs_sub_abs_le_abs_sub ((k : ℝ) * l) (toReal precision a)
      rw [abs_sub_comm] at htri
      linarith
    rw [abs_mul, abs_of_pos (by linarith : 0 < l)] at hturn
    have hhalf : |(k : ℝ)| * (3 / 5) ≤ |(k : ℝ)| * l :=
      mul_le_mul_of_nonneg_left hl.1 (abs_nonneg _)
    norm_num
    linarith
  refine ⟨hvalue, by linarith, ?_⟩
  rw [abs_mul, abs_sub_comm]
  exact (mul_le_mul hk htwo (abs_nonneg _) (by positivity)).trans (by norm_num)

theorem expFixed_near {a : ℤ} (ha : |toReal precision a| ≤ 64) :
    let k := (a + lnTwo / 2) / lnTwo
    let v := FixedPoint.exp precision 44 (a - k * lnTwo)
    1 / 2 ≤ toReal precision v ∧
      |toReal precision v * 2 ^ k - Real.exp (toReal precision a)| ≤
        2 ^ (-40 : ℤ) * Real.exp (toReal precision a) := by
  intro k v
  obtain ⟨hvalue, hrest, hdrift⟩ := rest_near ha
  set y := toReal precision a with hy
  set l := toReal precision lnTwo with hl
  set ρ := y - k * l with hρ
  have hseries : |toReal precision v - Real.exp ρ| ≤ 1 / 2 ^ 43 := by
    have h := FixedPoint.exp_near (p := precision) (n := 44) (x := a - k * lnTwo) (by norm_num)
      (by rwa [hvalue])
    rw [hvalue, ulp_precision] at h
    exact h.trans (by norm_num)
  have hexp : 1 / 2 + 1 / 2 ^ 43 ≤ Real.exp ρ := by
    have := Real.add_one_le_exp ρ
    have := neg_abs_le ρ
    norm_num
    linarith
  refine ⟨by linarith [neg_le_of_abs_le hseries], ?_⟩
  have hfactor := mul_exp_near hseries (by norm_num at hexp ⊢; linarith) hdrift
  have hpos := Real.exp_pos (k * l)
  have hsplit : Real.exp y = Real.exp ρ * Real.exp (k * l) := by
    rw [← Real.exp_add, hρ, sub_add_cancel]
  have hscale : toReal precision v * 2 ^ k - Real.exp y =
      (toReal precision v * Real.exp (k * (Real.log 2 - l)) - Real.exp ρ) * Real.exp (k * l) := by
    rw [hsplit, two_zpow_eq k l]
    ring
  rw [hscale, abs_mul, abs_of_pos hpos, hsplit, ← mul_assoc]
  exact mul_le_mul_of_nonneg_right hfactor hpos.le

variable {x : Float32} {y : ℝ}

theorem exp_bounds (hy : |y| ≤ 64) : 2 ^ (-102 : ℤ) ≤ Real.exp y ∧ Real.exp y ≤ 2 ^ 102 := by
  have hlarge : Real.exp 64 ≤ 2 ^ 102 := by
    have hone := Real.exp_one_lt_d9
    calc Real.exp 64 = Real.exp 1 ^ 64 := by
          rw [← Real.exp_nat_mul]
          norm_num
      _ ≤ 3 ^ 64 := pow_le_pow_left₀ (Real.exp_pos 1).le (by linarith) 64
      _ ≤ 2 ^ 102 := by norm_num
  obtain ⟨hlow, hhigh⟩ := abs_le.mp hy
  constructor
  · rw [show (-102 : ℤ) = -(102 : ℕ) by norm_num, zpow_neg, zpow_natCast]
    refine (inv_anti₀ (Real.exp_pos 64) hlarge).trans ?_
    rw [← Real.exp_neg]
    exact Real.exp_le_exp.mpr hlow
  · exact (Real.exp_le_exp.mpr hhigh).trans hlarge

theorem ofFixed_scaled_near {v k : ℤ} (hv : 1 / 2 ≤ toReal precision v)
    (hlow : 2 ^ (-103 : ℤ) ≤ toReal precision v * 2 ^ k)
    (hhigh : toReal precision v * 2 ^ k ≤ 2 ^ 103) :
    (ofFixed v k).isFinite = true ∧ |real (ofFixed v k) - toReal precision v * 2 ^ k| ≤
      2 ^ (-21 : ℤ) * (toReal precision v * 2 ^ k) := by
  have hreal : (2 : ℝ) ^ 191 ≤ v := by
    rw [FixedPoint.toReal, le_div_iff₀ (by positivity)] at hv
    refine le_trans (le_of_eq ?_) hv
    norm_num
  have hv₀ : 2 ^ 191 ≤ v := by exact_mod_cast hreal
  obtain ⟨q, hround, hclose⟩ := rounded_ofFixed (v := v) (e := k) (.inr (by omega))
  have hcast := Rat.cast_le (K := ℝ).mpr hclose
  push_cast at hcast
  have hscale : toReal precision v * 2 ^ k = v * 2 ^ (k - 192) := by
    rw [FixedPoint.toReal, zpow_sub₀ two_ne_zero]
    norm_num
    ring
  have hunit : (0 : ℝ) < 2 ^ (k - 192) := by positivity
  have hv₁ : (0 : ℝ) < v := lt_of_lt_of_le (by positivity) hreal
  rw [abs_of_pos hv₁, add_mul, ← hscale] at hcast
  have hrest : (2 : ℝ) ^ 63 * 2 ^ (k - 192) ≤ toReal precision v * 2 ^ k := by
    rw [hscale]
    refine mul_le_mul_of_nonneg_right (le_trans ?_ hreal) hunit.le
    norm_num
  set w := toReal precision v * 2 ^ k with hw
  have hnext : |(q : ℝ) - w| ≤ 2 ^ (-60 : ℤ) * w := by
    norm_num at hcast hrest ⊢
    linarith
  obtain ⟨hnext₁, hnext₂⟩ := abs_le.mp hnext
  norm_num at hnext₁ hnext₂ hlow hhigh
  have hq : 0 < (q : ℝ) := by linarith
  have hmax : |q| ≤ maxValue := by
    rw [abs_of_pos (by exact_mod_cast hq)]
    have hcast : (q : ℝ) ≤ ((2 ^ 104 : ℚ) : ℝ) := by
      push_cast
      norm_num
      linarith
    exact (Rat.cast_le.mp hcast).trans (by norm_num [maxValue])
  obtain ⟨hfinite, hnear⟩ := hround.real_near hmax
  refine ⟨hfinite, ?_⟩
  rw [abs_of_pos hq] at hnear
  have htri := abs_sub_le (real (ofFixed v k)) q w
  norm_num at hnear hnext ⊢
  linarith

theorem exp_near (hx : x.isFinite = true) (hbound : |real x| ≤ 64) :
    (exp x).isFinite = true ∧
      |real (exp x) - Real.exp (real x)| ≤ 2 ^ (-20 : ℤ) * Real.exp (real x) := by
  rcases finite_cases hx with ⟨s, hp⟩ | ⟨s, m, e, h, hp, hc, -⟩
  · have hexp : exp x = 1 := by simp only [exp, hp]
    obtain ⟨hfinite, hone⟩ := value_one
    rw [hexp, one_eq_ofBits, real, real, hone, value_of_zero hp, Rat.cast_one, Rat.cast_zero,
      Real.exp_zero]
    exact ⟨hfinite, by norm_num⟩
  · have hlog : ¬ 7 ≤ (m.log2 : ℤ) + e := fun hlog ↦ by
      have hseven : (2 : ℝ) ^ (7 : ℤ) ≤ 64 :=
        (zpow_le_zpow_right₀ one_le_two hlog).trans ((le_abs_real hp).trans hbound)
      norm_num at hseven
    have hvalue : toReal precision (toFixed precision s m e) = real x := by
      rw [toReal_toFixed (by have := hc.le; push_cast; omega), real, value_of_finite hp]
    obtain ⟨hv, hclose⟩ := expFixed_near (hvalue ▸ hbound)
    rw [hvalue] at hclose
    obtain ⟨v, k, hexp, hv, hclose⟩ : ∃ v k, exp x = ofFixed v k ∧ 1 / 2 ≤ toReal precision v ∧
        |toReal precision v * 2 ^ k - Real.exp (real x)| ≤ 2 ^ (-40 : ℤ) * Real.exp (real x) :=
      ⟨_, _, by simp only [exp, hp, hlog, if_false], hv, hclose⟩
    obtain ⟨hlow, hhigh⟩ := exp_bounds hbound
    obtain ⟨hclose₁, hclose₂⟩ := abs_le.mp hclose
    norm_num at hclose₁ hclose₂ hlow hhigh
    obtain ⟨hfinite, hnear⟩ := ofFixed_scaled_near (k := k) hv (by norm_num; linarith)
      (by norm_num; linarith)
    rw [hexp]
    refine ⟨hfinite, ?_⟩
    have htri := abs_sub_le (real (ofFixed v k)) (toReal precision v * 2 ^ k) (Real.exp (real x))
    norm_num at *
    linarith

end Exponential

end BranchStream.Binary32
