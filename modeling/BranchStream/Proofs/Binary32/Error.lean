import BranchStream.Proofs.Binary32.Sign

namespace BranchStream.Binary32

open Float.Model (Format UnpackedFloat)
open Float.Model.UnpackedFloat
open ExtendedMantissa

variable {p q v w : ℚ}

/-- No representable number is nearer to `q` than `v` is. -/
def Nearest (q v : ℚ) : Prop := ∀ y, Representable y → |v - q| ≤ |y - q|

theorem Nearest.refl (q : ℚ) : Nearest q q := fun y _ ↦ by
  rw [sub_self, abs_zero]
  exact abs_nonneg _

theorem Nearest.neg (h : Nearest q v) : Nearest (-q) (-v) := by
  intro y hy
  have hback := h (-y) hy.neg
  rw [← neg_sub', abs_neg]
  rwa [← neg_add', abs_neg, ← sub_neg_eq_add] at hback

theorem Nearest.signed (h : Nearest q v) (s : Sign) : Nearest (signed s q) (signed s v) := by
  cases s with
  | positive => exact h
  | negative => exact h.neg

theorem Nearest.le_of_lt (h : Nearest p v) (h' : Nearest q w) (hv : Representable v)
    (hw : Representable w) (hpq : p < q) : v ≤ w := by
  by_contra hlt
  -- the middle between the two would lie below `p` and above `q`
  have hp : (v - w) * (v + w - 2 * p) ≤ 0 := by linarith [sq_le_sq.mpr (h w hw)]
  have hq : 0 ≤ (v - w) * (v + w - 2 * q) := by linarith [sq_le_sq.mpr (h' v hv)]
  have hgap : 0 < v - w := by linarith
  linarith [nonpos_of_mul_nonpos_right hp hgap, nonneg_of_mul_nonneg_right hq hgap]

theorem abs_le_of_cast {n : ℤ} (h : -((2 ^ 24 : ℤ) : ℚ) ≤ n ∧ (n : ℚ) ≤ (2 ^ 24 : ℤ)) :
    |n| ≤ 2 ^ 24 := by
  rw [abs_le]
  exact_mod_cast h

theorem exists_neighbours (q : ℚ) : ∃ y z, Representable y ∧ Representable z ∧ y ≤ q ∧ q ≤ z ∧
    z - y ≤ 2 ^ (-23 : ℤ) * |q| + 2 ^ (-149 : ℤ) := by
  rcases eq_or_ne q 0 with rfl | hq
  · exact ⟨0, 0, representable_zero, representable_zero, le_rfl, le_rfl, by norm_num⟩
  set e := max (Int.log 2 |q| - 23) (-149) with he
  have hpos : (0 : ℚ) < 2 ^ e := by positivity
  have hbound : |q / 2 ^ e| ≤ (2 ^ 24 : ℤ) := by
    rw [abs_div, abs_of_pos hpos, div_le_iff₀ hpos]
    calc |q| ≤ (2 : ℕ) ^ (Int.log 2 |q| + 1) :=
          (Int.lt_zpow_succ_log_self one_lt_two |q|).le
      _ ≤ 2 ^ (24 + e) := by
          rw [Nat.cast_ofNat]
          exact zpow_le_zpow_right₀ one_le_two (by omega)
      _ = (2 ^ 24 : ℤ) * 2 ^ e := by
          rw [zpow_add₀ two_ne_zero]
          norm_num
  obtain ⟨hlow, hhigh⟩ := abs_le.mp hbound
  have hfloor := Int.floor_le (q / 2 ^ e)
  have hceil := Int.le_ceil (q / 2 ^ e)
  have hfloor' : -(2 ^ 24 : ℤ) ≤ ⌊q / 2 ^ e⌋ := Int.le_floor.mpr (by exact_mod_cast hlow)
  have hceil' : ⌈q / 2 ^ e⌉ ≤ (2 ^ 24 : ℤ) := Int.ceil_le.mpr hhigh
  refine ⟨⌊q / 2 ^ e⌋ * 2 ^ e, ⌈q / 2 ^ e⌉ * 2 ^ e,
    ⟨_, e, abs_le_of_cast ⟨by exact_mod_cast hfloor', hfloor.trans hhigh⟩, le_max_right _ _, rfl⟩,
    ⟨_, e, abs_le_of_cast ⟨hlow.trans hceil, by exact_mod_cast hceil'⟩, le_max_right _ _, rfl⟩,
    (le_div_iff₀ hpos).mp hfloor, (div_le_iff₀ hpos).mp hceil, ?_⟩
  have hgap : (⌈q / 2 ^ e⌉ : ℚ) - ⌊q / 2 ^ e⌋ ≤ 1 := by
    have := Int.ceil_le_floor_add_one (q / 2 ^ e)
    rw [sub_le_iff_le_add']
    exact_mod_cast this
  calc (⌈q / 2 ^ e⌉ : ℚ) * 2 ^ e - ⌊q / 2 ^ e⌋ * 2 ^ e ≤ 1 * 2 ^ e := by
        rw [← sub_mul]
        gcongr
    _ ≤ 2 ^ (-23 : ℤ) * |q| + 2 ^ (-149 : ℤ) := by
        rw [one_mul]
        rcases max_cases (Int.log 2 |q| - 23) (-149) with ⟨h, -⟩ | ⟨h, -⟩
        · have hlog := Int.zpow_log_le_self one_lt_two (abs_pos.mpr hq)
          rw [he, h, sub_eq_neg_add, zpow_add₀ two_ne_zero]
          push_cast at hlog
          have : (0 : ℚ) ≤ 2 ^ (-149 : ℤ) := by positivity
          have := mul_le_mul_of_nonneg_left hlog (by positivity : (0 : ℚ) ≤ 2 ^ (-23 : ℤ))
          linarith
        · rw [he, h]
          exact le_add_of_nonneg_left (by positivity)

theorem RoundsTo.abs_sub_le (h : RoundsTo q v) :
    |v - q| ≤ 2 ^ (-23 : ℤ) * |q| + 2 ^ (-149 : ℤ) := by
  obtain ⟨y, z, hy, hz, hyq, hqz, hgap⟩ := exists_neighbours q
  have hlow := (h y hy).2 hyq
  have hhigh := (h z hz).1 hqz
  rw [abs_le]
  constructor <;> linarith

theorem Nearest.abs_sub_le (h : Nearest q v) :
    |v - q| ≤ 2 ^ (-24 : ℤ) * |q| + 2 ^ (-150 : ℤ) := by
  obtain ⟨y, z, hy, hz, hyq, hqz, hgap⟩ := exists_neighbours q
  have hlow := h y hy
  have hhigh := h z hz
  rw [abs_of_nonpos (by linarith : y - q ≤ 0)] at hlow
  rw [abs_of_nonneg (by linarith : 0 ≤ z - q)] at hhigh
  calc |v - q| ≤ (z - y) / 2 := by linarith
    _ ≤ (2 ^ (-23 : ℤ) * |q| + 2 ^ (-149 : ℤ)) / 2 := by gcongr
    _ = 2 ^ (-24 : ℤ) * |q| + 2 ^ (-150 : ℤ) := by norm_num; ring

theorem nearest_of_half {m r : ℕ} {e : ℤ} (hm : 2 ^ 23 ≤ m ∨ e = -149) (hle : m * 2 ^ e ≤ q)
    (hlt : q ≤ (m + 1) * 2 ^ e) (hr : r = m ∨ r = m + 1) (hhalf : 2 * |r * 2 ^ e - q| ≤ 2 ^ e) :
    Nearest q (r * 2 ^ e) := by
  intro y hy
  have hpos : (0 : ℚ) < 2 ^ e := by positivity
  rcases hy.le_or_le hm with h | h
  · rw [abs_of_nonpos (by linarith : y - q ≤ 0)]
    rcases hr with rfl | rfl
    · rw [abs_of_nonpos (by linarith)]
      linarith
    · push_cast at hhalf ⊢
      rw [abs_of_nonneg (by linarith)] at hhalf ⊢
      linarith
  · rw [abs_of_nonneg (by linarith : 0 ≤ y - q)]
    rcases hr with rfl | rfl
    · rw [abs_of_nonpos (by linarith)] at hhalf ⊢
      linarith
    · push_cast
      rw [abs_of_nonneg (by linarith)]
      linarith

theorem roundedMantissa_shiftRightOne (em : ExtendedMantissa) :
    let r := (shiftRightOne em).roundedMantissa
    2 * r = em.mantissa ∨ 2 * r = em.mantissa + 1 ∨ Exact em ∧ 2 * r + 1 = em.mantissa := by
  obtain ⟨m, b, t⟩ := em
  rcases Nat.mod_two_eq_zero_or_one m with h | h <;> cases b <;> cases t <;>
    simp [shiftRightOne, roundedMantissa, accuracy, Accuracy.roundToNearestEven, Exact, h] <;> omega

theorem roundedMantissa_shiftRight (m k : ℕ) :
    let r := (ofMantissaAndAccuracy m .exact >>> k).roundedMantissa
    2 * (r * 2 ^ k) ≤ 2 * m + 2 ^ k ∧ 2 * m ≤ 2 * (r * 2 ^ k) + 2 ^ k := by
  intro r
  cases k with
  | zero =>
    have hr : r = m := rfl
    rw [hr]
    constructor <;> omega
  | succ k =>
    set em := ofMantissaAndAccuracy m .exact >>> k with hem
    have hmantissa : em.mantissa = m / 2 ^ k := by
      rw [hem, mantissa_shiftRight, mantissa_ofMantissaAndAccuracy]
    have hexact : Exact em ↔ m % 2 ^ k = 0 := by
      rw [hem, exact_shiftRight_iff, exact_ofMantissaAndAccuracy_iff,
        mantissa_ofMantissaAndAccuracy, and_iff_right rfl, Nat.dvd_iff_mod_eq_zero]
    have hdiv := Nat.div_add_mod m (2 ^ k)
    have hmod := Nat.mod_lt m (show 0 < 2 ^ k by positivity)
    have hdouble : 2 * (r * 2 ^ (k + 1)) = 2 ^ k * (2 * r) * 2 := by ring
    have hcases : 2 * r = m / 2 ^ k ∨ 2 * r = m / 2 ^ k + 1 ∨
        m % 2 ^ k = 0 ∧ 2 * r + 1 = m / 2 ^ k := by
      rw [← hexact, ← hmantissa]
      exact roundedMantissa_shiftRightOne em
    rw [hdouble, pow_succ]
    rcases hcases with h | h | ⟨hzero, h⟩
    · rw [h]
      constructor <;> omega
    · rw [h, mul_add, mul_one]
      constructor <;> omega
    · rw [← h, mul_add, mul_one] at hdiv
      constructor <;> omega

/-- A number whose significand is known exactly is rounded to a nearest one. -/
theorem nearest_roundWithAccuracy {m : ℕ} {e : ℤ} (s : Sign)
    (he : e ≤ max (m.log2 + e - 23) (-149)) :
    Nearest (signed s (m * 2 ^ e)) (toRat (roundWithAccuracy .binary32 s m e .exact)) := by
  obtain ⟨k, hk⟩ := Int.le.dest he
  have hfirst := shiftToTargetExponent_eq m e .exact
  have hshift : (max ((m.log2 : ℤ) + e - 23) (-149) - e).toNat = k := by omega
  rw [hshift] at hfirst
  have hhalf := roundedMantissa_shiftRight m k
  set em := ofMantissaAndAccuracy m .exact >>> k with hem
  have hmantissa : em.mantissa = m / 2 ^ k := by
    rw [hem, mantissa_shiftRight, mantissa_ofMantissaAndAccuracy]
  obtain ⟨hsmall, hnormal⟩ := cut_fits hk
  obtain ⟨hcases, -⟩ := roundedMantissa_cases em
  rw [hmantissa] at hcases
  have hr : em.roundedMantissa ≤ 2 ^ 24 := by omega
  rw [roundWithAccuracy_eq hfirst hr (by omega), toRat_carried hr]
  refine Nearest.signed ?_ s
  refine nearest_of_half hnormal (cut_le m e k) ((?_ : _ ≤ ((m : ℚ) + 1) * 2 ^ e).trans
    (le_cut m e k)) hcases ?_
  · gcongr
    exact le_add_of_nonneg_right zero_le_one
  · obtain ⟨hhigh, hlow⟩ := hhalf
    have hhigh' : (2 : ℚ) * (em.roundedMantissa * 2 ^ k) ≤ 2 * m + 2 ^ k := by exact_mod_cast hhigh
    have hlow' : (2 : ℚ) * m ≤ 2 * (em.roundedMantissa * 2 ^ k) + 2 ^ k := by exact_mod_cast hlow
    have hscaled : |(em.roundedMantissa : ℚ) * 2 ^ k - m| ≤ 2 ^ k / 2 := by
      rw [abs_le]
      constructor <;> linarith
    have hunit : (2 : ℚ) ^ (e + k) = 2 ^ k * 2 ^ e := by
      rw [zpow_add₀ two_ne_zero, zpow_natCast, mul_comm]
    calc 2 * |(em.roundedMantissa : ℚ) * 2 ^ (e + k) - m * 2 ^ e|
        = 2 * |(em.roundedMantissa : ℚ) * 2 ^ k - m| * 2 ^ e := by
          rw [hunit, ← mul_assoc, ← sub_mul, abs_mul, abs_of_pos (by positivity : (0 : ℚ) < 2 ^ e),
            mul_assoc]
      _ ≤ 2 * (2 ^ k / 2) * 2 ^ e := by gcongr
      _ = 2 ^ (e + k) := by rw [hunit]; ring

theorem nearest_round (s : Sign) (m : ℕ) (e : ℤ) :
    Nearest (signed s (m * 2 ^ e)) (toRat (UnpackedFloat.round .binary32 s m e)) := by
  rw [UnpackedFloat.round, targetExponent_eq]
  simp only [decreaseExponent]
  by_cases hz : m = 0
  · subst hz
    rw [Nat.zero_shiftLeft, roundWithAccuracy_zero, Nat.cast_zero, zero_mul, signed_zero]
    exact .refl 0
  · set k := (e - max ((m.log2 : ℤ) + e - 23) (-149)).toNat with hk
    have hscale : ((m <<< k : ℕ) : ℚ) * 2 ^ (e - k) = m * 2 ^ e := by
      have := scaled_shiftLeft (m := m) (e := e) (g := e - k) (by omega)
      rwa [sub_sub_cancel, Int.toNat_natCast] at this
    rw [← hscale]
    refine nearest_roundWithAccuracy s ?_
    rw [log2_shiftLeft hz]
    omega

theorem nearest_normalize (n e : ℤ) (s : Sign) :
    Nearest (n * 2 ^ e) (toRat (UnpackedFloat.normalize .binary32 n e s)) := by
  rw [UnpackedFloat.normalize]
  rcases lt_trichotomy n 0 with hn | rfl | hn
  · have h := nearest_round .negative (-n).toNat e
    have hnat : (((-n).toNat : ℕ) : ℚ) = -n := by
      rw [← Int.cast_natCast, Int.toNat_of_nonneg (by omega), Int.cast_neg]
    rw [signed, hnat, neg_mul, neg_neg] at h
    rwa [compare_lt_iff_lt.mpr hn]
  · rw [compare_eq_iff_eq.mpr rfl, Int.cast_zero, zero_mul]
    exact .refl 0
  · have h := nearest_round .positive n.toNat e
    have hnat : ((n.toNat : ℕ) : ℚ) = n := by
      rw [← Int.cast_natCast, Int.toNat_of_nonneg hn.le]
    rw [signed, hnat] at h
    rwa [compare_gt_iff_gt.mpr hn]

variable {x y z : Float32}

theorem nearest_add (hx : x.isFinite = true) (hy : y.isFinite = true) :
    Nearest (value x + value y) (toRat (UnpackedFloat.add .binary32 (parts x) (parts y))) := by
  rcases finite_cases hx with ⟨s, hp⟩ | ⟨s, m, e, h, hp, -⟩
  · rw [value_of_zero hp, zero_add, hp]
    rcases finite_cases hy with ⟨s', hp'⟩ | ⟨s', m', e', h', hp', -⟩
    · rw [hp', value_of_zero hp']
      cases s <;> cases s' <;> exact .refl 0
    · rw [value_of_finite hp', hp']
      exact .refl _
  · rcases finite_cases hy with ⟨s', hp'⟩ | ⟨s', m', e', h', hp', -⟩
    · rw [value_of_zero hp', add_zero, hp', value_of_finite hp, hp]
      exact .refl _
    · rw [value_of_finite hp, value_of_finite hp', hp, hp', ← scaled_shiftLeft (min_le_left e e'),
        ← scaled_shiftLeft (min_le_right e e'), signed_scaled, signed_scaled, ← add_mul,
        ← Int.cast_add]
      exact nearest_normalize _ _ _

theorem nearest_mul (hx : x.isFinite = true) (hy : y.isFinite = true) :
    Nearest (value x * value y) (toRat (UnpackedFloat.mul .binary32 (parts x) (parts y))) := by
  rcases finite_cases hx with ⟨s, hp⟩ | ⟨s, m, e, h, hp, hc, -⟩
  · rw [value_of_zero hp, zero_mul, hp]
    rcases finite_cases hy with ⟨s', hp'⟩ | ⟨s', n, f, h', hp', -⟩ <;> rw [hp'] <;> exact .refl 0
  · rw [value_of_finite hp, hp]
    rcases finite_cases hy with ⟨s', hp'⟩ | ⟨s', n, f, h', hp', hc', -⟩
    · rw [value_of_zero hp', mul_zero, hp']
      exact .refl 0
    · have hscale : (m : ℚ) * 2 ^ e * (n * 2 ^ f) = ((m * n : ℕ) : ℚ) * 2 ^ (e + f) := by
        rw [zpow_add₀ two_ne_zero]
        push_cast
        ring
      rw [value_of_finite hp', hp', signed_mul, hscale]
      refine nearest_roundWithAccuracy _ ?_
      rcases hc.normal with hm | he
      · have hlog : 23 ≤ (m * n).log2 :=
          (Nat.le_log2 (by positivity)).mpr (hm.trans (Nat.le_mul_of_pos_right m h'))
        omega
      · rcases hc'.normal with hn | hf
        · have hlog : 23 ≤ (m * n).log2 :=
            (Nat.le_log2 (by positivity)).mpr (hn.trans (Nat.le_mul_of_pos_left n h))
          omega
        · omega

theorem Near.settled_cases {u : UnpackedFloat} (h : Near q u) :
    (settled u = u ∧ |toRat u| ≤ maxValue) ∨ (settled u).isFinite = false ∧ maxValue < |toRat u| := by
  obtain ⟨hsound, hfinite, -⟩ := h
  cases u with
  | notANumber => cases hfinite
  | infinity s => cases hfinite
  | zero s => exact .inl ⟨rfl, by simpa [toRat] using maxValue_nonneg⟩
  | finite s m e h =>
    have habs : |toRat (.finite s m e h)| = m * 2 ^ e := abs_signed s (by positivity)
    rw [habs, settled]
    split_ifs with he
    · exact .inr ⟨rfl, maxValue_lt_scaled (hsound.normal.resolve_right (by omega)) he⟩
    · refine .inl ⟨rfl, ?_⟩
      have hm : (m : ℚ) ≤ 2 ^ 24 - 1 := by
        rw [le_sub_iff_add_le]
        exact_mod_cast hsound.lt
      calc (m : ℚ) * 2 ^ e ≤ (2 ^ 24 - 1) * 2 ^ (104 : ℤ) :=
            mul_le_mul hm (zpow_le_zpow_right₀ one_le_two (not_lt.mp he)) (by positivity)
              (by norm_num)
        _ = maxValue := by norm_num [maxValue]

theorem Near.isFinite_iff {u : UnpackedFloat} (h : Near q u) :
    (Float32.ofModel (.pack u)).isFinite = true ↔ |toRat u| ≤ maxValue := by
  have hparts := isFinite_of_parts (unpack_ofModel_pack h.sound)
  rw [hparts]
  rcases h.settled_cases with ⟨hsettled, hle⟩ | ⟨hinfinite, hlt⟩
  · rw [hsettled, h.isFinite]
    exact iff_of_true rfl hle
  · rw [hinfinite]
    exact iff_of_false Bool.false_ne_true (not_le.mpr hlt)

theorem Near.value_eq {u : UnpackedFloat} (h : Near q u)
    (hfinite : (Float32.ofModel (.pack u)).isFinite = true) :
    value (Float32.ofModel (.pack u)) = toRat u := by
  have hle := h.isFinite_iff.mp hfinite
  have hparts : parts (Float32.ofModel (.pack u)) = settled u := unpack_ofModel_pack h.sound
  rw [value, hparts]
  rcases h.settled_cases with ⟨hsettled, -⟩ | ⟨-, hlt⟩
  · rw [hsettled]
  · exact absurd hle (not_le.mpr hlt)

theorem Near.representable {u : UnpackedFloat} (h : Near q u) : Representable (toRat u) := by
  obtain ⟨hsound, -, -⟩ := h
  cases u with
  | finite s m e h =>
    have hscaled := representable_scaled hsound.lt.le hsound.le
    cases s with
    | positive => exact hscaled
    | negative => exact hscaled.neg
  | _ => exact representable_zero

theorem value_mul_near (hx : x.isFinite = true) (hy : y.isFinite = true)
    (h : (x * y).isFinite = true) :
    |value (x * y) - value x * value y| ≤
      2 ^ (-24 : ℤ) * |value x * value y| + 2 ^ (-150 : ℤ) := by
  have hvalue : value (x * y) = toRat _ := (near_product hx hy).value_eq h
  rw [hvalue]
  exact (nearest_mul hx hy).abs_sub_le

theorem Representable.exists_whole (hq : Representable q) : ∃ n : ℤ, q = n * 2 ^ (-149 : ℤ) := by
  obtain ⟨n, e, -, he, rfl⟩ := hq
  obtain ⟨k, rfl⟩ := Int.le.dest he
  refine ⟨n * 2 ^ k, ?_⟩
  push_cast
  rw [zpow_add₀ two_ne_zero, zpow_natCast]
  ring

theorem Representable.add (hp : Representable p) (hq : Representable q)
    (h : |p + q| ≤ 2 ^ (-125 : ℤ)) : Representable (p + q) := by
  obtain ⟨m, rfl⟩ := hp.exists_whole
  obtain ⟨n, rfl⟩ := hq.exists_whole
  refine ⟨m + n, -149, ?_, le_rfl, by push_cast; ring⟩
  have hpos : (0 : ℚ) < 2 ^ (-149 : ℤ) := by positivity
  have hscale : (2 : ℚ) ^ (-125 : ℤ) = 2 ^ 24 * 2 ^ (-149 : ℤ) := by norm_num
  rw [← add_mul, abs_mul, abs_of_pos hpos, hscale, mul_le_mul_iff_left₀ hpos] at h
  exact_mod_cast h

theorem value_add_near (hx : x.isFinite = true) (hy : y.isFinite = true)
    (h : (x + y).isFinite = true) :
    |value (x + y) - (value x + value y)| ≤ 2 ^ (-23 : ℤ) * |value x + value y| := by
  have hvalue : value (x + y) = toRat _ := (near_sum hx hy).value_eq h
  rw [hvalue]
  rcases le_or_gt |value x + value y| (2 ^ (-125 : ℤ)) with hsmall | hlarge
  · rw [(near_sum hx hy).roundsTo.eq_of_representable
      ((representable_value x).add (representable_value y) hsmall), sub_self, abs_zero]
    positivity
  · calc _ ≤ 2 ^ (-24 : ℤ) * |value x + value y| + 2 ^ (-150 : ℤ) :=
          (nearest_add hx hy).abs_sub_le
      _ ≤ 2 ^ (-24 : ℤ) * |value x + value y| + 2 ^ (-25 : ℤ) * |value x + value y| := by
          have : (2 : ℚ) ^ (-150 : ℤ) = 2 ^ (-25 : ℤ) * 2 ^ (-125 : ℤ) := by norm_num
          rw [this]
          gcongr
      _ ≤ 2 ^ (-23 : ℤ) * |value x + value y| := by
          rw [← add_mul]
          gcongr
          norm_num

theorem isFinite_of_add (h : (x + y).isFinite = true) :
    x.isFinite = true ∧ y.isFinite = true := by
  have hsum (u : UnpackedFloat) (hu : Sound u) (hu' : u.isFinite = false)
      (heq : UnpackedFloat.add .binary32 (parts x) (parts y) = u) : False := by
    have hparts : parts (x + y) = settled u := by
      rw [add_eq, heq]
      exact unpack_ofModel_pack hu
    rw [isFinite_of_parts hparts] at h
    cases u with
    | finite s m e hm => cases hu'
    | zero s => cases hu'
    | _ => cases h
  cases hx : x.isFinite with
  | true =>
    refine ⟨rfl, ?_⟩
    by_contra hy
    rcases special_cases (Bool.not_eq_true _ ▸ hy) with ⟨s, hp⟩ | hp
    · rcases finite_cases hx with ⟨s', hp'⟩ | ⟨s', m, e, hm, hp', -⟩ <;>
        exact hsum (.infinity s) trivial rfl (by rw [hp, hp']; rfl)
    · rcases finite_cases hx with ⟨s', hp'⟩ | ⟨s', m, e, hm, hp', -⟩ <;>
        exact hsum .notANumber trivial rfl (by rw [hp, hp']; rfl)
  | false =>
    exfalso
    rcases special_cases hx with ⟨s, hp⟩ | hp
    · cases hp' : parts y with
      | notANumber => exact hsum .notANumber trivial rfl (by rw [hp, hp']; rfl)
      | infinity s' =>
        by_cases hs : s = s'
        · exact hsum (.infinity s) trivial rfl (by rw [hp, hp']; exact if_pos (by simp [hs]))
        · exact hsum .notANumber trivial rfl (by rw [hp, hp']; exact if_neg (by simp [hs]))
      | _ => exact hsum (.infinity s) trivial rfl (by rw [hp, hp']; rfl)
    · exact hsum .notANumber trivial rfl (by rw [hp]; rfl)

theorem isFinite_add_of_le (hx : x.isFinite = true) (hy : y.isFinite = true)
    (hz : z.isFinite = true) (hxy : value x ≤ value y) (hpos : 0 ≤ value x + value z)
    (h : (y + z).isFinite = true) : (x + z).isFinite = true ∧ value (x + z) ≤ value (y + z) := by
  have hnear := near_sum hx hz
  have hnear' := near_sum hy hz
  have hvalue' : value (y + z) = toRat _ := hnear'.value_eq h
  have hle : toRat (UnpackedFloat.add .binary32 (parts x) (parts z)) ≤ value (y + z) := by
    rcases hxy.lt_or_eq with hlt | heq
    · rw [hvalue']
      exact (nearest_add hx hz).le_of_lt (nearest_add hy hz) hnear.representable
        hnear'.representable (by linarith)
    · -- equal summands are the same number, or both vanish
      rw [hvalue']
      rcases eq_or_ne (value x) 0 with hzero | hzero
      · have hback {w : Float32} (hw : w.isFinite = true) (hw' : value w = 0) :
            toRat (UnpackedFloat.add .binary32 (parts w) (parts z)) = value z := by
          have hround := (near_sum hw hz).roundsTo
          rw [hw', zero_add] at hround
          exact hround.eq_of_representable (representable_value z)
        rw [hback hx hzero, hback hy (heq ▸ hzero)]
      · rw [eq_of_value_eq hx hy heq hzero]
  have hfinite : (x + z).isFinite = true := by
    refine hnear.isFinite_iff.mpr ?_
    rw [abs_of_nonneg ((hnear.roundsTo 0 representable_zero).2 hpos)]
    exact hle.trans ((le_abs_self _).trans (abs_value_le _))
  have hvalue : value (x + z) = toRat _ := hnear.value_eq hfinite
  exact ⟨hfinite, hvalue ▸ hle⟩

abbrev real (x : Float32) : ℝ := (value x : ℝ)

theorem Rounded.real_near {q : ℚ} (h : Rounded q x) (hq : |q| ≤ maxValue) :
    x.isFinite = true ∧ |real x - q| ≤ 2 ^ (-23 : ℤ) * |(q : ℝ)| + 2 ^ (-149 : ℤ) := by
  obtain ⟨hx, hround⟩ := h.finite_of_le hq
  refine ⟨hx, ?_⟩
  have hcast := Rat.cast_le (K := ℝ).mpr hround.abs_sub_le
  push_cast at hcast
  exact hcast

theorem abs_real_le (x : Float32) : |real x| ≤ 2 ^ 128 := by
  have hle : |value x| ≤ 2 ^ 128 := (abs_value_le x).trans (by norm_num [maxValue])
  exact_mod_cast hle

theorem abs_real_of_parts {s : Sign} {m : ℕ} {e : ℤ} {h : 0 < m} (hp : parts x = .finite s m e h) :
    |real x| = m * 2 ^ e := by
  have hvalue : |value x| = m * 2 ^ e := by
    rw [value_of_finite hp, abs_signed s (by positivity)]
  rw [real, ← Rat.cast_abs, hvalue]
  push_cast
  rfl

theorem abs_real_lt {s : Sign} {m : ℕ} {e : ℤ} {h : 0 < m} (hp : parts x = .finite s m e h) :
    |real x| < 2 ^ (m.log2 + e + 1) := by
  have hm : (m : ℝ) < 2 ^ (m.log2 + 1) := by exact_mod_cast Nat.lt_log2_self
  rw [abs_real_of_parts hp, add_right_comm, zpow_add₀ two_ne_zero, ← Nat.cast_succ, zpow_natCast]
  gcongr

theorem le_abs_real {s : Sign} {m : ℕ} {e : ℤ} {h : 0 < m} (hp : parts x = .finite s m e h) :
    2 ^ (m.log2 + e) ≤ |real x| := by
  have hm : (2 : ℝ) ^ m.log2 ≤ m := by exact_mod_cast Nat.log2_self_le h.ne'
  rw [abs_real_of_parts hp, zpow_add₀ two_ne_zero, zpow_natCast]
  gcongr

theorem least_le_real (hx : x.isFinite = true) (hpos : 0 < value x) : 2 ^ (-149 : ℤ) ≤ real x := by
  rcases nonneg_cases hx hpos.le with ⟨s, hp⟩ | ⟨m, e, h, hp, hc⟩
  · exact absurd (value_of_zero hp) hpos.ne'
  · have hm : (1 : ℝ) ≤ m := by exact_mod_cast h
    have habs := abs_real_of_parts hp
    rw [abs_of_pos (by exact_mod_cast hpos)] at habs
    rw [habs, ← one_mul (2 ^ (-149 : ℤ))]
    gcongr
    · exact one_le_two
    · exact hc.le

theorem abs_le_maxValue {q : ℚ} (h : |(q : ℝ)| ≤ 2 ^ 127) : |q| ≤ maxValue := by
  have hcast : ((|q| : ℚ) : ℝ) ≤ ((2 ^ 127 : ℚ) : ℝ) := by
    push_cast
    exact h
  exact (Rat.cast_le.mp hcast).trans (by norm_num [maxValue])

theorem real_mul_near (hx : x.isFinite = true) (hy : y.isFinite = true)
    (h : |real x * real y| ≤ 2 ^ 127) : (x * y).isFinite = true ∧
      |real (x * y) - real x * real y| ≤
        2 ^ (-23 : ℤ) * |real x * real y| + 2 ^ (-149 : ℤ) := by
  have hnear := (rounded_mul hx hy).real_near (abs_le_maxValue (by push_cast; exact h))
  push_cast at hnear
  exact hnear

theorem real_div_near (hx : x.isFinite = true) (hy : y.isFinite = true) (hy' : real y ≠ 0)
    (h : |real x / real y| ≤ 2 ^ 127) : (x / y).isFinite = true ∧
      |real (x / y) - real x / real y| ≤
        2 ^ (-23 : ℤ) * |real x / real y| + 2 ^ (-149 : ℤ) := by
  have hnear := (rounded_div hx hy (Rat.cast_ne_zero.mp hy')).real_near
    (abs_le_maxValue (by push_cast; exact h))
  push_cast at hnear
  exact hnear

theorem isFinite_add (hx : x.isFinite = true) (hy : y.isFinite = true)
    (h : |real x + real y| ≤ 2 ^ 127) : (x + y).isFinite = true :=
  ((rounded_add hx hy).finite_of_le (abs_le_maxValue (by push_cast; exact h))).1

theorem real_add_near (hx : x.isFinite = true) (hy : y.isFinite = true)
    (h : (x + y).isFinite = true) :
    |real (x + y) - (real x + real y)| ≤ 2 ^ (-23 : ℤ) * |real x + real y| := by
  have hcast := Rat.cast_le (K := ℝ).mpr (value_add_near hx hy h)
  push_cast at hcast
  exact hcast

theorem one_eq_ofBits : (1 : Float32) = Float32.ofBits 0x3F800000 := by decide +kernel

theorem value_literal_one : value 1 = 1 := by
  rw [one_eq_ofBits]
  exact value_one.2

theorem real_one : real 1 = 1 := by rw [real, value_literal_one, Rat.cast_one]

theorem abs_inv_sub_le {x r δ : ℝ} (hr : 0 < r) (hδ : δ ≤ 1 / 8) (h : |x - r| ≤ δ * r) :
    0 < x ∧ |1 / x - 1 / r| ≤ 8 / 7 * δ * (1 / r) := by
  have hx : 7 / 8 * r ≤ x := by
    have := neg_le_of_abs_le h
    nlinarith
  have hx₀ : 0 < x := lt_of_lt_of_le (by positivity) hx
  refine ⟨hx₀, ?_⟩
  have hinverse : 1 / x ≤ 8 / 7 * (1 / r) := by
    rw [div_le_iff₀ hx₀]
    calc (1 : ℝ) = 8 / 7 * (1 / r) * (7 / 8 * r) := by field_simp
      _ ≤ 8 / 7 * (1 / r) * x := by gcongr
  have hsplit : 1 / x - 1 / r = (r - x) * (1 / x) * (1 / r) := by field_simp
  rw [hsplit, abs_mul, abs_mul, abs_of_pos (one_div_pos.mpr hx₀), abs_of_pos (one_div_pos.mpr hr),
    abs_sub_comm]
  have hδr : 0 ≤ δ * r := (abs_nonneg _).trans h
  calc |x - r| * (1 / x) * (1 / r) ≤ δ * r * (8 / 7 * (1 / r)) * (1 / r) := by gcongr
    _ = 8 / 7 * δ * (1 / r) := by field_simp

theorem one_div_near {r δ : ℝ} (hx : x.isFinite = true) (hr : 2 ^ (-80 : ℤ) ≤ r)
    (hr' : r ≤ 2 ^ (80 : ℤ)) (hδ : δ ≤ 1 / 8) (h : |real x - r| ≤ δ * r) :
    (1 / x).isFinite = true ∧ 0 < real (1 / x) ∧
      |real (1 / x) - 1 / r| ≤ (2 * δ + 2 ^ (-21 : ℤ)) * (1 / r) := by
  have hr₀ : 0 < r := lt_of_lt_of_le (by positivity) hr
  obtain ⟨hx₀, hdiff⟩ := abs_inv_sub_le hr₀ hδ h
  have hδ₀ : 0 ≤ δ := nonneg_of_mul_nonneg_left ((abs_nonneg _).trans h) hr₀
  have hinverse₀ : 0 < 1 / r := one_div_pos.mpr hr₀
  have hlarge : 2 ^ (-80 : ℤ) ≤ 1 / r := by
    rw [le_div_iff₀ hr₀]
    norm_num at hr' ⊢
    linarith
  have hsmall : 1 / r ≤ 2 ^ (80 : ℤ) := by
    rw [div_le_iff₀ hr₀]
    norm_num at hr ⊢
    linarith
  have hδr : 0 ≤ δ * (1 / r) := by positivity
  have hδr' : δ * (1 / r) ≤ 1 / 8 * (1 / r) := by gcongr
  have hone : real 1 / real x = 1 / real x := by rw [real_one]
  have hle := le_of_abs_le hdiff
  obtain ⟨hfinite, hnear⟩ := real_div_near (x := 1) rfl hx hx₀.ne' (by
    rw [hone, abs_of_pos (one_div_pos.mpr hx₀)]
    norm_num at *
    linarith)
  rw [hone, abs_of_pos (one_div_pos.mpr hx₀)] at hnear
  have htri := abs_sub_le (real (1 / x)) (1 / real x) (1 / r)
  have hclose : |real (1 / x) - 1 / r| ≤ (2 * δ + 2 ^ (-21 : ℤ)) * (1 / r) := by
    norm_num at *
    linarith
  refine ⟨hfinite, ?_, hclose⟩
  have hhalf : (2 * δ + 2 ^ (-21 : ℤ)) * (1 / r) ≤ 1 / 2 * (1 / r) := by
    gcongr
    norm_num
    linarith
  linarith [neg_le_of_abs_le hclose]

end BranchStream.Binary32
