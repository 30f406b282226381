import BranchStream.Proofs.Binary32.Value

namespace BranchStream.Binary32

open Float.Model (Format UnpackedFloat)
open Float.Model.UnpackedFloat

/-- A number with a significand of 24 bits, of any size above. -/
def Representable (q : ℚ) : Prop := ∃ n e : ℤ, |n| ≤ 2 ^ 24 ∧ -149 ≤ e ∧ q = n * 2 ^ e

/-- No representable number tells `q` and `v` apart by its order. -/
def RoundsTo (q v : ℚ) : Prop := ∀ y, Representable y → (q ≤ y → v ≤ y) ∧ (y ≤ q → y ≤ v)

theorem RoundsTo.refl (q : ℚ) : RoundsTo q q := fun _ _ ↦ ⟨id, id⟩

theorem scaled_add (q : ℚ) (e : Int) (k : Nat) : q * 2 ^ (e + k) = q * 2 ^ k * 2 ^ e := by
  rw [zpow_add₀ two_ne_zero, zpow_natCast]
  ring

theorem scaled_neg (m k : Nat) : (m : ℚ) * 2 ^ (-(k : ℤ)) = m / (2 ^ k : ℕ) := by
  rw [zpow_neg, zpow_natCast, Nat.cast_pow, Nat.cast_ofNat, div_eq_mul_inv]

theorem representable_zero : Representable 0 := ⟨0, 0, by norm_num, by norm_num, by norm_num⟩

theorem Representable.neg {q : ℚ} (h : Representable q) : Representable (-q) := by
  obtain ⟨n, e, hn, he, rfl⟩ := h
  exact ⟨-n, e, by rwa [abs_neg], he, by push_cast; ring⟩

theorem representable_scaled {m : Nat} {e : Int} (hm : m ≤ 2 ^ 24) (he : -149 ≤ e) :
    Representable (m * 2 ^ e) :=
  ⟨m, e, by rw [Nat.abs_cast]; exact_mod_cast hm, he, rfl⟩

theorem RoundsTo.neg {q v : ℚ} (h : RoundsTo q v) : RoundsTo (-q) (-v) := by
  intro y hy
  obtain ⟨hle, hge⟩ := h (-y) hy.neg
  exact ⟨fun hq ↦ neg_le.mp (hge (neg_le.mp hq)), fun hq ↦ le_neg.mp (hle (le_neg.mp hq))⟩

theorem RoundsTo.signed {q v : ℚ} (h : RoundsTo q v) (s : Sign) :
    RoundsTo (signed s q) (signed s v) := by
  cases s with
  | positive => exact h
  | negative => exact h.neg

theorem RoundsTo.eq_of_representable {q v : ℚ} (h : RoundsTo q v) (hq : Representable q) : v = q :=
  le_antisymm ((h q hq).1 le_rfl) ((h q hq).2 le_rfl)

theorem Representable.le_or_le {q : ℚ} (hq : Representable q) {m : Nat} {e : Int}
    (hm : 2 ^ 23 ≤ m ∨ e = -149) : q ≤ m * 2 ^ e ∨ (m + 1) * 2 ^ e ≤ q := by
  obtain ⟨n, f, hn, hf, rfl⟩ := hq
  rcases le_or_gt e f with hef | hef
  · obtain ⟨k, rfl⟩ := Int.le.dest hef
    rw [scaled_add]
    rcases le_or_gt (n * 2 ^ k) (m : ℤ) with h | h
    · left
      gcongr
      exact_mod_cast h
    · right
      gcongr
      exact_mod_cast h
  · left
    have hm : 2 ^ 23 ≤ m := hm.resolve_right (by omega)
    calc (n : ℚ) * 2 ^ f ≤ 2 ^ 24 * 2 ^ (e - 1) := by
          gcongr
          · exact_mod_cast (le_abs_self n).trans hn
          · norm_num
          · omega
      _ = 2 ^ 23 * 2 ^ e := by rw [zpow_sub₀ two_ne_zero]; ring
      _ ≤ m * 2 ^ e := by
          gcongr
          exact_mod_cast hm

theorem roundsTo_of_neighbour {q : ℚ} {m r : Nat} {e : Int} (hm : 2 ^ 23 ≤ m ∨ e = -149)
    (hle : m * 2 ^ e ≤ q) (hlt : q < (m + 1) * 2 ^ e) (hr : r = m ∨ r = m + 1)
    (hexact : q = m * 2 ^ e → r = m) : RoundsTo q (r * 2 ^ e) := by
  have hbetween : (m : ℚ) * 2 ^ e ≤ r * 2 ^ e ∧ (r : ℚ) * 2 ^ e ≤ (m + 1) * 2 ^ e := by
    constructor <;> gcongr
    · rcases hr with rfl | rfl <;> simp
    · rcases hr with rfl | rfl <;> simp
  intro y hy
  constructor
  · intro hqy
    rcases hy.le_or_le hm with h | h
    · have heq : q = m * 2 ^ e := le_antisymm (hqy.trans h) hle
      rw [hexact heq, ← heq]
      exact hqy
    · exact hbetween.2.trans h
  · intro hyq
    rcases hy.le_or_le hm with h | h
    · exact h.trans hbetween.1
    · exact absurd (hyq.trans_lt hlt) (not_lt.mpr h)

open ExtendedMantissa

theorem mantissa_shiftRight (em : ExtendedMantissa) (k : Nat) :
    (em >>> k).mantissa = em.mantissa / 2 ^ k := by
  induction k with
  | zero => simp [HShiftRight.hShiftRight, Nat.repeat]
  | succ k ih =>
    have hstep : (em >>> (k + 1)).mantissa = (em >>> k).mantissa / 2 := rfl
    rw [hstep, ih, Nat.div_div_eq_div_mul, Nat.pow_succ]

def Exact (em : ExtendedMantissa) : Prop := em.roundBit = false ∧ em.stickyBit = false

theorem exact_shiftRight_iff (em : ExtendedMantissa) (k : Nat) :
    Exact (em >>> k) ↔ Exact em ∧ 2 ^ k ∣ em.mantissa := by
  induction k with
  | zero => simp [HShiftRight.hShiftRight, Nat.repeat]
  | succ k ih =>
    have hstep : em >>> (k + 1) = shiftRightOne (em >>> k) := rfl
    have hone : Exact (em >>> (k + 1)) ↔ Exact (em >>> k) ∧ (em >>> k).mantissa % 2 = 0 := by
      rw [hstep, Exact, Exact, shiftRightOne]
      simp
      tauto
    rw [hone, ih, mantissa_shiftRight, and_assoc]
    refine and_congr_right fun _ ↦ ?_
    rw [← Nat.dvd_iff_mod_eq_zero, pow_succ]
    constructor
    · rintro ⟨h, h'⟩
      exact (Nat.dvd_div_iff_mul_dvd h).mp h'
    · intro h
      have hk := dvd_trans (dvd_mul_right _ _) h
      exact ⟨hk, (Nat.dvd_div_iff_mul_dvd hk).mpr h⟩

theorem roundedMantissa_cases (em : ExtendedMantissa) :
    (em.roundedMantissa = em.mantissa ∨ em.roundedMantissa = em.mantissa + 1) ∧
      (Exact em → em.roundedMantissa = em.mantissa) := by
  obtain ⟨m, r, s⟩ := em
  rcases r with _ | _ <;> rcases s with _ | _ <;>
    simp [roundedMantissa, accuracy, Accuracy.roundToNearestEven, Exact]
  omega

theorem mantissa_ofMantissaAndAccuracy (m : Nat) (a : Accuracy) :
    (ofMantissaAndAccuracy m a).mantissa = m := by
  rcases a with _ | _ | _ | _ <;> rfl

theorem exact_ofMantissaAndAccuracy_iff (m : Nat) (a : Accuracy) :
    Exact (ofMantissaAndAccuracy m a) ↔ a = .exact := by
  rcases a with _ | _ | _ | _ <;> simp [ofMantissaAndAccuracy, Exact]

theorem targetExponent_eq (m : Nat) (e : Int) :
    Format.binary32.targetExponent (Float.Model.totalExponent m e) =
      max (m.log2 + e - 23) (-149) := by
  have hmin : Format.binary32.minExponent = -149 := rfl
  rw [Format.targetExponent, Float.Model.totalExponent, mantissaBits_eq, hmin]
  congr 1
  push_cast
  ring

theorem shiftToTargetExponent_eq (m : Nat) (e : Int) (a : Accuracy) :
    shiftToTargetExponent .binary32 m e a =
      (ofMantissaAndAccuracy m a >>> (max (m.log2 + e - 23) (-149) - e).toNat,
        e + (max (m.log2 + e - 23) (-149) - e).toNat) := by
  rw [shiftToTargetExponent, targetExponent_eq, shiftToExponent]

/-- The parts that a rounded significand is carried over to. -/
def carried (s : Sign) (r : Nat) (e : Int) : UnpackedFloat :=
  if h : r = 0 then .zero s
  else if r < 2 ^ 24 then .finite s r e (Nat.pos_of_ne_zero h)
  else .finite s (2 ^ 23) (e + 1) (by norm_num)

theorem roundWithAccuracy_eq {s : Sign} {m : Nat} {e : Int} {a : Accuracy} {em : ExtendedMantissa}
    {f : Int} (hfirst : shiftToTargetExponent .binary32 m e a = (em, f))
    (hem : em.roundedMantissa ≤ 2 ^ 24) (hf : -149 ≤ f) :
    roundWithAccuracy .binary32 s m e a = carried s em.roundedMantissa f := by
  rw [roundWithAccuracy, hfirst]
  simp only [shiftToTargetExponent_eq]
  generalize em.roundedMantissa = r at hem ⊢
  rcases hem.lt_or_eq with hr | rfl
  · have hlog : r.log2 < 24 := by
      by_cases hz : r = 0
      · simp [hz]
      · exact (Nat.log2_lt hz).mpr hr
    have hshift : (max ((r.log2 : Int) + f - 23) (-149) - f).toNat = 0 := by omega
    have hnone : (ofMantissaAndAccuracy r .exact >>> 0).mantissa = r := rfl
    simp only [hshift, hnone, carried, hr, if_true, Nat.cast_zero, add_zero]
  · have hlog : (2 ^ 24 : Nat).log2 = 24 := Nat.log2_two_pow
    have hshift : (max (((2 ^ 24 : Nat).log2 : Int) + f - 23) (-149) - f).toNat = 1 := by
      rw [hlog]
      omega
    have hone : (ofMantissaAndAccuracy (2 ^ 24) .exact >>> 1).mantissa = 2 ^ 23 := rfl
    simp only [hshift, hone, carried, Nat.cast_one, lt_irrefl, if_false]
    rfl

theorem toRat_carried {s : Sign} {r : Nat} (hr : r ≤ 2 ^ 24) (e : Int) :
    toRat (carried s r e) = signed s (r * 2 ^ e) := by
  rw [carried]
  split_ifs with hz hlt
  · subst hz
    cases s <;> simp [toRat, signed]
  · rfl
  · obtain rfl : r = 2 ^ 24 := by omega
    rw [toRat, zpow_add₀ two_ne_zero]
    congr 1
    push_cast
    ring

theorem sound_carried {s : Sign} {r : Nat} {e : Int} (hr : 2 ^ 23 ≤ r ∨ e = -149) (he : -149 ≤ e) :
    Sound (carried s r e) := by
  rw [carried]
  split_ifs with hz hlt
  · trivial
  · exact ⟨hlt, he, hr⟩
  · exact ⟨by norm_num, by omega, .inl le_rfl⟩

theorem isFinite_carried (s : Sign) (r : Nat) (e : Int) : (carried s r e).isFinite = true := by
  rw [carried]
  split_ifs <;> rfl

/-- The parts are those of a finite number near to `q`, before the exponent is bounded. -/
structure Near (q : ℚ) (u : UnpackedFloat) : Prop where
  sound : Sound u
  isFinite : u.isFinite = true
  roundsTo : RoundsTo q (toRat u)

theorem near_zero (s : Sign) : Near 0 (.zero s) := ⟨trivial, rfl, .refl 0⟩

theorem cut_fits {m k : Nat} {e : Int} (hk : e + k = max (m.log2 + e - 23) (-149)) :
    m / 2 ^ k < 2 ^ 24 ∧ (2 ^ 23 ≤ m / 2 ^ k ∨ e + k = -149) := by
  have hpow : 0 < 2 ^ k := by positivity
  constructor
  · rw [Nat.div_lt_iff_lt_mul hpow, ← pow_add]
    exact Nat.lt_log2_self.trans_le (Nat.pow_le_pow_right (by norm_num) (by omega))
  · by_cases hmin : e + k = -149
    · exact .inr hmin
    · left
      have hlog : m.log2 = 23 + k := by omega
      have hne : m ≠ 0 := by
        rintro rfl
        rw [Nat.log2_zero] at hlog
        omega
      rw [Nat.le_div_iff_mul_le hpow, ← pow_add, ← hlog]
      exact Nat.log2_self_le hne

theorem cut_le (m : Nat) (e : Int) (k : Nat) :
    ((m / 2 ^ k : ℕ) : ℚ) * 2 ^ (e + k) ≤ m * 2 ^ e := by
  rw [scaled_add]
  gcongr
  exact_mod_cast Nat.div_mul_le_self m (2 ^ k)

theorem le_cut (m : Nat) (e : Int) (k : Nat) :
    ((m : ℚ) + 1) * 2 ^ e ≤ ((m / 2 ^ k : ℕ) + 1) * 2 ^ (e + k) := by
  rw [scaled_add]
  gcongr
  exact_mod_cast Nat.lt_mul_of_div_lt (Nat.lt_succ_self _) (by positivity)

theorem dvd_of_cut_eq {m : Nat} {e : Int} {k : Nat}
    (h : ((m / 2 ^ k : ℕ) : ℚ) * 2 ^ (e + k) = m * 2 ^ e) : 2 ^ k ∣ m := by
  rw [scaled_add] at h
  have hwhole : m / 2 ^ k * 2 ^ k = m := by
    exact_mod_cast mul_right_cancel₀ (by positivity) h
  exact Dvd.intro_left _ hwhole

/-- A number is rounded right from the whole part of its significand, if it is known whether there
is a fraction as well. -/
theorem near_roundWithAccuracy {m : Nat} {e : Int} {a : Accuracy} {q : ℚ} (s : Sign)
    (hle : m * 2 ^ e ≤ q) (hlt : q < (m + 1) * 2 ^ e) (ha : a = .exact ↔ q = m * 2 ^ e)
    (he : e ≤ max (m.log2 + e - 23) (-149)) :
    Near (signed s q) (roundWithAccuracy .binary32 s m e a) := by
  obtain ⟨k, hk⟩ := Int.le.dest he
  have hfirst := shiftToTargetExponent_eq m e a
  have hshift : (max ((m.log2 : Int) + e - 23) (-149) - e).toNat = k := by omega
  rw [hshift] at hfirst
  set em := ofMantissaAndAccuracy m a >>> k with hem
  have hmantissa : em.mantissa = m / 2 ^ k := by
    rw [hem, mantissa_shiftRight, mantissa_ofMantissaAndAccuracy]
  obtain ⟨hsmall, hnormal⟩ := cut_fits hk
  have hbelow := cut_le m e k
  have habove := le_cut m e k
  obtain ⟨hcases, hexact⟩ := roundedMantissa_cases em
  rw [hmantissa] at hcases hexact
  have hround : RoundsTo q (em.roundedMantissa * 2 ^ (e + k)) := by
    refine roundsTo_of_neighbour hnormal (hbelow.trans hle) (hlt.trans_le habove) hcases
      fun hq ↦ hexact ?_
    have hwhole : q = m * 2 ^ e := le_antisymm (hq.trans_le hbelow) hle
    rw [hem, exact_shiftRight_iff, exact_ofMantissaAndAccuracy_iff, mantissa_ofMantissaAndAccuracy]
    exact ⟨ha.mpr hwhole, dvd_of_cut_eq (hq.symm.trans hwhole)⟩
  have hr : em.roundedMantissa ≤ 2 ^ 24 := by omega
  rw [roundWithAccuracy_eq hfirst hr (by omega)]
  refine ⟨sound_carried (by omega) (by omega), isFinite_carried _ _ _, ?_⟩
  rw [toRat_carried hr]
  exact hround.signed s

theorem roundWithAccuracy_zero (s : Sign) (e : Int) :
    roundWithAccuracy .binary32 s 0 e .exact = .zero s := by
  have hfirst := shiftToTargetExponent_eq 0 e .exact
  set k := (max (((0 : Nat).log2 : Int) + e - 23) (-149) - e).toNat with hk
  have hr : (ofMantissaAndAccuracy 0 .exact >>> k).roundedMantissa = 0 := by
    have hexact : Exact (ofMantissaAndAccuracy 0 .exact >>> k) := by
      rw [exact_shiftRight_iff]
      exact ⟨⟨rfl, rfl⟩, dvd_zero _⟩
    rw [(roundedMantissa_cases _).2 hexact, mantissa_shiftRight, mantissa_ofMantissaAndAccuracy,
      Nat.zero_div]
  rw [roundWithAccuracy_eq hfirst (by omega) (by omega), hr]
  rfl

theorem log2_shiftLeft {m : Nat} (hm : m ≠ 0) (k : Nat) : (m <<< k).log2 = m.log2 + k := by
  have hne : m <<< k ≠ 0 := by
    rw [Nat.shiftLeft_eq]
    positivity
  rw [Nat.log2_eq_iff hne, Nat.shiftLeft_eq, add_right_comm, pow_add, pow_add _ _ k]
  have hle := Nat.log2_self_le hm
  have hlt := Nat.lt_log2_self (n := m)
  constructor <;> gcongr

theorem scaled_shiftLeft {m : Nat} {e g : Int} (h : g ≤ e) :
    ((m <<< (e - g).toNat : ℕ) : ℚ) * 2 ^ g = m * 2 ^ e := by
  obtain ⟨k, rfl⟩ := Int.le.dest h
  have hk : (g + k - g).toNat = k := by omega
  rw [hk, Nat.shiftLeft_eq, scaled_add]
  push_cast
  rfl

theorem near_round (s : Sign) (m : Nat) (e : Int) :
    Near (signed s (m * 2 ^ e)) (UnpackedFloat.round .binary32 s m e) := by
  rw [UnpackedFloat.round, targetExponent_eq]
  simp only [decreaseExponent]
  by_cases hz : m = 0
  · subst hz
    rw [Nat.zero_shiftLeft, roundWithAccuracy_zero, Nat.cast_zero, zero_mul, signed_zero]
    exact near_zero s
  · set k := (e - max ((m.log2 : Int) + e - 23) (-149)).toNat with hk
    have hscale : ((m <<< k : ℕ) : ℚ) * 2 ^ (e - k) = m * 2 ^ e := by
      rw [Nat.shiftLeft_eq, zpow_sub₀ two_ne_zero, zpow_natCast]
      push_cast
      field_simp
    rw [← hscale]
    refine near_roundWithAccuracy s le_rfl ?_ (by simp) ?_
    · gcongr
      exact lt_add_one _
    · rw [log2_shiftLeft hz]
      omega

theorem near_normalize (n e : Int) (s : Sign) :
    Near (n * 2 ^ e) (UnpackedFloat.normalize .binary32 n e s) := by
  rw [UnpackedFloat.normalize]
  rcases lt_trichotomy n 0 with hn | rfl | hn
  · have hnat : (((-n).toNat : ℤ) : ℚ) = -n := by
      rw [Int.toNat_of_nonneg (by omega)]
      push_cast
      rfl
    have h := near_round .negative (-n).toNat e
    rw [signed, ← Int.cast_natCast (-n).toNat, hnat, neg_mul, neg_neg] at h
    rwa [compare_lt_iff_lt.mpr hn]
  · rw [compare_eq_iff_eq.mpr rfl, Int.cast_zero, zero_mul]
    exact near_zero s
  · have hnat : ((n.toNat : ℤ) : ℚ) = n := by rw [Int.toNat_of_nonneg hn.le]
    have h := near_round .positive n.toNat e
    rw [signed, ← Int.cast_natCast n.toNat, hnat] at h
    rwa [compare_gt_iff_gt.mpr hn]

def maxValue : ℚ := (2 ^ 24 - 1) * 2 ^ 104

/-- `x` is next to `q`, or an infinity if `q` lies beyond the finite numbers. -/
inductive Rounded (q : ℚ) (x : Float32) : Prop
  | finite (hx : x.isFinite = true) (hq : RoundsTo q (value x))
  | overflow (s : Sign) (hx : parts x = .infinity s) (hq : maxValue < signed s q)

theorem signed_signed (s : Sign) (q : ℚ) : signed s (signed s q) = q := by
  cases s with
  | positive => rfl
  | negative => exact neg_neg q

theorem representable_maxValue : Representable maxValue :=
  ⟨2 ^ 24 - 1, 104, by norm_num, by norm_num, by norm_num [maxValue]⟩

theorem maxValue_lt_scaled {m : Nat} {e : Int} (hm : 2 ^ 23 ≤ m) (he : 104 < e) :
    maxValue < m * 2 ^ e := by
  calc maxValue < 2 ^ 23 * 2 ^ (105 : ℤ) := by norm_num [maxValue]
    _ ≤ m * 2 ^ e := by
        gcongr
        · exact_mod_cast hm
        · norm_num
        · omega

theorem Rounded.of_parts {q : ℚ} {x : Float32} {u : UnpackedFloat} (hparts : parts x = u)
    (hfinite : u.isFinite = true) (hround : RoundsTo q (toRat u)) : Rounded q x := by
  refine .finite ((isFinite_of_parts hparts).trans hfinite) ?_
  rwa [value, hparts]

theorem Near.rounded {q : ℚ} {u : UnpackedFloat} (h : Near q u) :
    Rounded q (.ofModel (.pack u)) := by
  have hparts : parts (.ofModel (.pack u)) = settled u := unpack_ofModel_pack h.sound
  obtain ⟨hsound, hfinite, hround⟩ := h
  cases u with
  | notANumber => cases hfinite
  | infinity s => cases hfinite
  | zero s => exact .of_parts hparts hfinite hround
  | finite s m e h =>
    rw [settled] at hparts
    split_ifs at hparts with he
    · refine .overflow s hparts (not_le.mp fun hq ↦ ?_)
      have hm : 2 ^ 23 ≤ m := hsound.normal.resolve_right (by omega)
      have hle := ((hround.signed s) _ representable_maxValue).1 hq
      rw [toRat, signed_signed] at hle
      exact absurd (maxValue_lt_scaled hm he) (not_lt.mpr hle)
    · exact .of_parts hparts hfinite hround

end BranchStream.Binary32
