import BranchStream.Proofs.Binary32.Whole

namespace BranchStream.Binary32

open Float.Model (UnpackedFloat)
open Float.Model.UnpackedFloat

variable {x y : Float32} {s : Sign}

theorem special_cases (hx : x.isFinite = false) :
    (∃ s, parts x = .infinity s) ∨ parts x = .notANumber := by
  have hparts : (parts x).isFinite = false := hx
  cases hp : parts x with
  | notANumber => exact .inr rfl
  | infinity s => exact .inl ⟨s, rfl⟩
  | zero s =>
    rw [hp] at hparts
    cases hparts
  | finite s m e h =>
    rw [hp] at hparts
    cases hparts

theorem lt_of_infinity (hx : x.isFinite = true) (hy : parts y = .infinity .positive) : x < y := by
  rw [lt_iff_compare, hy]
  rcases finite_cases hx with ⟨s, hp⟩ | ⟨s, m, e, h, hp, -⟩
  · rw [hp]
    rfl
  · rw [hp]
    rfl

theorem not_lt_of_infinity (hx : parts x = .infinity .positive) (y : Float32) : ¬ x < y := by
  rw [lt_iff_compare, hx]
  cases parts y with
  | infinity s => cases s <;> decide
  | _ => nofun

theorem not_lt_of_nan (hx : parts x = .notANumber) (y : Float32) : ¬ x < y := by
  rw [lt_iff_compare, hx]
  nofun

theorem value_zero : value 0 = 0 := value_of_zero (s := .positive) rfl

theorem compare_swap (u v : UnpackedFloat) : (u.compare v).map Ordering.swap = v.compare u := by
  cases u with
  | notANumber => cases v <;> rfl
  | infinity s =>
    cases v with
    | infinity s' => cases s <;> cases s' <;> rfl
    | _ => cases s <;> rfl
  | zero s =>
    cases v with
    | infinity s' => cases s' <;> rfl
    | finite s' m e h => cases s' <;> rfl
    | _ => rfl
  | finite s m e h =>
    cases v with
    | infinity s' => cases s' <;> cases s <;> rfl
    | finite s' m' e' h' =>
      cases s <;> cases s' <;>
        simp [UnpackedFloat.compare, Ordering.swap_then, ← Std.OrientedCmp.eq_swap]
    | _ => cases s <;> rfl

theorem not_lt_self (x : Float32) : ¬ x < x := by
  rw [lt_iff_compare]
  intro h
  have hswap := compare_swap (parts x) (parts x)
  rw [h] at hswap
  cases hswap

theorem le_of_lt (h : x < y) : x ≤ y := by
  rw [lt_iff_compare] at h
  rw [le_iff_compare, h]
  rfl

theorem not_le_of_lt (h : x < y) : ¬ y ≤ x := by
  rw [lt_iff_compare] at h
  rw [le_iff_compare, ← compare_swap, h]
  decide

theorem not_le_iff_lt (hx : x.isFinite = true) (hy : y.isFinite = true) : ¬ x ≤ y ↔ y < x := by
  rw [le_iff_value hx hy, lt_iff_value hy hx, not_le]

theorem parts_zero_add (y : Float32) : parts (0 + y) = parts y ∨
    (∃ s, parts y = .zero s) ∧ ∃ s, parts (0 + y) = .zero s := by
  have hsum : 0 + y = .ofModel (.pack (UnpackedFloat.add .binary32 (parts 0) (parts y))) := rfl
  have hzero : parts 0 = .zero .positive := rfl
  rw [hsum, hzero]
  cases hp : parts y with
  | zero s =>
    refine .inr ⟨⟨s, rfl⟩, .positive, ?_⟩
    cases s <;> exact unpack_ofModel_pack trivial
  | finite s m e h =>
    obtain ⟨hc, he⟩ := canonical_unpack hp
    refine .inl ((unpack_ofModel_pack (u := .finite s m e h) hc).trans ?_)
    exact if_neg (not_lt.mpr he)
  | _ => exact .inl (unpack_ofModel_pack trivial)

theorem compare_zero_add (y : Float32) (v : UnpackedFloat) :
    (parts (0 + y)).compare v = (parts y).compare v := by
  rcases parts_zero_add y with h | ⟨⟨s, h⟩, s', h'⟩
  · rw [h]
  · rw [h, h']
    cases v with
    | infinity s => cases s <;> rfl
    | finite s m e h => cases s <;> rfl
    | _ => rfl

theorem not_zero_add_le_of_lt (h : x < y) : ¬ 0 + y ≤ x := by
  rw [le_iff_compare, compare_zero_add, ← le_iff_compare]
  exact not_le_of_lt h

theorem pos_cases (hx : 0 < x) :
    (x.isFinite = true ∧ 0 < value x) ∨ parts x = .infinity .positive := by
  cases hfinite : x.isFinite with
  | true =>
    refine .inl ⟨rfl, ?_⟩
    rwa [lt_iff_value rfl hfinite, value_zero] at hx
  | false =>
    rcases special_cases hfinite with ⟨s, hp⟩ | hp
    · cases s with
      | positive => exact .inr hp
      | negative =>
        rw [lt_iff_compare, hp] at hx
        exact absurd hx (by decide)
    · rw [lt_iff_compare, hp] at hx
      exact absurd hx (by decide)

theorem parts_add_of_nan (hx : parts x = .notANumber) (y : Float32) :
    parts (x + y) = .notANumber := by
  have hsum : x + y = .ofModel (.pack (UnpackedFloat.add .binary32 (parts x) (parts y))) := rfl
  rw [hsum, hx]
  exact unpack_ofModel_pack trivial

theorem div_eq (x y : Float32) :
    x / y = .ofModel (.pack (UnpackedFloat.div .binary32 (parts x) (parts y))) := rfl

theorem parts_div_of_nan (hx : parts x = .notANumber) (y : Float32) :
    parts (x / y) = .notANumber := by
  rw [div_eq, hx]
  exact unpack_ofModel_pack trivial

theorem parts_div_of_infinity (hx : parts x = .infinity .positive) (hy : 0 < y) :
    parts (x / y) = .infinity .positive ∨ parts (x / y) = .notANumber := by
  rw [div_eq, hx]
  rcases pos_cases hy with ⟨hfinite, hpos⟩ | hinf
  · rcases nonneg_cases hfinite hpos.le with ⟨s, hp⟩ | ⟨m, e, h, hp, -⟩
    · exact absurd (value_of_zero hp) hpos.ne'
    · rw [hp]
      exact .inl (unpack_ofModel_pack trivial)
  · rw [hinf]
    exact .inr (unpack_ofModel_pack trivial)

theorem parts_div_infinity (hx : x.isFinite = true) (hy : parts y = .infinity .positive) :
    ∃ s, parts (x / y) = .zero s := by
  rw [div_eq, hy]
  rcases finite_cases hx with ⟨s, hp⟩ | ⟨s, m, e, h, hp, -⟩
  · rw [hp]
    exact ⟨_, unpack_ofModel_pack trivial⟩
  · rw [hp]
    exact ⟨_, unpack_ofModel_pack trivial⟩

theorem div_cases (hx : x.isFinite = true) (hx' : 0 ≤ value x) (hy : 0 < y) :
    ((x / y).isFinite = true ∧ 0 ≤ value (x / y)) ∨ parts (x / y) = .infinity .positive := by
  rcases pos_cases hy with ⟨hfinite, hpos⟩ | hinf
  · exact (rounded_div hx hfinite hpos.ne').nonneg (by positivity)
  · obtain ⟨s, hzero⟩ := parts_div_infinity hx hinf
    exact .inl ⟨isFinite_of_parts hzero, (value_of_zero hzero).ge⟩

theorem floor_of_not_finite (hx : x.isFinite = false) : floor x = x := by
  rcases special_cases hx with ⟨s, hp⟩ | hp
  · simp only [floor, hp]
  · simp only [floor, hp]

theorem parts_rem_of_not_finite (hx : x.isFinite = false) (y : Float32) :
    parts (rem x y) = .notANumber := by
  have hnan : parts nan = .notANumber := unpack_ofModel_pack trivial
  rcases special_cases hx with ⟨s, hp⟩ | hp
  · simpa only [rem, hp] using hnan
  · simpa only [rem, hp] using hnan

theorem rem_infinity (hx : x.isFinite = true) (hy : parts y = .infinity s) : rem x y = x := by
  rcases finite_cases hx with ⟨s', hp⟩ | ⟨s', m, e, h, hp, -⟩
  · simp only [rem, hp, hy]
  · simp only [rem, hp, hy]

theorem toNat_of_infinity (hx : parts x = .infinity .positive) : Scalar.toNat x = 2 ^ 64 - 1 := by
  show (UnpackedFloat.toUInt64 (parts x)).toNat = _
  rw [hx]
  rfl

theorem toNat_le (x : Float32) : Scalar.toNat x ≤ 2 ^ 64 - 1 :=
  Nat.le_sub_one_of_lt (UInt64.toNat_lt _)

theorem ofNat_cases (n : Nat) :
    ((Float32.ofNat n).isFinite = true ∧ 0 ≤ value (Float32.ofNat n)) ∨
      parts (Float32.ofNat n) = .infinity .positive :=
  (rounded_ofNat n).nonneg n.cast_nonneg

theorem lesser_of_not_lt (h : ¬ x < y) : Scalar.lesser x y = y := if_neg h

theorem toNat_lesser (hx : x.isFinite = true) (n : Nat) :
    Scalar.toNat (Scalar.lesser x (Float32.ofNat n)) =
      min (Scalar.toNat x) (Scalar.toNat (Float32.ofNat n)) := by
  rcases ofNat_cases n with ⟨hn, -⟩ | hn
  · by_cases h : x < Float32.ofNat n
    · have hvalue := (lt_iff_value hx hn).mp h
      rw [Scalar.lesser, if_pos h, min_eq_left (toNat_mono hx hn hvalue.le)]
    · have hvalue := not_lt.mp ((lt_iff_value hx hn).not.mp h)
      rw [lesser_of_not_lt h, min_eq_right (toNat_mono hn hx hvalue)]
  · rw [Scalar.lesser, if_pos (lt_of_infinity hx hn), toNat_of_infinity hn,
      min_eq_left (toNat_le x)]

theorem toNat_lesser_le (x : Float32) (n : Nat) :
    Scalar.toNat (Scalar.lesser x (Float32.ofNat n)) ≤ Scalar.toNat (Float32.ofNat n) := by
  cases hx : x.isFinite with
  | true => exact (toNat_lesser hx n).trans_le (min_le_right _ _)
  | false =>
    rcases special_cases hx with ⟨s, hp⟩ | hp
    · cases s with
      | positive => rw [lesser_of_not_lt (not_lt_of_infinity hp _)]
      | negative =>
        have hzero : Scalar.toNat x = 0 := by
          show (UnpackedFloat.toUInt64 (parts x)).toNat = _
          rw [hp]
          rfl
        rw [Scalar.lesser]
        split
        · rw [hzero]
          exact Nat.zero_le _
        · exact le_rfl
    · rw [lesser_of_not_lt (not_lt_of_nan hp _)]

theorem toNat_ofNat {n : Nat} (hn : n ≤ 2 ^ 24) : Scalar.toNat (Float32.ofNat n) = n := by
  obtain ⟨hfinite, hvalue⟩ := exact_ofNat hn
  rw [toNat_eq hfinite, hvalue, Nat.floor_natCast]
  omega

theorem toNat_floor_quotient (hy : 0 < y) (hx : x.isFinite = true) (hx' : 0 ≤ value x)
    (hlt : x < y) : (floor (x / y)).isFinite = true ∧ Scalar.toNat (floor (x / y)) = 0 := by
  suffices h : (x / y).isFinite = true ∧ 0 ≤ value (x / y) ∧ value (x / y) < 1 by
    obtain ⟨hfinite, hnonneg, hone⟩ := h
    obtain ⟨hfloor, hvalue⟩ := exact_floor hfinite
    have hzero : ⌊value (x / y)⌋ = 0 := Int.floor_eq_zero_iff.mpr ⟨hnonneg, hone⟩
    refine ⟨hfloor, ?_⟩
    rw [toNat_eq hfloor, hvalue, hzero, Int.cast_zero, Nat.floor_zero]
    rfl
  rcases pos_cases hy with ⟨hfinite, hpos⟩ | hinf
  · have hvalue := (lt_iff_value hx hfinite).mp hlt
    have hbound := value_div_le hx hfinite hx' hvalue
    have hnonneg : 0 ≤ value x / value y := by positivity
    have hrepresentable : Representable (((2 ^ 24 - 1 : ℕ) : ℚ) * 2 ^ (-24 : ℤ)) :=
      representable_scaled (by norm_num) (by norm_num)
    have hone : ((2 ^ 24 - 1 : ℕ) : ℚ) * 2 ^ (-24 : ℤ) < 1 := by norm_num
    have hmax : |value x / value y| ≤ maxValue := by
      rw [abs_of_nonneg hnonneg]
      exact (hbound.trans hone.le).trans (by norm_num [maxValue])
    obtain ⟨hq, hround⟩ := (rounded_div hx hfinite hpos.ne').finite_of_le hmax
    exact ⟨hq, (hround 0 representable_zero).2 hnonneg,
      ((hround _ hrepresentable).1 hbound).trans_lt hone⟩
  · obtain ⟨s, hzero⟩ := parts_div_infinity hx hinf
    have hvalue := value_of_zero hzero
    exact ⟨isFinite_of_parts hzero, hvalue.ge, hvalue.trans_lt one_pos⟩

end BranchStream.Binary32
