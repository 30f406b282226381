import BranchStream.Binary32.Instances
import Mathlib

namespace BranchStream.Binary32

open Float.Model (Format UnpackedFloat)
open Float.Model.UnpackedFloat

/-- Significand and exponent as words hold them: 24 bits, or fewer at the least exponent. -/
structure Canonical (m : Nat) (e : Int) : Prop where
  lt : m < 2 ^ 24
  le : -149 ≤ e
  normal : 2 ^ 23 ≤ m ∨ e = -149

theorem exponentBias_eq : Format.binary32.exponentBias = 127 := rfl

theorem mantissaBits_eq : Format.binary32.mantissaBits = 24 := rfl

theorem toNat_append_one (v : BitVec 23) : (1#1 ++ v).toNat = 2 ^ 23 + v.toNat := by
  rw [BitVec.toNat_append, ← Nat.shiftLeft_add_eq_or_of_lt v.isLt]
  rfl

theorem canonical_unpack {b : BitVec 32} {s : Sign} {m : Nat} {e : Int} {h : 0 < m}
    (hb : UnpackedFloat.unpack .binary32 b = .finite s m e h) : Canonical m e ∧ e ≤ 104 := by
  unfold UnpackedFloat.unpack at hb
  extract_lets v x k w s' at hb
  have hv : v.toNat < 2 ^ 23 := v.isLt
  have hx : x.toNat < 2 ^ 8 := x.isLt
  have hk : k = x.toNat - 150 := rfl
  split_ifs at hb with h₁ h₂ h₃ h₄
  · injection hb with _ hm he
    have : x.toNat = 0 := by rw [h₃]; rfl
    subst hm he
    exact ⟨⟨by omega, by omega, .inr (by omega)⟩, by omega⟩
  · injection hb with _ hm he
    have h255 : x.toNat ≠ 255 := fun hc ↦ h₁ (BitVec.eq_of_toNat_eq hc)
    have h0 : x.toNat ≠ 0 := fun hc ↦ h₃ (BitVec.eq_of_toNat_eq hc)
    rw [toNat_append_one] at hm
    subst hm he
    refine ⟨⟨by omega, by omega, .inl (by omega)⟩, ?_⟩
    omega

theorem unpack_packComponents (s : Sign) (x : BitVec 8) (v : BitVec 23) :
    UnpackedFloat.unpack .binary32 (packComponents .binary32 s x v) =
      if x = -1#8 then if v = 0#23 then .infinity s else .notANumber
      else if x = 0#8 then
        if h : v.toNat = 0 then .zero s else .finite s v.toNat (-149) (Nat.pos_of_ne_zero h)
      else .finite s (2 ^ 23 + v.toNat) (x.toNat - 150) (by positivity) := by
  have hv : v = 0#23 ↔ v.toNat = 0 := by rw [← BitVec.toNat_inj]; rfl
  simp only [UnpackedFloat.unpack, unpackExponent_packComponents, unpackMantissa_packComponents,
    unpackSign_packComponents, Sign.ofBitVec_toBitVec, exponentBias_eq, toNat_append_one]
  split_ifs with h₁ h₂ h₃ h₄ h₅ h₆
  · rfl
  · rfl
  · rfl
  · exact absurd (hv.mp h₄) h₅
  · exact absurd (hv.mpr h₆) h₄
  · subst h₃
    rfl
  · rfl

/-- The parts that packing keeps: an exponent that is too large makes an infinity. -/
def settled : UnpackedFloat → UnpackedFloat
  | .finite s m e h => if 104 < e then .infinity s else .finite s m e h
  | u => u

theorem pack_finite {s : Sign} {m : Nat} {e : Int} (h : 0 < m) (he : -149 ≤ e) :
    UnpackedFloat.pack .binary32 (.finite s m e h) =
      if 104 < e then packComponents .binary32 s (-1#8) 0#23
      else if m.log2 = 23 then
        packComponents .binary32 s (BitVec.ofNat 8 (e + 150).toNat) (BitVec.ofNat 23 m)
      else packComponents .binary32 s 0#8 (BitVec.ofNat 23 m) := by
  have hbiased : (e + (127 : Nat) + (23 : Nat)).toNat = (e + 150).toNat := by omega
  have hlarge : 2 ^ 8 ≤ (e + 150).toNat + 1 ↔ 104 < e := by omega
  have hbits : m.log2 + 1 = 24 ↔ m.log2 = 23 := by omega
  simp only [UnpackedFloat.pack, exponentBias_eq, mantissaBits_eq, hbiased, hlarge, hbits,
    packedInfinity]
  rfl

theorem unpack_pack_finite {s : Sign} {m : Nat} {e : Int} (h : 0 < m) (hc : Canonical m e) :
    UnpackedFloat.unpack .binary32 (UnpackedFloat.pack .binary32 (.finite s m e h)) =
      settled (.finite s m e h) := by
  obtain ⟨hlt, hle, hnormal⟩ := hc
  rw [settled, pack_finite h hle]
  split_ifs with he hlog
  · rw [unpack_packComponents, if_pos rfl, if_pos rfl]
  · have hm : 2 ^ 23 ≤ m := ((Nat.log2_eq_iff h.ne').mp hlog).1
    have hexponent : (BitVec.ofNat 8 (e + 150).toNat).toNat = (e + 150).toNat := by
      rw [BitVec.toNat_ofNat]
      omega
    have hmantissa : 2 ^ 23 + (BitVec.ofNat 23 m).toNat = m := by
      rw [BitVec.toNat_ofNat]
      omega
    have hspecial (x : BitVec 8) (hx : x.toNat = 0 ∨ x.toNat = 255) :
        BitVec.ofNat 8 (e + 150).toNat ≠ x := by
      rintro rfl
      omega
    rw [unpack_packComponents, if_neg (hspecial _ (.inr rfl)), if_neg (hspecial _ (.inl rfl))]
    congr 1
    omega
  · obtain rfl : e = -149 :=
      hnormal.resolve_left fun hm ↦ hlog ((Nat.log2_eq_iff h.ne').mpr ⟨hm, hlt⟩)
    have hm : m < 2 ^ 23 := by
      by_contra hm
      exact hlog ((Nat.log2_eq_iff h.ne').mpr ⟨not_lt.mp hm, hlt⟩)
    have hmantissa : (BitVec.ofNat 23 m).toNat = m := by
      rw [BitVec.toNat_ofNat]
      omega
    rw [unpack_packComponents, if_neg (by decide), if_pos rfl, dif_neg (by omega)]
    congr 1

/-- The parts fit into a word, but perhaps for too large an exponent. -/
def Sound : UnpackedFloat → Prop
  | .finite _ m e _ => Canonical m e
  | _ => True

theorem unpack_ofModel_pack {u : UnpackedFloat} (hu : Sound u) :
    (Float32.ofModel (.pack u)).toModel.unpack = settled u := by
  have hwords : (Float32.ofModel (.pack u)).toModel.unpack =
      UnpackedFloat.unpack .binary32 (UnpackedFloat.pack .binary32 u) := by
    simp only [Float32.Model.unpack, Float32.Model.pack]
  rw [hwords]
  cases u with
  | notANumber =>
    rw [UnpackedFloat.pack, unpack_packedNaN, settled]
    exact nofun
  | infinity s =>
    rw [UnpackedFloat.pack, packedInfinity]
    exact (unpack_packComponents s _ _).trans rfl
  | zero s =>
    rw [UnpackedFloat.pack, unpack_packedZero, settled]
    exact nofun
  | finite s m e h => exact unpack_pack_finite h hu

def signed (s : Sign) (q : ℚ) : ℚ :=
  match s with
  | .positive => q
  | .negative => -q

@[simp] theorem signed_zero (s : Sign) : signed s 0 = 0 := by
  cases s with
  | positive => rfl
  | negative => exact neg_zero

def toRat : UnpackedFloat → ℚ
  | .finite s m e _ => signed s (m * 2 ^ e)
  | _ => 0

abbrev parts (x : Float32) : UnpackedFloat := x.toModel.unpack

def value (x : Float32) : ℚ := toRat (parts x)

theorem scaled_lt {m m' : Nat} {e e' : Int} (h : Canonical m e) (h' : Canonical m' e')
    (hlt : e < e' ∨ e = e' ∧ m < m') : (m : ℚ) * 2 ^ e < m' * 2 ^ e' := by
  rcases hlt with hlt | ⟨rfl, hlt⟩
  · have hle := h.le
    have hm' : 2 ^ 23 ≤ m' := h'.normal.resolve_right (by omega)
    calc (m : ℚ) * 2 ^ e < 2 ^ 24 * 2 ^ e := by
          have := h.lt
          gcongr
          exact_mod_cast this
      _ = 2 ^ 23 * 2 ^ (e + 1) := by rw [zpow_add₀ two_ne_zero]; ring
      _ ≤ m' * 2 ^ e' := by
          gcongr
          · exact_mod_cast hm'
          · norm_num
          · omega
  · gcongr

theorem compare_scaled {m m' : Nat} {e e' : Int} (h : Canonical m e) (h' : Canonical m' e') :
    (compare e e').then (compare m m') = compare ((m : ℚ) * 2 ^ e) (m' * 2 ^ e') := by
  rcases lt_trichotomy e e' with he | rfl | he
  · rw [compare_lt_iff_lt.mpr he, compare_lt_iff_lt.mpr (scaled_lt h h' (.inl he))]
    rfl
  · rw [compare_eq_iff_eq.mpr rfl, Ordering.then]
    rcases lt_trichotomy m m' with hm | rfl | hm
    · rw [compare_lt_iff_lt.mpr hm, compare_lt_iff_lt.mpr (scaled_lt h h' (.inr ⟨rfl, hm⟩))]
    · rw [compare_eq_iff_eq.mpr rfl, compare_eq_iff_eq.mpr rfl]
    · rw [compare_gt_iff_gt.mpr hm, compare_gt_iff_gt.mpr (scaled_lt h' h (.inr ⟨rfl, hm⟩))]
  · rw [compare_gt_iff_gt.mpr he, compare_gt_iff_gt.mpr (scaled_lt h' h (.inl he))]
    rfl

theorem compare_neg (p q : ℚ) : compare (-p) (-q) = (compare p q).swap := by
  rcases lt_trichotomy p q with h | rfl | h
  · rw [compare_lt_iff_lt.mpr h, compare_gt_iff_gt.mpr (neg_lt_neg h)]
    rfl
  · rw [compare_eq_iff_eq.mpr rfl, compare_eq_iff_eq.mpr rfl]
    rfl
  · rw [compare_gt_iff_gt.mpr h, compare_lt_iff_lt.mpr (neg_lt_neg h)]
    rfl

theorem isFinite_of_parts {x : Float32} {u : UnpackedFloat} (hp : parts x = u) :
    x.isFinite = u.isFinite := congrArg UnpackedFloat.isFinite hp

theorem finite_cases {x : Float32} (hx : x.isFinite = true) : (∃ s, parts x = .zero s) ∨
    ∃ s m e h, parts x = .finite s m e h ∧ Canonical m e ∧ e ≤ 104 := by
  have hfinite : (parts x).isFinite = true := hx
  cases hp : parts x with
  | notANumber => rw [hp] at hfinite; cases hfinite
  | infinity s => rw [hp] at hfinite; cases hfinite
  | zero s => exact .inl ⟨s, rfl⟩
  | finite s m e h => exact .inr ⟨s, m, e, h, rfl, canonical_unpack hp⟩

theorem value_of_zero {x : Float32} {s : Sign} (hp : parts x = .zero s) : value x = 0 := by
  rw [value, hp]
  rfl

theorem value_of_finite {x : Float32} {s : Sign} {m : Nat} {e : Int} {h : 0 < m}
    (hp : parts x = .finite s m e h) : value x = signed s (m * 2 ^ e) := by
  rw [value, hp]
  rfl

theorem nonneg_cases {x : Float32} (hx : x.isFinite = true) (hx' : 0 ≤ value x) :
    (∃ s, parts x = .zero s) ∨
      ∃ m e h, parts x = .finite .positive m e h ∧ Canonical m e := by
  rcases finite_cases hx with hp | ⟨s, m, e, h, hp, hc, -⟩
  · exact .inl hp
  · cases s with
    | positive => exact .inr ⟨m, e, h, hp, hc⟩
    | negative =>
      have hpos : (0 : ℚ) < m * 2 ^ e := by positivity
      rw [value_of_finite hp] at hx'
      exact absurd hx' (not_le.mpr (neg_lt_zero.mpr hpos))

theorem compare_parts {x y : Float32} (hx : x.isFinite = true) (hy : y.isFinite = true) :
    (parts x).compare (parts y) = some (compare (value x) (value y)) := by
  have hpos {m : Nat} (hm : 0 < m) (e : Int) : 0 < (m : ℚ) * 2 ^ e := by positivity
  rw [value, value]
  rcases finite_cases hx with ⟨s, hp⟩ | ⟨s, m, e, h, hp, hc, -⟩ <;>
    rcases finite_cases hy with ⟨s', hp'⟩ | ⟨s', m', e', h', hp', hc', -⟩ <;>
    rw [hp, hp']
  · rfl
  · have h₀ := hpos h' e'
    cases s' with
    | positive => exact congrArg some (compare_lt_iff_lt.mpr h₀).symm
    | negative => exact congrArg some (compare_gt_iff_gt.mpr (neg_lt_zero.mpr h₀)).symm
  · have h₀ := hpos h e
    cases s with
    | positive => exact congrArg some (compare_gt_iff_gt.mpr h₀).symm
    | negative => exact congrArg some (compare_lt_iff_lt.mpr (neg_lt_zero.mpr h₀)).symm
  · have h₀ := hpos h e
    have h₀' := hpos h' e'
    rcases s with _ | _ <;> rcases s' with _ | _
    · refine congrArg some ?_
      rw [compare_scaled hc hc', toRat, signed, toRat, signed, compare_neg]
    · exact congrArg some (compare_lt_iff_lt.mpr ((neg_lt_zero.mpr h₀).trans h₀')).symm
    · exact congrArg some (compare_gt_iff_gt.mpr ((neg_lt_zero.mpr h₀').trans h₀)).symm
    · exact congrArg some (compare_scaled hc hc')

theorem lt_iff_compare {x y : Float32} : x < y ↔ (parts x).compare (parts y) = some .lt := by
  have hlt : x < y ↔ ((parts x).compare (parts y) == some .lt) = true := decide_eq_true_iff
  rw [hlt, beq_iff_eq]

theorem lt_iff_value {x y : Float32} (hx : x.isFinite = true) (hy : y.isFinite = true) :
    x < y ↔ value x < value y := by
  rw [lt_iff_compare, compare_parts hx hy, Option.some.injEq, compare_lt_iff_lt]

theorem le_iff_compare {x y : Float32} :
    x ≤ y ↔ ((parts x).compare (parts y)).any Ordering.isLE = true := decide_eq_true_iff

theorem le_iff_value {x y : Float32} (hx : x.isFinite = true) (hy : y.isFinite = true) :
    x ≤ y ↔ value x ≤ value y := by
  rw [le_iff_compare, compare_parts hx hy, Option.any_some, ← Ordering.ne_gt_iff_isLE]
  exact compare_le_iff_le

end BranchStream.Binary32
