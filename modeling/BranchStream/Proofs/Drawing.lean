import BranchStream.Binary32.Instances
import BranchStream.Drawing
import BranchStream.Proofs.Binary32.Wrapping

namespace BranchStream

open Binary32

def Shape.color {α : Type} : Shape α → Hsb α
  | .point _ color => color
  | .line _ _ color => color

namespace Hsb

/-- The ranges of the channels: the hue within one turn, the others up to one. A channel that is no
number is in no range. -/
@[mk_iff]
structure Displayable {α : Type} [Scalar α] (c : Hsb α) : Prop where
  hue_nonneg : 0 ≤ c.hue
  hue_lt : c.hue < (360 : Nat)
  saturation_nonneg : 0 ≤ c.saturation
  saturation_le : c.saturation ≤ 1
  brightness_nonneg : 0 ≤ c.brightness
  brightness_le : c.brightness ≤ 1

instance {α : Type} [Scalar α] (c : Hsb α) : Decidable c.Displayable :=
  decidable_of_iff _ (displayable_iff c).symm

variable {h s b : Float32}

theorem turn_exact : (Float32.ofNat 360).isFinite = true ∧ value (Float32.ofNat 360) = 360 :=
  exact_ofNat (n := 360) (by norm_num)

theorem turn_pos : 0 < value (Float32.ofNat 360) := by
  rw [turn_exact.2]
  norm_num

theorem hue_normalized (h s b : Float32) : (normalized h s b).hue =
    if Float32.ofNat 360 ≤ Scalar.wrap h (Float32.ofNat 360) then 0
    else Scalar.wrap h (Float32.ofNat 360) := rfl

theorem hue_normalized_of_finite (hh : h.isFinite = true) (s b : Float32) :
    0 ≤ (normalized h s b).hue ∧ (normalized h s b).hue < Float32.ofNat 360 := by
  obtain ⟨hfinite, hnonneg, -⟩ := wrap_of_finite hh turn_exact.1 turn_pos
  rw [hue_normalized]
  split_ifs with hfull
  · exact ⟨(le_iff_value rfl rfl).mpr le_rfl,
      (lt_iff_value rfl turn_exact.1).mpr (value_zero.trans_lt turn_pos)⟩
  · rw [le_iff_value turn_exact.1 hfinite, not_le] at hfull
    exact ⟨(le_iff_value rfl hfinite).mpr (value_zero.trans_le hnonneg),
      (lt_iff_value hfinite turn_exact.1).mpr hfull⟩

theorem hue_normalized_of_nonneg (hh : h.isFinite = true) (hh' : 0 ≤ value h) (s b : Float32) :
    (normalized h s b).hue = rem h (Float32.ofNat 360) := by
  have hwrap := wrap_of_nonneg hh turn_exact.1 hh' turn_pos
  obtain ⟨hfinite, hlt⟩ := abs_value_rem_lt hh turn_exact.1 turn_pos
  have hbelow : ¬ Float32.ofNat 360 ≤ rem h (Float32.ofNat 360) := by
    rw [le_iff_value turn_exact.1 hfinite, not_le]
    exact (le_abs_self _).trans_lt hlt
  rw [hue_normalized, hwrap, if_neg hbelow]

theorem value_hue_normalized (hh : h.isFinite = true) (hh' : 0 ≤ h) (s b : Float32) :
    value (normalized h s b).hue = value h - ⌊value h / 360⌋ * 360 := by
  rw [le_iff_value rfl hh, value_zero] at hh'
  rw [hue_normalized_of_nonneg hh hh', (exact_rem hh turn_exact.1 hh' turn_pos).2, turn_exact.2]

theorem hue_normalized_of_mem (hh : 0 ≤ h) (hh' : h < Float32.ofNat 360) (s b : Float32) :
    (normalized h s b).hue = h := by
  have hfinite := isFinite_of_mem rfl turn_exact.1 hh (le_of_lt hh')
  rw [le_iff_value rfl hfinite, value_zero] at hh
  rw [lt_iff_value hfinite turn_exact.1] at hh'
  rw [hue_normalized_of_nonneg hfinite hh, rem_of_lt hfinite turn_exact.1 hh hh']

theorem hue_normalized_of_not_finite (hh : h.isFinite = false) (s b : Float32) :
    (normalized h s b).hue.isNaN = true := by
  have hwrap := parts_wrap_of_not_finite hh (Float32.ofNat 360)
  rw [hue_normalized, if_neg (not_le_of_nan hwrap _), isNaN_eq_true_iff, hwrap]

theorem hue_normalized_iff :
    (0 ≤ (normalized h s b).hue ∧ (normalized h s b).hue < Float32.ofNat 360) ↔
      h.isFinite = true := by
  refine ⟨fun ⟨hnonneg, _⟩ ↦ ?_, fun hh ↦ hue_normalized_of_finite hh s b⟩
  by_contra hh
  have hnan := hue_normalized_of_not_finite (Bool.not_eq_true _ ▸ hh) s b
  exact not_le_of_nan (isNaN_eq_true_iff.mp hnan) 0 hnonneg

theorem channel_normalized_iff {x : Float32} :
    ((0 : Float32) ≤ Scalar.clamp x 0 1 ∧ Scalar.clamp x 0 1 ≤ (1 : Float32)) ↔
      x.isNaN = false := by
  obtain ⟨hfinite, hvalue⟩ := exact_ofNat (n := 1) (by norm_num)
  have hle : value 0 ≤ value (Float32.ofNat 1) := by
    rw [hvalue, value_zero]
    norm_num
  exact clamp_bounds_iff rfl hfinite hle

theorem displayable_normalized_iff : (normalized h s b).Displayable ↔
    h.isFinite = true ∧ s.isNaN = false ∧ b.isNaN = false := by
  constructor
  · intro hc
    exact ⟨hue_normalized_iff.mp ⟨hc.hue_nonneg, hc.hue_lt⟩,
      channel_normalized_iff.mp ⟨hc.saturation_nonneg, hc.saturation_le⟩,
      channel_normalized_iff.mp ⟨hc.brightness_nonneg, hc.brightness_le⟩⟩
  · rintro ⟨hh, hs, hb⟩
    obtain ⟨hhue, hhue'⟩ := hue_normalized_of_finite hh s b
    obtain ⟨hsaturation, hsaturation'⟩ := channel_normalized_iff.mpr hs
    obtain ⟨hbrightness, hbrightness'⟩ := channel_normalized_iff.mpr hb
    exact ⟨hhue, hhue', hsaturation, hsaturation', hbrightness, hbrightness'⟩

theorem normalized_of_displayable {c : Hsb Float32} (hc : c.Displayable) :
    normalized c.hue c.saturation c.brightness = c := by
  have hhue := hue_normalized_of_mem hc.hue_nonneg hc.hue_lt c.saturation c.brightness
  have hsaturation := clamp_of_mem hc.saturation_nonneg hc.saturation_le
  have hbrightness := clamp_of_mem hc.brightness_nonneg hc.brightness_le
  calc normalized c.hue c.saturation c.brightness =
        ⟨(normalized c.hue c.saturation c.brightness).hue, Scalar.clamp c.saturation 0 1,
          Scalar.clamp c.brightness 0 1⟩ := rfl
    _ = c := by rw [hhue, hsaturation, hbrightness]

/-- Normalizing is sound for every finite hue and all other channels that are numbers, infinite ones
too: the colour is displayable, what was in its range is unchanged, so that normalizing once more
changes nothing, and a hue from zero up loses whole turns only. -/
theorem normalized_sound (hh : h.isFinite = true) (hs : s.isNaN = false) (hb : b.isNaN = false) :
    let c : Hsb Float32 := normalized h s b
    c.Displayable ∧
      (0 ≤ h → h < 360 → c.hue = h) ∧ (0 ≤ s → s ≤ 1 → c.saturation = s) ∧
      (0 ≤ b → b ≤ 1 → c.brightness = b) ∧
      normalized c.hue c.saturation c.brightness = c ∧
      (0 ≤ h → value c.hue = value h - ⌊value h / 360⌋ * 360) := by
  intro c
  have hc : c.Displayable := displayable_normalized_iff.mpr ⟨hh, hs, hb⟩
  exact ⟨hc, fun h₀ h₁ ↦ hue_normalized_of_mem h₀ h₁ s b, clamp_of_mem, clamp_of_mem,
    normalized_of_displayable hc, fun h₀ ↦ value_hue_normalized hh h₀ s b⟩

/-- A tiny hue below zero rounds up to a whole turn before it becomes zero; the greatest hue loses
its turns without rounding. -/
theorem normalized_sound_of_extremes :
    let tiny := Float32.ofBits 0xb22bcc77
    let greatest := Float32.ofBits 0x7f7fffff
    let infinite := Float32.ofBits 0x7f800000
    let c := normalized tiny infinite (-infinite)
    (tiny.isFinite = true ∧ greatest.isFinite = true ∧ 0 ≤ greatest ∧ infinite.isNaN = false) ∧
      Scalar.wrap tiny 360 = 360 ∧ c = ⟨0, 1, 0⟩ ∧ c.Displayable ∧
      normalized c.hue c.saturation c.brightness = c ∧
      value (normalized greatest infinite infinite).hue =
        value greatest - ⌊value greatest / 360⌋ * 360 := by
  intro tiny greatest infinite c
  have hbounds : tiny.isFinite = true ∧ greatest.isFinite = true ∧ 0 ≤ greatest ∧
      infinite.isNaN = false := by decide +kernel
  have hnegative : (-infinite).isNaN = false := by decide +kernel
  obtain ⟨htiny, hgreatest, hnonneg, hinfinite⟩ := hbounds
  obtain ⟨hc, -, -, -, hagain, -⟩ := normalized_sound htiny hinfinite hnegative
  obtain ⟨-, -, -, -, -, hturns⟩ := normalized_sound hgreatest hinfinite hinfinite
  exact ⟨⟨htiny, hgreatest, hnonneg, hinfinite⟩, by decide +kernel, by decide +kernel, hc, hagain,
    hturns hnonneg⟩

end Hsb

end BranchStream
