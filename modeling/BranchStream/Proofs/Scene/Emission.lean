import BranchStream.Proofs.Scene.References
import BranchStream.Proofs.Scene.Timer
import Mathlib.Data.List.Induction

namespace BranchStream.Scene

section

variable {α : Type} [Elementary α] {s : Scene α} {r : Request α} {dt : α}

/-- How long a request asks a frame to be, before it is checked. -/
def askedStep? (s : Scene α) : Request α → Option α
  | .frame dt => some dt
  | .tick now => some (s.clock.read now).1
  | _ => none

theorem timeStep?_eq (s : Scene α) (r : Request α) :
    s.timeStep? r = (s.askedStep? r).map validStep := by
  cases r <;> rfl

theorem emitSettings_answer (s : Scene α) (r : Request α) :
    (s.answer r).2.settings.emitInterval = s.settings.emitInterval ∧
      (s.answer r).2.settings.maxSpawnsPerFrame = s.settings.maxSpawnsPerFrame := by
  cases h : s.timeStep? r with
  | some dt =>
    obtain ⟨clock, hanswer⟩ := answer_of_timeStep h
    rw [hanswer, frame_eq]
    exact ⟨rfl, rfl⟩
  | none =>
    cases r with
    | frame dt => cases h
    | tick now => cases h
    | setIterations n =>
      rw [answer]
      rcases s.setIterations_cases n with ⟨k, hk⟩ | ⟨fault, hf⟩
      · rw [hk]
        exact ⟨rfl, rfl⟩
      · rw [hf]
        exact ⟨rfl, rfl⟩
    | setModifiers m =>
      rw [answer]
      rcases s.setModifiers_cases m with ⟨hm, -⟩ | ⟨fault, hf⟩
      · rw [hm]
        exact ⟨rfl, rfl⟩
      · rw [hf]
        exact ⟨rfl, rfl⟩
    | _ => exact ⟨rfl, rfl⟩

theorem emitSettings_after (s : Scene α) (rs : List (Request α)) :
    (s.after rs).settings.emitInterval = s.settings.emitInterval ∧
      (s.after rs).settings.maxSpawnsPerFrame = s.settings.maxSpawnsPerFrame :=
  after_induction
    (P := fun s' ↦ s'.settings.emitInterval = s.settings.emitInterval ∧
      s'.settings.maxSpawnsPerFrame = s.settings.maxSpawnsPerFrame)
    ⟨rfl, rfl⟩
    (fun s' r hs ↦
      ⟨(s'.emitSettings_answer r).1.trans hs.1, (s'.emitSettings_answer r).2.trans hs.2⟩)
    rs

theorem timer_of_quiet (h : s.timeStep? r = none) : (s.answer r).2.timer = s.timer := by
  rcases (answer_of_quiet h).2 with ⟨c, a, -, hs⟩ | ⟨-, _, _, _, _, hs, -⟩
  · rw [hs]
    rfl
  · rw [hs]

theorem timer_of_timeStep (h : s.timeStep? r = some dt) :
    (s.answer r).2.timer = (s.emit dt).2 := by
  obtain ⟨clock, hanswer⟩ := answer_of_timeStep h
  rw [hanswer, frame_eq, validStep_of_timeStep h]

theorem timeStep_of_asked {x : α} (hx : x ∈ s.askedStep? r) :
    s.timeStep? r = some (validStep x) := by
  rw [timeStep?_eq, hx, Option.map_some]

theorem emit_of_pos {i : α} (hinterval : s.settings.emitInterval = some i) (hi : 0 < i) (dt : α) :
    s.emit dt = emission i s.settings.maxSpawnsPerFrame s.timer dt := by
  simp only [emit, hinterval, if_pos hi]

theorem emit_cases (s : Scene α) (dt : α) :
    (∃ i, s.settings.emitInterval = some i ∧ 0 < i ∧
      s.emit dt = emission i s.settings.maxSpawnsPerFrame s.timer dt) ∨
      s.emit dt = (0, s.timer) := by
  cases hinterval : s.settings.emitInterval with
  | none => exact .inr (by simp only [emit, hinterval])
  | some i =>
    by_cases hi : 0 < i
    · exact .inl ⟨i, rfl, hi, emit_of_pos hinterval hi dt⟩
    · exact .inr (by simp only [emit, hinterval, if_neg hi])

theorem arrivals_eq (s : Scene α) (dt : α) :
    s.arrivals dt = (s.pending.toNat + (s.emit dt).1) % 2 ^ 64 := by
  rw [arrivals, UInt64.toNat_add, UInt64.toNat_ofNat', Nat.add_mod_mod]

/-- What a frame of length `x` reports and leaves of the particles that enter at the root. -/
structure Emits (s : Scene α) (r : Request α) (x : α) (f : Frame α) (s' : Scene α) : Prop where
  answer : s.answer r = (.drawn f, s')
  spawned : f.spawned = (s.advanced (validStep x)).1.spawned ++ (s.emitted (validStep x)).1
  length : (s.emitted (validStep x)).1.length =
    (s.pending.toNat + (s.emit (validStep x)).1) % 2 ^ 64
  timer : s'.timer = (s.emit (validStep x)).2

theorem Current.answer_of_asked (hs : s.Current) {x : α} (hx : x ∈ s.askedStep? r) :
    ∃ f s', s.Emits r x f s' := by
  obtain ⟨clock, hanswer⟩ := answer_of_timeStep (timeStep_of_asked hx)
  have hlength := (s.advanced (validStep x)).2.length_spawnAtRoot hs.shown.1.size_pos
    (s.arrivals (validStep x))
  refine ⟨_, _, hanswer, ?_, hlength.trans (s.arrivals_eq _), ?_⟩
  · rw [frame_eq, validStep_validStep]
  · rw [frame_eq, validStep_validStep]

end

open Binary32

variable {s : Scene Float32} {rs : List (Request Float32)} {r : Request Float32} {i dt : Float32}

/-- In every frame of the run the sum of the timer and the time step is finite. -/
def TimerHolds (s : Scene Float32) : List (Request Float32) → Prop
  | [] => True
  | r :: rs =>
    (∀ dt ∈ s.timeStep? r, (s.timer + dt).isFinite = true) ∧ TimerHolds (s.answer r).2 rs

instance decidableTimerHolds (s : Scene Float32) :
    (rs : List (Request Float32)) → Decidable (s.TimerHolds rs)
  | [] => .isTrue trivial
  | r :: rs => @instDecidableAnd _ _ inferInstance (decidableTimerHolds (s.answer r).2 rs)

theorem timerHolds_concat (s : Scene Float32) (rs : List (Request Float32))
    (r : Request Float32) :
    s.TimerHolds (rs ++ [r]) ↔ s.TimerHolds rs ∧
      ∀ dt ∈ (s.after rs).timeStep? r, ((s.after rs).timer + dt).isFinite = true := by
  induction rs generalizing s with
  | nil => simp [TimerHolds, after, run]
  | cons r' rs ih =>
    rw [List.cons_append, TimerHolds, ih, TimerHolds, and_assoc]
    rfl

theorem value_validStep (dt : Float32) :
    (validStep dt).isFinite = true ∧ 0 ≤ value (validStep dt) := by
  rw [validStep]
  split
  · rename_i h
    obtain ⟨hfinite, hle⟩ := h
    refine ⟨hfinite, ?_⟩
    rwa [le_iff_value rfl hfinite, value_zero] at hle
  · exact ⟨rfl, value_zero.ge⟩

theorem value_timeStep (h : s.timeStep? r = some dt) : dt.isFinite = true ∧ 0 ≤ value dt := by
  have hdt := value_validStep dt
  rwa [validStep_of_timeStep h] at hdt

theorem value_validStep_of_not_pos {dt : Float32} (h : dt.isFinite = false ∨ dt ≤ 0) :
    value (validStep dt) = 0 := by
  rw [validStep]
  split
  · rename_i hvalid
    obtain ⟨hfinite, hle⟩ := hvalid
    have hfinite' : dt.isFinite = true := hfinite
    rcases h with h | h
    · rw [hfinite'] at h
      cases h
    · rw [le_iff_value rfl hfinite, value_zero] at hle
      rw [le_iff_value hfinite rfl, value_zero] at h
      exact le_antisymm h hle
  · exact value_zero

theorem ticking_or_stopped (hinterval : s.settings.emitInterval = some i) (hi : 0 < i)
    (hs : Ticking i s.timer) (rs : List (Request Float32)) :
    (s.TimerHolds rs ∧ Ticking i (s.after rs).timer) ∨
      ¬ s.TimerHolds rs ∧ Stopped (s.after rs).timer := by
  induction rs using List.reverseRecOn with
  | nil => exact .inl ⟨trivial, hs⟩
  | append_singleton rs r ih =>
    have hsame := (s.emitSettings_after rs).1.trans hinterval
    rw [after_concat, timerHolds_concat]
    cases h : (s.after rs).timeStep? r with
    | none =>
      rw [timer_of_quiet h]
      simpa using ih
    | some dt =>
      obtain ⟨hdt, hdt'⟩ := value_timeStep h
      rw [timer_of_timeStep h, emit_of_pos hsame hi]
      simp only [Option.mem_some_iff, forall_eq']
      rcases ih with ⟨hholds, hticking⟩ | ⟨hholds, hstopped⟩
      · rcases hticking.emission_cases hi hdt hdt' _ with ⟨hsum, hnext⟩ | ⟨hsum, -, hnext⟩
        · exact .inl ⟨⟨hholds, hsum⟩, hnext⟩
        · exact .inr ⟨fun h ↦ Bool.false_ne_true (hsum.symm.trans h.2), hnext⟩
      · exact .inr ⟨fun h ↦ hholds h.1, (hstopped.emission hi _ dt).2.2⟩

theorem timer_mem_iff (hinterval : s.settings.emitInterval = some i) (hi : 0 < i)
    (hs : Ticking i s.timer) (rs : List (Request Float32)) :
    (0 ≤ (s.after rs).timer ∧ (s.after rs).timer < i) ↔ s.TimerHolds rs := by
  rcases ticking_or_stopped hinterval hi hs rs with ⟨hholds, hticking⟩ | ⟨hholds, hstopped⟩
  · exact iff_of_true ⟨hticking.le, hticking.lt⟩ hholds
  · exact iff_of_false (fun h ↦ not_ticking_of_stopped hstopped i h.2) hholds

theorem fst_emit_of_not_timerHolds (hinterval : s.settings.emitInterval = some i) (hi : 0 < i)
    (hs : Ticking i s.timer) (h : (s.after rs).timeStep? r = some dt)
    (hholds : ¬ s.TimerHolds (rs ++ [r])) :
    ((s.after rs).emit dt).1 = Scalar.toNat (Float32.ofNat s.settings.maxSpawnsPerFrame) := by
  obtain ⟨hsame, hcap⟩ := s.emitSettings_after rs
  obtain ⟨hdt, hdt'⟩ := value_timeStep h
  rw [emit_of_pos (hsame.trans hinterval) hi, hcap]
  rw [timerHolds_concat, h] at hholds
  simp only [Option.mem_some_iff, forall_eq'] at hholds
  rcases ticking_or_stopped hinterval hi hs rs with ⟨hrun, hticking⟩ | ⟨-, hstopped⟩
  · rcases hticking.emission_cases hi hdt hdt' s.settings.maxSpawnsPerFrame with
      ⟨hsum, -⟩ | ⟨-, hcount, -⟩
    · exact absurd ⟨hrun, hsum⟩ hholds
    · exact hcount
  · exact (hstopped.emission hi _ dt).2.1

theorem fst_emit_le (s : Scene Float32) (dt : Float32) :
    (s.emit dt).1 ≤ Scalar.toNat (Float32.ofNat s.settings.maxSpawnsPerFrame) := by
  rcases s.emit_cases dt with ⟨i, -, -, hemit⟩ | hemit
  · rw [hemit]
    exact fst_emission_le
  · rw [hemit]
    exact Nat.zero_le _

theorem fst_emit_of_zero (hs : ∀ i, 0 < i → Ticking i s.timer) (hholds : s.TimerHolds rs)
    (hdt : dt.isFinite = true) (hzero : value dt = 0) : ((s.after rs).emit dt).1 = 0 := by
  rcases (s.after rs).emit_cases dt with ⟨i, hinterval, hi, hemit⟩ | hemit
  · have hsame := (s.emitSettings_after rs).1.symm.trans hinterval
    rcases ticking_or_stopped hsame hi (hs i hi) rs with ⟨-, hticking⟩ | ⟨hbroken, -⟩
    · rw [hemit]
      exact fst_emission_of_zero hi hticking hdt hzero
    · exact absurd hholds hbroken
  · rw [hemit]

/-- The budget of the particles that enter by themselves. A frame adds no more of them than the
binary32 number next to the most that are allowed, which is that number itself up to 2 ^ 24. As long
as every sum of the timer and a time step was finite, the timer stays between zero and its interval,
and a frame whose time step is zero, negative or not finite adds none; from the first other sum on
the timer is never again below its interval, and every frame adds as many as it may. -/
theorem emission_budget (d : Option (Definition Float32)) (settings : Settings Float32)
    (rs : List (Request Float32)) (r : Request Float32) :
    let start := ofDefinition d settings
    let s := start.after rs
    let most := Scalar.toNat (Float32.ofNat settings.maxSpawnsPerFrame)
    ∀ x ∈ s.askedStep? r, ∃ f s' k, s.answer r = (.drawn f, s') ∧
      f.spawned = (s.advanced (validStep x)).1.spawned ++ (s.emitted (validStep x)).1 ∧
      (s.emitted (validStep x)).1.length = (s.pending.toNat + k) % 2 ^ 64 ∧
      k ≤ most ∧ (settings.maxSpawnsPerFrame ≤ 2 ^ 24 → k ≤ settings.maxSpawnsPerFrame) ∧
      (start.TimerHolds rs → x.isFinite = false ∨ x ≤ 0 → k = 0) ∧
      ∀ i, settings.emitInterval = some i → 0 < i →
        (0 ≤ s'.timer ∧ s'.timer < i ↔ start.TimerHolds (rs ++ [r])) ∧
        (¬ start.TimerHolds (rs ++ [r]) → k = most) := by
  intro start s most x hx
  have hticking (i : Float32) (hi : 0 < i) : Ticking i start.timer := ticking_zero hi
  obtain ⟨f, s', hanswer, hspawned, hlength, -⟩ :=
    (current_after d settings rs).answer_of_asked hx
  have hmost : (s.emit (validStep x)).1 ≤ most :=
    (s.fst_emit_le _).trans_eq (by rw [(start.emitSettings_after rs).2]; rfl)
  refine ⟨f, s', _, hanswer, hspawned, hlength, hmost, ?_, ?_, ?_⟩
  · exact fun hsmall ↦ hmost.trans_eq (toNat_ofNat hsmall)
  · intro hholds hzero
    exact fst_emit_of_zero hticking hholds (value_validStep x).1 (value_validStep_of_not_pos hzero)
  · intro i hinterval hi
    have hnext : start.after (rs ++ [r]) = s' := after_concat.trans (congrArg Prod.snd hanswer)
    have htimer := timer_mem_iff hinterval hi (hticking i hi) (rs ++ [r])
    rw [hnext] at htimer
    exact ⟨htimer, fst_emit_of_not_timerHolds hinterval hi (hticking i hi) (timeStep_of_asked hx)⟩

theorem emission_budget_of_pause :
    let start := ofDefinition none (default : Settings Float32)
    let s := start.after [.frame (Float32.ofBits 0x3f000000)]
    0 ∈ s.askedStep? (.frame 0) ∧ start.TimerHolds [.frame (Float32.ofBits 0x3f000000)] ∧
      (s.emitted (validStep 0)).1.length = 0 ∧
      0 ≤ (s.frame 0).2.timer ∧ (s.frame 0).2.timer < 1 := by
  intro start s
  have hasked : 0 ∈ s.askedStep? (.frame 0) := by decide +kernel
  have hholds : start.TimerHolds [.frame (Float32.ofBits 0x3f000000)] := by decide +kernel
  have hholds' : start.TimerHolds ([.frame (Float32.ofBits 0x3f000000)] ++ [.frame 0]) := by
    decide +kernel
  obtain ⟨f, s', k, hanswer, -, hlength, -, -, hzero, hinterval⟩ :=
    emission_budget none default [.frame (Float32.ofBits 0x3f000000)] (.frame 0) 0 hasked
  obtain ⟨-, rfl⟩ := Prod.mk.inj ((s.answer_frame _).symm.trans hanswer)
  rw [hzero hholds (.inr (by decide +kernel))] at hlength
  exact ⟨hasked, hholds, hlength, (hinterval 1 rfl (by decide +kernel)).1.mpr hholds'⟩

/-- A sum beyond the finite numbers leaves no number on the timer, so that even frames of no length
spawn; and one more than allowed may be spawned if that many is no binary32 number. -/
theorem emission_exceeds_budget :
    let settings : Settings Float32 :=
      { (default : Settings Float32) with
        emitInterval := some (Float32.ofBits 0x7f7fffff), maxSpawnsPerFrame := 2 }
    let s := (ofDefinition none settings).after
      [.frame (Float32.ofBits 0x7f7ffffe), .frame (Float32.ofBits 0x7f7fffff)]
    s.answer (.frame 0) = (.drawn (s.frame 0).1, (s.frame 0).2) ∧
      ¬ (0 ≤ s.timer ∧ s.timer < Float32.ofBits 0x7f7fffff) ∧
      s.pending = 0 ∧ (s.frame 0).1.spawned = [2, 3] ∧
      ((ofDefinition none { (default : Settings Float32) with
        maxSpawnsPerFrame := 16777219 }).emit (Float32.ofBits 0x4c000000)).1 = 16777220 := by
  intro settings s
  exact ⟨s.answer_frame _, by decide +kernel, by decide +kernel, by decide +kernel,
    by decide +kernel⟩

theorem nonneg_of_timerHolds (hinterval : s.settings.emitInterval = some i) (hi : 0 < i)
    (hs : Ticking i s.timer) (h : (s.after rs).timeStep? r = some dt)
    (hsum : ((s.after rs).timer + dt).isFinite = true) : 0 ≤ value ((s.after rs).timer + dt) := by
  obtain ⟨hdt, hdt'⟩ := value_timeStep h
  rcases ticking_or_stopped hinterval hi hs rs with ⟨-, hticking⟩ | ⟨-, hstopped⟩
  · rcases hticking.add_cases hdt hdt' with ⟨-, hnonneg⟩ | hinf
    · exact hnonneg
    · exact absurd ((isFinite_of_parts hinf).symm.trans hsum) Bool.false_ne_true
  · exact absurd ((hstopped.emission hi 0 dt).1.symm.trans hsum) Bool.false_ne_true

/-- When an interval is counted twice. As long as the count is not limited, it is the whole part of
the rounded quotient, so that the intervals counted and the time left on the timer make up the sum
just if rounding does not reach the next whole number; if it does, and there are fewer than 2 ^ 24
intervals, then one of them is left on the timer as well. -/
theorem intervals_counted_once_iff (d : Option (Definition Float32)) (settings : Settings Float32)
    (rs : List (Request Float32)) (r : Request Float32) {i : Float32}
    (hinterval : settings.emitInterval = some i) (hi : i.isFinite = true) (hpos : 0 < i)
    (hcap : settings.maxSpawnsPerFrame < 2 ^ 64) :
    let s := (ofDefinition d settings).after rs
    ∀ x ∈ s.askedStep? r,
      let total := s.timer + validStep x
      total.isFinite = true → ¬ Float32.ofNat settings.maxSpawnsPerFrame < floor (total / i) →
      ∃ f s' k, s.answer r = (.drawn f, s') ∧
        f.spawned = (s.advanced (validStep x)).1.spawned ++ (s.emitted (validStep x)).1 ∧
        (s.emitted (validStep x)).1.length = (s.pending.toNat + k) % 2 ^ 64 ∧
        k = min ⌊value (total / i)⌋₊ (2 ^ 64 - 1) ∧
        (value total = k * value i + value s'.timer ↔ (k : ℤ) = ⌊value total / value i⌋) ∧
        (⌊value total / value i⌋ < 2 ^ 24 → value total = k * value i + value s'.timer ∨
          value total + value i = k * value i + value s'.timer) := by
  intro s x hx total htotal hlimit
  set start := ofDefinition d settings
  obtain ⟨f, s', hanswer, hspawned, hlength, htimer⟩ :=
    (current_after d settings rs).answer_of_asked hx
  obtain ⟨hsame, hcap'⟩ := start.emitSettings_after rs
  have hi' : 0 < value i := by rwa [lt_iff_value rfl hi, value_zero] at hpos
  have hnonneg : 0 ≤ value total :=
    nonneg_of_timerHolds hinterval hpos (ticking_zero hpos) (timeStep_of_asked hx) htotal
  have hemit := emit_of_pos (hsame.trans hinterval) hpos (validStep x)
  rw [hcap'] at hemit
  rw [hemit] at htimer hlength
  have hcount := fst_emission_of_unlimited hcap hpos htotal hnonneg hlimit
  refine ⟨f, s', _, hanswer, hspawned, hlength, hcount, ?_, ?_⟩
  · rw [htimer]
    exact sum_eq_iff hi hi' htotal hnonneg _
  · rw [htimer]
    exact fun hlarge ↦ sum_eq_or hi hi' htotal hnonneg hlarge hcount

theorem intervals_counted_once_of_half :
    let i := Float32.ofBits 0x3f000000
    let x := Float32.ofBits 0x3f333333
    let s := ofDefinition none { (default : Settings Float32) with emitInterval := some i }
    (s.frame x).1.spawned = [0] ∧
      value (s.timer + validStep x) = 1 * value i + value (s.frame x).2.timer := by
  intro i x s
  have hasked : x ∈ s.askedStep? (.frame x) := by decide +kernel
  obtain ⟨f, s', k, hanswer, -, -, hk, hiff, -⟩ := intervals_counted_once_iff none
    { (default : Settings Float32) with emitInterval := some i } [] (.frame x) rfl
    (by decide +kernel) (by decide +kernel) (by decide +kernel) x hasked (by decide +kernel)
    (by decide +kernel)
  obtain ⟨-, rfl⟩ := Prod.mk.inj ((s.answer_frame _).symm.trans hanswer)
  obtain rfl : k = 1 := hk.trans (by decide +kernel)
  refine ⟨by decide +kernel, ?_⟩
  exact_mod_cast hiff.mpr (by decide +kernel)

/-- Seven tenths of a second, a little less than seven intervals of a tenth each, are counted as
seven, although nearly the whole seventh is left on the timer. -/
theorem interval_counted_twice :
    let i := Float32.ofBits 0x3dcccccd
    let x := Float32.ofBits 0x3f333333
    let s := ofDefinition none { (default : Settings Float32) with emitInterval := some i }
    let total := s.timer + validStep x
    s.answer (.frame x) = (.drawn (s.frame x).1, (s.frame x).2) ∧ total.isFinite = true ∧
      ¬ Float32.ofNat s.settings.maxSpawnsPerFrame < floor (total / i) ∧
      (s.frame x).1.spawned = [0, 1, 2, 3, 4, 5, 6] ∧
      value total ≠ 7 * value i + value (s.frame x).2.timer := by
  intro i x s total
  exact ⟨s.answer_frame _, by decide +kernel, by decide +kernel, by decide +kernel,
    by decide +kernel⟩

end BranchStream.Scene
