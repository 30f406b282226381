import BranchStream.Proofs.Turtle.Rigid
import BranchStream.Proofs.Scene.Emission

namespace BranchStream

open Exact

section

variable {K : Type} [Field K] [LinearOrder K] [FloorRing K]

def dueBy (i t : K) : ℕ := ⌊t / i⌋₊

variable {i t : K}

theorem truncate_of_nonneg (ht : 0 ≤ t) : truncate t = (⌊t⌋₊ : ℤ) := by
  rw [truncate, if_pos ht, Int.natCast_floor_eq_floor ht]

variable [IsStrictOrderedRing K]

theorem dueBy_mul_le (hi : 0 < i) (ht : 0 ≤ t) : dueBy i t * i ≤ t :=
  (le_div_iff₀ hi).mp (Nat.floor_le (div_nonneg ht hi.le))

theorem lt_dueBy_add_one_mul (hi : 0 < i) (t : K) : t < (dueBy i t + 1) * i :=
  (div_lt_iff₀ hi).mp (Nat.lt_floor_add_one (t / i))

theorem dueBy_eq (hi : 0 < i) {n : ℕ} (hle : n * i ≤ t) (hlt : t < (n + 1) * i) :
    dueBy i t = n :=
  (Nat.floor_eq_iff (div_nonneg ((by positivity : 0 ≤ n * i).trans hle) hi.le)).mpr
    ⟨(le_div_iff₀ hi).mpr hle, (div_lt_iff₀ hi).mpr hlt⟩

theorem lesser_natCast (m n : ℕ) : Scalar.lesser (m : K) n = (min m n : ℕ) := by
  rw [Scalar.lesser]
  split_ifs with h
  · rw [min_eq_left (Nat.cast_lt.mp h).le]
  · rw [min_eq_right (Nat.cast_le.mp (not_lt.mp h))]

theorem emission_eq (hi : 0 < i) {dt : K} (ht : 0 ≤ t + dt) (cap : ℕ) :
    emission i cap t dt = (min (dueBy i (t + dt)) cap, t + dt - dueBy i (t + dt) * i) := by
  have hquotient : 0 ≤ (t + dt) / i := div_nonneg ht hi.le
  have hfloor : Scalar.floor ((t + dt) / i) = (dueBy i (t + dt) : K) := by
    show ((⌊(t + dt) / i⌋ : ℤ) : K) = _
    rw [← Int.natCast_floor_eq_floor hquotient, Int.cast_natCast]
    rfl
  have hrem : Scalar.rem (t + dt) i = t + dt - dueBy i (t + dt) * i := by
    show t + dt - truncate ((t + dt) / i) * i = _
    rw [truncate_of_nonneg hquotient, Int.cast_natCast]
    rfl
  have hcount : Scalar.toNat ((min (dueBy i (t + dt)) cap : ℕ) : K) = min (dueBy i (t + dt)) cap :=
    Nat.floor_natCast _
  have hemission : emission i cap t dt =
      (Scalar.toNat (Scalar.lesser (Scalar.floor ((t + dt) / i)) (cap : K)),
        Scalar.rem (t + dt) i) := rfl
  rw [hemission, hfloor, hrem, lesser_natCast, hcount]

end

namespace Scene

section

variable {α : Type} [Elementary α]

/-- The frames of a run: the state before each of them, and how long it is. -/
def framesOf (s : Scene α) : List (Request α) → List (Scene α × α)
  | [] => []
  | r :: rs => ((s.timeStep? r).map (s, ·)).toList ++ framesOf (s.answer r).2 rs

theorem framesOf_concat (s : Scene α) (rs : List (Request α)) (r : Request α) :
    s.framesOf (rs ++ [r]) =
      s.framesOf rs ++ (((s.after rs).timeStep? r).map (s.after rs, ·)).toList := by
  induction rs generalizing s with
  | nil => simp [framesOf, after, run]
  | cons r' rs ih =>
    rw [List.cons_append, framesOf, ih, framesOf, List.append_assoc]
    rfl

def timed (s : Scene α) (rs : List (Request α)) : ℕ :=
  ((s.framesOf rs).map fun f ↦ (f.1.emit f.2).1).sum

theorem timed_concat (s : Scene α) (rs : List (Request α)) (r : Request α) : s.timed (rs ++ [r]) =
    s.timed rs + (((s.after rs).timeStep? r).map fun dt ↦ ((s.after rs).emit dt).1).getD 0 := by
  rw [timed, framesOf_concat, List.map_append, List.sum_append]
  cases (s.after rs).timeStep? r <;> rfl

end

variable {K : Type} [Field K] [LinearOrder K] [FloorRing K]

theorem validStep_nonneg (dt : K) : 0 ≤ validStep dt := by
  rw [validStep]
  split_ifs with h
  · exact h.2
  · exact le_rfl

theorem validStep_of_nonneg {dt : K} (h : 0 ≤ dt) : validStep dt = dt := if_pos ⟨rfl, h⟩

theorem nonneg_of_timeStep {s : Scene K} {r : Request K} {dt : K}
    (h : s.timeStep? r = some dt) : 0 ≤ dt := by
  rw [← validStep_of_timeStep h]
  exact validStep_nonneg dt

variable [Functions K]

def elapsed (s : Scene K) (rs : List (Request K)) : K := ((s.framesOf rs).map Prod.snd).sum

def dueIn (i : K) (f : Scene K × K) : ℕ := dueBy i (f.1.timer + f.2)

def due (i : K) (s : Scene K) (rs : List (Request K)) : ℕ := ((s.framesOf rs).map (dueIn i)).sum

/-- No frame of the run is short of places for the particles that are due. -/
def Uncapped (i : K) (s : Scene K) (rs : List (Request K)) : Prop :=
  ∀ f ∈ s.framesOf rs, dueIn i f ≤ s.settings.maxSpawnsPerFrame

variable {s : Scene K} {rs : List (Request K)} {r : Request K} {i dt : K}

theorem elapsed_concat (s : Scene K) (rs : List (Request K)) (r : Request K) :
    s.elapsed (rs ++ [r]) = s.elapsed rs + ((s.after rs).timeStep? r).getD 0 := by
  rw [elapsed, framesOf_concat, List.map_append, List.sum_append]
  cases (s.after rs).timeStep? r <;> simp [elapsed]

theorem due_concat (i : K) (s : Scene K) (rs : List (Request K)) (r : Request K) :
    due i s (rs ++ [r]) =
      due i s rs + (((s.after rs).timeStep? r).map fun dt ↦ dueIn i (s.after rs, dt)).getD 0 := by
  rw [due, framesOf_concat, List.map_append, List.sum_append]
  cases (s.after rs).timeStep? r <;> rfl

theorem uncapped_concat : Uncapped i s (rs ++ [r]) ↔ Uncapped i s rs ∧
    ∀ dt ∈ (s.after rs).timeStep? r,
      dueIn i (s.after rs, dt) ≤ s.settings.maxSpawnsPerFrame := by
  rw [Uncapped, framesOf_concat, List.forall_mem_append, Uncapped]
  cases (s.after rs).timeStep? r <;> simp

theorem elapsed_frames (s : Scene K) {dts : List K} (h : ∀ dt ∈ dts, 0 ≤ dt) :
    s.elapsed (dts.map .frame) = dts.sum := by
  induction dts generalizing s with
  | nil => rfl
  | cons dt dts ih =>
    obtain ⟨hdt, hrest⟩ := List.forall_mem_cons.mp h
    have hframes : s.elapsed ((dt :: dts).map .frame) =
        validStep dt + (s.answer (.frame dt)).2.elapsed (dts.map .frame) := rfl
    rw [hframes, ih _ hrest, validStep_of_nonneg hdt, List.sum_cons]

variable [IsStrictOrderedRing K]

/-- The timer holds what is left of the time elapsed, once all intervals that were due have been
taken off it. -/
structure Keeps (i : K) (s : Scene K) (rs : List (Request K)) : Prop where
  elapsed_eq : s.elapsed rs = due i s rs * i + (s.after rs).timer
  nonneg : 0 ≤ (s.after rs).timer
  lt : (s.after rs).timer < i

theorem Keeps.emit_eq (h : Keeps i s rs) (hinterval : s.settings.emitInterval = some i)
    (hi : 0 < i) (hdt : 0 ≤ dt) : (s.after rs).emit dt =
      (min (dueIn i (s.after rs, dt)) s.settings.maxSpawnsPerFrame,
        (s.after rs).timer + dt - dueIn i (s.after rs, dt) * i) := by
  obtain ⟨hsame, hcap⟩ := s.emitSettings_after rs
  rw [emit_of_pos (hsame.trans hinterval) hi, emission_eq hi (add_nonneg h.nonneg hdt), hcap]
  rfl

theorem Keeps.concat (h : Keeps i s rs) (hinterval : s.settings.emitInterval = some i)
    (hi : 0 < i) (r : Request K) : Keeps i s (rs ++ [r]) := by
  have helapsed := s.elapsed_concat rs r
  have hdue := due_concat i s rs r
  cases hstep : (s.after rs).timeStep? r with
  | none =>
    rw [hstep, Option.getD_none, add_zero] at helapsed
    rw [hstep, Option.map_none, Option.getD_none, add_zero] at hdue
    have htimer : (s.after (rs ++ [r])).timer = (s.after rs).timer := by
      rw [after_concat, timer_of_quiet hstep]
    exact ⟨by rw [helapsed, hdue, htimer, h.elapsed_eq], by rw [htimer]; exact h.nonneg,
      by rw [htimer]; exact h.lt⟩
  | some dt =>
    rw [hstep, Option.getD_some] at helapsed
    rw [hstep, Option.map_some, Option.getD_some] at hdue
    have hdt := nonneg_of_timeStep hstep
    have htimer : (s.after (rs ++ [r])).timer =
        (s.after rs).timer + dt - dueIn i (s.after rs, dt) * i := by
      rw [after_concat, timer_of_timeStep hstep, h.emit_eq hinterval hi hdt]
    have hle := dueBy_mul_le hi (add_nonneg h.nonneg hdt)
    have hlt := lt_dueBy_add_one_mul hi ((s.after rs).timer + dt)
    refine ⟨?_, ?_, ?_⟩
    · rw [helapsed, hdue, htimer, h.elapsed_eq]
      push_cast
      ring
    · rw [htimer]
      exact sub_nonneg.mpr hle
    · rw [htimer, sub_lt_iff_lt_add, ← one_add_mul, add_comm (1 : K)]
      exact hlt

theorem keeps_run (hinterval : s.settings.emitInterval = some i) (hi : 0 < i)
    (hs : s.timer = 0) (rs : List (Request K)) : Keeps i s rs := by
  induction rs using List.reverseRecOn with
  | nil =>
    have htimer : (s.after []).timer = 0 := hs
    exact ⟨by rw [htimer]; simp [elapsed, due, framesOf], htimer.ge, htimer.trans_lt hi⟩
  | append_singleton rs r ih => exact ih.concat hinterval hi r

theorem Keeps.due_eq (h : Keeps i s rs) (hi : 0 < i) : due i s rs = dueBy i (s.elapsed rs) := by
  symm
  apply dueBy_eq hi
  · rw [h.elapsed_eq]
    exact le_add_of_nonneg_right h.nonneg
  · rw [h.elapsed_eq, add_one_mul]
    exact add_lt_add_right h.lt _

theorem timed_eq_due (hinterval : s.settings.emitInterval = some i) (hi : 0 < i)
    (hs : s.timer = 0) (hcap : Uncapped i s rs) : s.timed rs = due i s rs := by
  induction rs using List.reverseRecOn with
  | nil => rfl
  | append_singleton rs r ih =>
    obtain ⟨hrun, hlast⟩ := uncapped_concat.mp hcap
    rw [timed_concat, due_concat, ih hrun]
    cases hstep : (s.after rs).timeStep? r with
    | none => rfl
    | some dt =>
      have hemit := (keeps_run hinterval hi hs rs).emit_eq hinterval hi (nonneg_of_timeStep hstep)
      simp only [Option.map_some, Option.getD_some, hemit, min_eq_left (hlast dt hstep)]

/-- Emission does not depend on how time is cut into frames. A run in which no frame is short of
places lets in one particle for each whole interval of the time elapsed, so that runs of the same
length let in equally many. In any run a frame adds as many as are due, up to the cap, and no others
if none was asked for; it takes the intervals that were due off the timer, the dropped ones included,
and so leaves the same time on it as under any other cap, which is what the time elapsed leaves over
its whole intervals. -/
theorem emission_ignores_partition (d : Option (Definition K)) (settings : Settings K)
    (hinterval : settings.emitInterval = some i) (hi : 0 < i) (rs : List (Request K)) :
    let start := ofDefinition d settings
    let s := start.after rs
    (∀ dts : List K, (∀ dt ∈ dts, 0 ≤ dt) → start.elapsed (dts.map .frame) = dts.sum) ∧
      (Uncapped i start rs → start.timed rs = ⌊start.elapsed rs / i⌋₊) ∧
      (∀ rs', Uncapped i start rs → Uncapped i start rs' →
        start.elapsed rs = start.elapsed rs' → start.timed rs = start.timed rs') ∧
      ∀ x ∈ s.askedStep? r, ∃ f s' k, s.answer r = (.drawn f, s') ∧
        f.spawned = (s.advanced (validStep x)).1.spawned ++ (s.emitted (validStep x)).1 ∧
        (s.emitted (validStep x)).1.length = (s.pending.toNat + k) % 2 ^ 64 ∧
        (s.pending = 0 → settings.maxSpawnsPerFrame < 2 ^ 64 →
          (s.emitted (validStep x)).1.length = k) ∧
        start.timed (rs ++ [r]) = start.timed rs + k ∧
        k = min (dueBy i (s.timer + validStep x)) settings.maxSpawnsPerFrame ∧
        s.timer + validStep x = dueBy i (s.timer + validStep x) * i + s'.timer ∧
        start.elapsed (rs ++ [r]) = ⌊start.elapsed (rs ++ [r]) / i⌋₊ * i + s'.timer ∧
        0 ≤ s'.timer ∧ s'.timer < i ∧
        ∀ cap, ({ s with settings := { s.settings with
          maxSpawnsPerFrame := cap } }.answer r).2.timer = s'.timer := by
  intro start s
  have hkeeps (rs : List (Request K)) : Keeps i start rs := keeps_run hinterval hi rfl rs
  have htimed (rs : List (Request K)) (h : Uncapped i start rs) :
      start.timed rs = ⌊start.elapsed rs / i⌋₊ :=
    (timed_eq_due hinterval hi rfl h).trans ((hkeeps rs).due_eq hi)
  refine ⟨fun dts h ↦ elapsed_frames start h, htimed rs, ?_, ?_⟩
  · intro rs' h h' helapsed
    rw [htimed rs h, htimed rs' h', helapsed]
  · intro x hx
    have hstep := timeStep_of_asked hx
    have hdt := validStep_nonneg x
    obtain ⟨f, s', hanswer, hspawned, hlength, htimer⟩ :=
      (current_after d settings rs).answer_of_asked hx
    have hemit := (hkeeps rs).emit_eq hinterval hi hdt
    have hlast := hkeeps (rs ++ [r])
    have hnext : start.after (rs ++ [r]) = s' := after_concat.trans (congrArg Prod.snd hanswer)
    have hrest := hlast.elapsed_eq
    rw [hlast.due_eq hi, hnext] at hrest
    have hcount : (s.emit (validStep x)).1 =
        min (dueBy i (s.timer + validStep x)) settings.maxSpawnsPerFrame := congrArg Prod.fst hemit
    refine ⟨f, s', _, hanswer, hspawned, hlength, ?_, ?_, hcount, ?_, hrest, hnext ▸ hlast.nonneg,
      hnext ▸ hlast.lt, ?_⟩
    · intro hnone hcap
      have hfits : (s.emit (validStep x)).1 < 2 ^ 64 :=
        (hcount.trans_le (min_le_right _ _)).trans_lt hcap
      rw [hlength, hnone, UInt64.toNat_zero, Nat.zero_add, Nat.mod_eq_of_lt hfits]
    · rw [timed_concat, hstep, Option.map_some, Option.getD_some]
    · rw [htimer, hemit]
      exact (add_sub_cancel _ _).symm
    · intro cap
      set s₁ : Scene K := { s with settings := { s.settings with maxSpawnsPerFrame := cap } }
      have hstep₁ : s₁.timeStep? r = some (validStep x) := hstep
      have hinterval₁ : s₁.settings.emitInterval = some i :=
        (start.emitSettings_after rs).1.trans hinterval
      have hsum : 0 ≤ s.timer + validStep x := add_nonneg (hkeeps rs).nonneg hdt
      rw [timer_of_timeStep hstep₁, emit_of_pos hinterval₁ hi, emission_eq hi hsum, htimer, hemit]
      rfl

theorem emission_ignores_partition_of_capped :
    letI := byHalfTangent
    let settings : Settings ℚ :=
      { (default : Settings ℚ) with emitInterval := some (1 / 2), maxSpawnsPerFrame := 2 }
    let start := ofDefinition none settings
    let rs : List (Request ℚ) := [.frame (1 / 3), .frame (5 / 12)]
    let s := start.after rs
    settings.emitInterval = some (1 / 2) ∧ (0 : ℚ) < 1 / 2 ∧ Uncapped (1 / 2) start rs ∧
      Uncapped (1 / 2) start [.frame (3 / 4)] ∧
      start.elapsed rs = 3 / 4 ∧ start.timed rs = 1 ∧ start.timed [.frame (3 / 4)] = 1 ∧
      2 ∈ s.askedStep? (.frame 2) ∧ (s.frame 2).1.spawned = [1, 2] ∧
      start.timed (rs ++ [.frame 2]) = 3 ∧ (s.frame 2).2.timer = 1 / 4 := by
  let _ := byHalfTangent
  intro settings start rs s
  have hi : (0 : ℚ) < 1 / 2 := by norm_num
  have hcap : Uncapped (1 / 2) start rs := by
    unfold Uncapped
    decide +kernel
  have hcap' : Uncapped (1 / 2) start [.frame (3 / 4)] := by
    unfold Uncapped
    decide +kernel
  have hasked : 2 ∈ s.askedStep? (.frame 2) := by decide +kernel
  obtain ⟨helapsed, htimed, hsame, hlast⟩ :=
    emission_ignores_partition (r := .frame 2) none settings rfl hi rs
  have hparts : start.elapsed rs = 3 / 4 :=
    (helapsed [1 / 3, 5 / 12] (by norm_num)).trans (by norm_num)
  have hwhole : start.elapsed [.frame (3 / 4)] = 3 / 4 :=
    (helapsed [3 / 4] (by norm_num)).trans (by norm_num)
  have hone : start.timed rs = 1 := by
    rw [htimed hcap, hparts]
    norm_num
  obtain ⟨f, s', k, hanswer, -, -, -, hcount, hk, hrest, -⟩ := hlast 2 hasked
  obtain ⟨-, rfl⟩ := Prod.mk.inj ((s.answer_frame _).symm.trans hanswer)
  have htimer : s.timer = 1 / 4 := by decide +kernel
  have hdue : dueBy (1 / 2 : ℚ) (s.timer + validStep 2) = 4 := by decide +kernel
  have hvalid : validStep (2 : ℚ) = 2 := by decide +kernel
  refine ⟨rfl, hi, hcap, hcap', hparts, hone, ?_, hasked, by decide +kernel, ?_, ?_⟩
  · rw [← hsame _ hcap hcap' (hparts.trans hwhole.symm), hone]
  · rw [hcount, hone, hk, hdue]
    rfl
  · rw [hdue, htimer, hvalid] at hrest
    linarith

end Scene

end BranchStream
