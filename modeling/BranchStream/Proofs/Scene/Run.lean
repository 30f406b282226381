import BranchStream.Proofs.Turtle.Memory
import BranchStream.Scene.Request

namespace BranchStream

variable {α : Type}

def Reply.frame? : Reply α → Option (Frame α)
  | .drawn frame => some frame
  | _ => none

def Request.isFrame : Request α → Bool
  | .frame _ | .tick _ => true
  | _ => false

namespace Scene

section

variable [Scalar α] (s : Scene α)

def word : Word := (s.expander.expand s.iterations).1

def rebuilds : Bool := !s.interpreter.remembers s.word s.modifiers

def retired : List Nat := if s.rebuilds then s.swarm.ids else []

def kept : Swarm α := if s.rebuilds then s.swarm.clear.2 else s.swarm

/-- How long the frame is that a request asks for, if it asks for one. -/
def timeStep? : Request α → Option α
  | .frame dt => some (validStep dt)
  | .tick now => some (validStep (s.clock.read now).1)
  | _ => none

theorem exists_timeStep {r : Request α} (h : r.isFrame = true) :
    ∃ dt, s.timeStep? r = some dt := by
  cases r with
  | frame dt => exact ⟨_, rfl⟩
  | tick now => exact ⟨_, rfl⟩
  | _ => cases h

theorem timeStep?_of_not_isFrame {r : Request α} (h : r.isFrame = false) :
    s.timeStep? r = none := by
  cases r with
  | frame dt => cases h
  | tick now => cases h
  | _ => rfl

theorem validStep_validStep (dt : α) : validStep (validStep dt) = validStep dt := by
  by_cases h : Scalar.isFinite dt ∧ 0 ≤ dt
  · rw [validStep, validStep, if_pos h, if_pos h]
  · rw [validStep, validStep, if_neg h, ite_self]

theorem validStep_of_timeStep {s : Scene α} {r : Request α} {dt : α}
    (h : s.timeStep? r = some dt) : validStep dt = dt := by
  cases r with
  | frame dt' =>
    cases h
    exact validStep_validStep dt'
  | tick now =>
    cases h
    exact validStep_validStep _
  | _ => cases h

theorem setModifiers_cases (m : Modifiers α) :
    (s.setModifiers m = .ok { s with modifiers := m } ∧
      Scalar.isFinite m.angle = true ∧ Scalar.isFinite m.growth = true) ∨
      ∃ fault, s.setModifiers m = .error fault := by
  unfold setModifiers
  cases h : requireFinite [("angleModifier", m.angle), ("growthModifier", m.growth)] with
  | ok u =>
    have hfinite := requireFinite_eq_ok_iff.mp h
    exact .inl ⟨rfl, hfinite _ List.mem_cons_self,
      hfinite _ (List.mem_cons_of_mem _ List.mem_cons_self)⟩
  | error fault => exact .inr ⟨fault, rfl⟩

end

theorem setIterations_cases (s : Scene α) (n : Int) :
    (∃ k, s.setIterations n = .ok { s with iterations := k }) ∨
      ∃ fault, s.setIterations n = .error fault := by
  unfold setIterations
  split
  · exact .inl ⟨_, rfl⟩
  · exact .inr ⟨_, rfl⟩

theorem ofDrawn_eq (drawn : Frame α × Scene α) : ofDrawn drawn = (.drawn drawn.1, drawn.2) := rfl

variable [Elementary α] (s : Scene α)

def shown : Tree (Turtle α) := (s.interpreter.interpret s.word s.modifiers).1

def advanced (dt : α) : Swarm.Report × Swarm α := s.kept.advance s.shown dt

/-- How many particles enter at the root. -/
def arrivals (dt : α) : Nat := (s.pending + .ofNat (s.emit dt).1).toNat

def emitted (dt : α) : List Nat × Swarm α :=
  (s.advanced dt).2.spawnAtRoot s.shown (s.arrivals dt)

def after (rs : List (Request α)) : Scene α := (s.run rs).2

def frames (rs : List (Request α)) : List (Frame α) := (s.run rs).1.filterMap Reply.frame?

theorem frame_eq (dt : α) : s.frame dt =
    ({ spawned := (s.advanced (validStep dt)).1.spawned ++ (s.emitted (validStep dt)).1
       died := s.retired ++ (s.advanced (validStep dt)).1.died
       rebuilt := s.rebuilds
       shapes := draw s.settings.view s.shown (s.emitted (validStep dt)).2 },
      { s with
        expander := (s.expander.expand s.iterations).2
        interpreter := (s.interpreter.interpret s.word s.modifiers).2
        swarm := (s.emitted (validStep dt)).2
        pending := 0
        timer := (s.emit (validStep dt)).2 }) := by
  cases h : s.rebuilds with
  | false =>
    have h' : s.interpreter.remembers s.word s.modifiers = true := by simpa [rebuilds] using h
    have hw : (s.expander.expand s.iterations).1 = s.word := rfl
    simp only [frame, emitted, arrivals, advanced, kept, retired, h, hw, h', Bool.not_true,
      Bool.false_eq_true, if_false]
    rfl
  | true =>
    have h' : s.interpreter.remembers s.word s.modifiers = false := by simpa [rebuilds] using h
    have hw : (s.expander.expand s.iterations).1 = s.word := rfl
    simp only [frame, emitted, arrivals, advanced, kept, retired, h, hw, h', Bool.not_false, if_true]
    rfl

theorem tree?_frame (dt : α) : (s.frame dt).2.tree? = some s.shown := by
  rw [frame_eq]
  exact s.interpreter.lastTree_interpret _ _

theorem frame_validStep (dt : α) : s.frame (validStep dt) = s.frame dt := by
  rw [frame_eq, frame_eq, validStep_validStep]

theorem tick_eq (now : Nat) : s.tick now =
    ((s.frame (s.clock.read now).1).1,
      { (s.frame (s.clock.read now).1).2 with clock := ⟨some now⟩ }) := by
  have htick : s.tick now = { s with clock := ⟨some now⟩ }.frame (s.clock.read now).1 := rfl
  rw [htick, frame_eq, frame_eq]
  rfl

theorem answer_frame (dt : α) :
    s.answer (.frame dt) = (.drawn (s.frame dt).1, (s.frame dt).2) := by
  rw [answer, ofDrawn_eq]

theorem frame_eq_of_answer {s' : Scene α} {f : Frame α} {dt : α}
    (h : s.answer (.frame dt) = (.drawn f, s')) : (s.frame dt).1 = f ∧ (s.frame dt).2 = s' := by
  obtain ⟨hframe, hstate⟩ := Prod.mk.inj ((s.answer_frame dt).symm.trans h)
  exact ⟨Reply.drawn.inj hframe, hstate⟩

theorem answer_of_timeStep {s : Scene α} {r : Request α} {dt : α} (h : s.timeStep? r = some dt) :
    ∃ clock, s.answer r = (.drawn (s.frame dt).1, { (s.frame dt).2 with clock }) := by
  cases r with
  | frame dt' =>
    cases h
    exact ⟨(s.frame dt').2.clock, by rw [answer, ofDrawn_eq, frame_validStep]⟩
  | tick now =>
    cases h
    exact ⟨⟨some now⟩, by rw [answer, ofDrawn_eq, tick_eq, frame_validStep]⟩
  | _ => cases h

/-- All that a request can do which asks for no frame: it changes an action, or it sets numbers that
the next frame reads. -/
theorem answer_of_quiet {s : Scene α} {r : Request α} (h : s.timeStep? r = none) :
    (s.answer r).1.frame? = none ∧
      ((∃ c a, r = .setAction c a ∧ (s.answer r).2 = s.setAction c a) ∨
        (∀ c a, r ≠ .setAction c a) ∧ ∃ settings iterations modifiers pending,
          (s.answer r).2 = { s with settings, iterations, modifiers, pending } ∧
          (modifiers = s.modifiers ∨
            Scalar.isFinite modifiers.angle = true ∧ Scalar.isFinite modifiers.growth = true)) := by
  cases r with
  | frame dt => cases h
  | tick now => cases h
  | setAction c a => exact ⟨rfl, .inl ⟨c, a, rfl, rfl⟩⟩
  | spawn => exact ⟨rfl, .inr ⟨nofun, _, _, _, _, rfl, .inl rfl⟩⟩
  | setView v => exact ⟨rfl, .inr ⟨nofun, _, _, _, _, rfl, .inl rfl⟩⟩
  | setIterations n =>
    rw [answer]
    rcases s.setIterations_cases n with ⟨k, hk⟩ | ⟨fault, hf⟩
    · rw [hk]
      exact ⟨rfl, .inr ⟨nofun, _, _, _, _, rfl, .inl rfl⟩⟩
    · rw [hf]
      exact ⟨rfl, .inr ⟨nofun, _, _, _, _, rfl, .inl rfl⟩⟩
  | setModifiers m =>
    rw [answer]
    rcases s.setModifiers_cases m with ⟨hm, hfinite⟩ | ⟨fault, hf⟩
    · rw [hm]
      exact ⟨rfl, .inr ⟨nofun, _, _, _, _, rfl, .inr hfinite⟩⟩
    · rw [hf]
      exact ⟨rfl, .inr ⟨nofun, _, _, _, _, rfl, .inl rfl⟩⟩

theorem swarm_of_quiet {s : Scene α} {r : Request α} (h : s.timeStep? r = none) :
    (s.answer r).2.swarm = s.swarm := by
  rcases (answer_of_quiet h).2 with ⟨c, a, -, hs⟩ | ⟨-, _, _, _, _, hs, -⟩
  · rw [hs]
    rfl
  · rw [hs]

variable {s} {rs : List (Request α)} {r : Request α}

theorem run_append (rs₁ rs₂ : List (Request α)) : s.run (rs₁ ++ rs₂) =
    ((s.run rs₁).1 ++ ((s.after rs₁).run rs₂).1, ((s.after rs₁).run rs₂).2) := by
  induction rs₁ generalizing s with
  | nil => rfl
  | cons r rs₁ ih =>
    simp only [List.cons_append, run, after, ih]

theorem after_append (rs₁ rs₂ : List (Request α)) :
    s.after (rs₁ ++ rs₂) = (s.after rs₁).after rs₂ := by
  rw [after, run_append]
  rfl

theorem after_concat : s.after (rs ++ [r]) = ((s.after rs).answer r).2 := after_append rs [r]

theorem frames_concat : s.frames (rs ++ [r]) =
    s.frames rs ++ ((s.after rs).answer r).1.frame?.toList := by
  rw [frames, run_append, List.filterMap_append]
  rfl

theorem after_induction {P : Scene α → Prop} (start : P s)
    (step : ∀ s r, P s → P (s.answer r).2) (rs : List (Request α)) : P (s.after rs) := by
  induction rs generalizing s with
  | nil => exact start
  | cons r rs ih => exact ih (step s r start)

end Scene

end BranchStream
