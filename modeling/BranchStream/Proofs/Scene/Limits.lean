import BranchStream.Proofs.Scene.Remapping

namespace BranchStream

variable {α : Type}

def Reply.isRefused : Reply α → Bool
  | .refused _ => true
  | _ => false

namespace Scene

/-- The number of passes stays within the greatest one that the scene was set up with. -/
structure Limited (max : Nat) (s : Scene α) : Prop where
  max_eq : s.settings.maxIterations = max
  iterations_le : s.iterations ≤ max

theorem limited_ofDefinition [Scalar α] (d : Option (Definition α)) (settings : Settings α) :
    (ofDefinition d settings).Limited settings.maxIterations :=
  ⟨rfl, Nat.min_le_right _ _⟩

variable [Elementary α] {s : Scene α} {e : Event α}

theorem answer_setIterations (s : Scene α) (n : Int) : s.answer (.setIterations n) =
    if 0 ≤ n ∧ n ≤ s.settings.maxIterations then (.done, { s with iterations := n.toNat })
    else (.refused (.iterationsOutside n s.settings.maxIterations), s) := by
  rw [answer, setIterations]
  split <;> rfl

theorem answer_setModifiers (s : Scene α) (m : Modifiers α) : s.answer (.setModifiers m) =
    if Scalar.isFinite m.angle then
      if Scalar.isFinite m.growth then (.done, { s with modifiers := m })
      else (.refused (.notFinite "growthModifier"), s)
    else (.refused (.notFinite "angleModifier"), s) := by
  rw [answer, setModifiers, requireFinite, requireFinite, requireFinite]
  split
  · split <;> rfl
  · rfl

theorem Limited.answer {max : Nat} (h : s.Limited max) (r : Request α) :
    (s.answer r).2.Limited max := by
  cases r with
  | frame dt =>
    rw [answer_frame, frame_eq]
    exact ⟨h.max_eq, h.iterations_le⟩
  | tick now =>
    rw [Scene.answer, ofDrawn_eq, tick_eq, frame_eq]
    exact ⟨h.max_eq, h.iterations_le⟩
  | setIterations n =>
    rw [answer_setIterations]
    split
    · rename_i hn
      have hmax := h.max_eq
      have hle : n.toNat ≤ max := by omega
      exact ⟨hmax, hle⟩
    · exact h
  | setModifiers m =>
    rw [answer_setModifiers]
    split
    · split
      · exact ⟨h.max_eq, h.iterations_le⟩
      · exact h
    · exact h
  | spawn | setView | setAction => exact ⟨h.max_eq, h.iterations_le⟩

theorem handleAll_induction {P : Scene α → Prop} (start : P s)
    (step : ∀ s e, P s → P (s.handle e)) (es : List (Event α)) : P (s.handleAll es) := by
  induction es generalizing s with
  | nil => exact start
  | cons e es ih => exact ih (step s e start)

theorem limited_handleAll (d : Option (Definition α)) (settings : Settings α)
    (es : List (Event α)) :
    ((ofDefinition d settings).handleAll es).Limited settings.maxIterations := by
  refine handleAll_induction (limited_ofDefinition d settings) (fun s e h ↦ ?_) es
  cases e with
  | request r => exact h.answer r
  | call c => exact ⟨h.max_eq, h.iterations_le⟩

theorem modifiers_answer (s : Scene α) (r : Request α) :
    (s.answer r).2.modifiers = s.modifiers ∨
      Scalar.isFinite (s.answer r).2.modifiers.angle = true ∧
        Scalar.isFinite (s.answer r).2.modifiers.growth = true := by
  cases h : s.timeStep? r with
  | some dt =>
    obtain ⟨clock, hanswer⟩ := answer_of_timeStep h
    rw [hanswer, frame_eq]
    exact .inl rfl
  | none =>
    rcases (answer_of_quiet h).2 with ⟨c, a, -, hs⟩ | ⟨-, _, _, _, _, hs, hm⟩
    · rw [hs]
      exact .inl rfl
    · rw [hs]
      exact hm

theorem modifiers_handleAll (d : Option (Definition Float32)) (settings : Settings Float32)
    (es : List (Event Float32)) :
    let m := ((ofDefinition d settings).handleAll es).modifiers
    m.angle.isFinite = true ∧ m.growth.isFinite = true := by
  have hstart : (ofDefinition d settings).modifiers.angle.isFinite = true ∧
      (ofDefinition d settings).modifiers.growth.isFinite = true := by
    have hone : (One.one : Float32).isFinite = true := by decide +kernel
    exact ⟨hone, hone⟩
  refine handleAll_induction (P := fun s ↦ s.modifiers.angle.isFinite = true ∧
    s.modifiers.growth.isFinite = true) hstart (fun s e h ↦ ?_) es
  cases e with
  | request r =>
    rcases s.modifiers_answer r with hsame | hfinite
    · rw [← hsame] at h
      exact h
    · exact hfinite
  | call c => exact h

def reply? (s : Scene α) : Event α → Option (Reply α)
  | .request r => some (s.answer r).1
  | .call _ => none

def refuses (s : Scene α) (e : Event α) : Bool := (s.reply? e).any Reply.isRefused

def replies : Scene α → List (Event α) → List (Reply α)
  | _, [] => []
  | s, e :: es => (s.reply? e).toList ++ replies (s.handle e) es

/-- The events without those that are refused when their turn comes. -/
def granted : Scene α → List (Event α) → List (Event α)
  | _, [] => []
  | s, e :: es => if s.refuses e then granted (s.handle e) es else e :: granted (s.handle e) es

theorem handle_of_refuses (h : s.refuses e = true) : s.handle e = s := by
  cases e with
  | call c => cases h
  | request r =>
    cases r with
    | setIterations n =>
      rw [refuses, reply?, answer_setIterations] at h
      rw [handle, answer_setIterations]
      split at h
      · cases h
      · rename_i hn
        rw [if_neg hn]
    | setModifiers m =>
      rw [refuses, reply?, answer_setModifiers] at h
      rw [handle, answer_setModifiers]
      split at h
      · rename_i hangle
        split at h
        · cases h
        · rename_i hgrowth
          rw [if_pos hangle, if_neg hgrowth]
      · rename_i hangle
        rw [if_neg hangle]
    | frame dt =>
      rw [refuses, reply?, answer_frame] at h
      cases h
    | tick now =>
      rw [refuses, reply?, answer, ofDrawn_eq] at h
      cases h
    | spawn | setView | setAction => cases h

theorem handleAll_granted (s : Scene α) (es : List (Event α)) :
    s.handleAll (s.granted es) = s.handleAll es := by
  induction es generalizing s with
  | nil => rfl
  | cons e es ih =>
    rw [granted]
    split
    · rename_i h
      rw [handle_of_refuses h, ih, handleAll, handleAll, List.foldl_cons, handle_of_refuses h]
    · exact ih (s.handle e)

theorem filter_reply (s : Scene α) (e : Event α) :
    ((s.reply? e).toList.filter fun reply ↦ !reply.isRefused) =
      if s.refuses e then [] else (s.reply? e).toList := by
  rw [refuses]
  cases s.reply? e with
  | none => rfl
  | some reply =>
    rw [Option.any_some, Option.toList_some, List.filter_singleton]
    cases reply.isRefused <;> rfl

theorem replies_granted (s : Scene α) (es : List (Event α)) :
    s.replies (s.granted es) = (s.replies es).filter fun reply ↦ !reply.isRefused := by
  induction es generalizing s with
  | nil => rfl
  | cons e es ih =>
    rw [granted, replies, List.filter_append, filter_reply, ← ih]
    split
    · rename_i h
      rw [handle_of_refuses h, List.nil_append]
    · rw [replies]

/-- Refusals change nothing, and they keep the limits. After any events the number of passes is
within the greatest one, which never changes, and the modifiers are finite; at first these are the
definition's number, brought down to the limit, and one. A number of passes is accepted just if it
is within the limit, two modifiers just if both are finite, and then nothing else changes. The
state after any events, and all replies that are not refusals, are the same if the refused requests
are not made. -/
theorem refusals_change_nothing (d : Option (Definition Float32)) (settings : Settings Float32)
    (es : List (Event Float32)) :
    let start := ofDefinition d settings
    let s := start.handleAll es
    let max := settings.maxIterations
    (start.iterations = min (Definition.loadOrDefault d).iterations max ∧
      start.modifiers = ⟨1, 1⟩) ∧
    (s.settings.maxIterations = max ∧ s.iterations ≤ max ∧
      s.modifiers.angle.isFinite = true ∧ s.modifiers.growth.isFinite = true) ∧
    (∀ n : Int, s.answer (.setIterations n) =
      if 0 ≤ n ∧ n ≤ max then (.done, { s with iterations := n.toNat })
      else (.refused (.iterationsOutside n max), s)) ∧
    (∀ m, s.answer (.setModifiers m) =
      if m.angle.isFinite ∧ m.growth.isFinite then (.done, { s with modifiers := m })
      else
        let quantity := if m.angle.isFinite then "growthModifier" else "angleModifier"
        (.refused (.notFinite quantity), s)) ∧
    start.handleAll (start.granted es) = s ∧
    start.replies (start.granted es) = (start.replies es).filter fun reply ↦ !reply.isRefused := by
  intro start s max
  have hlimited : s.Limited max := limited_handleAll d settings es
  refine ⟨⟨rfl, rfl⟩, ⟨hlimited.max_eq, hlimited.iterations_le, modifiers_handleAll d settings es⟩,
    ?_, ?_, start.handleAll_granted es, start.replies_granted es⟩
  · intro n
    rw [answer_setIterations, hlimited.max_eq]
  · intro m
    have hangle : Scalar.isFinite m.angle = m.angle.isFinite := rfl
    have hgrowth : Scalar.isFinite m.growth = m.growth.isFinite := rfl
    rw [answer_setModifiers, hangle, hgrowth]
    cases m.angle.isFinite <;> cases m.growth.isFinite <;> rfl

end Scene

end BranchStream
