import BranchStream.Proofs.Scene.Rebuild
import BranchStream.Proofs.Turtle.History

namespace BranchStream

namespace Interpreter

section

variable {α : Type}

def Call.asked (before : Option (Word × Modifiers α)) : Call α → Option (Word × Modifiers α)
  | .setAction .. | .addStandard | .withActions .. => none
  | .build .. | .remembers .. => before
  | .interpret w m => some (w, m)

/-- The word and the modifiers of the last tree that was asked for since the actions changed. -/
def lastAsked (calls : List (Call α)) : Option (Word × Modifiers α) := calls.foldl Call.asked none

theorem lastAsked_concat (calls : List (Call α)) (c : Call α) :
    lastAsked (calls ++ [c]) = c.asked (lastAsked calls) := List.foldl_concat ..

theorem asked_of_remaps {c : Call α} (h : c.remaps = true) (before : Option (Word × Modifiers α)) :
    c.asked before = none := by
  cases c with
  | setAction c a => rfl
  | addStandard => rfl
  | withActions actions => rfl
  | _ => cases h

theorem asked_of_idle {c : Call α} (h : c.remaps = false) (hno : ∀ w m, c ≠ .interpret w m)
    (before : Option (Word × Modifiers α)) : c.asked before = before := by
  cases c with
  | build w m => rfl
  | remembers w m => rfl
  | interpret w m => exact absurd rfl (hno w m)
  | _ => cases h

/-- The tree is that of the word and the modifiers, or of modifiers that equal them. -/
def BuiltFor [Scalar α] (asked : Word × Modifiers α) (b : BuiltTree α) : Prop :=
  b.word = asked.1 ∧ (b.modifiers = asked.2 ∨ (b.modifiers == asked.2) = true)

theorem BuiltFor.beq_eq [Scalar α] [PartialEquivBEq α] {asked : Word × Modifiers α}
    {b : BuiltTree α} (h : BuiltFor asked b) (m : Modifiers α) :
    (b.modifiers == m) = (asked.2 == m) := by
  rcases h.2 with hsame | hequal
  · rw [hsame]
  · exact BEq.congr_left hequal

end

variable {α : Type} [Elementary α] {i : Interpreter α} {calls : List (Call α)}

/-- Once the actions have changed, an interpreter remembers what it was asked for last since then,
whatever it remembered before. -/
theorem remembered_after (i : Interpreter α) (h : ∃ c ∈ calls, c.remaps = true) :
    (i.after calls).Faithful ∧ Option.Rel BuiltFor (lastAsked calls) (i.after calls).last := by
  induction calls using List.reverseRecOn with
  | nil => exact absurd h (by simp)
  | append_singleton calls c ih =>
    rw [after_concat, lastAsked_concat]
    have hbefore (hc : c.remaps = false) : ∃ c ∈ calls, c.remaps = true := by
      simpa [hc] using h
    rcases (i.after calls).perform_cases c with ⟨hc, hp⟩ | ⟨hc, w, m, rfl, hp⟩ | ⟨hc, hno, hp⟩
    · rw [hp, asked_of_remaps hc]
      exact ⟨faithful_of_last_eq_none rfl, .none⟩
    · have hfaithful := (ih (hbefore hc)).1
      obtain ⟨b, hb, -, hword, hmodifiers⟩ := hfaithful.interpret w m
      refine ⟨hfaithful.perform _, ?_⟩
      rw [hp, hb]
      exact .some ⟨hword, hmodifiers⟩
    · rw [hp, asked_of_idle hc hno]
      exact ih (hbefore hc)

theorem remembers_after_iff [PartialEquivBEq α] (i : Interpreter α)
    (h : ∃ c ∈ calls, c.remaps = true) (w : Word) (m : Modifiers α) :
    (i.after calls).remembers w m = true ↔
      ∃ m', lastAsked calls = some (w, m') ∧ (m' == m) = true := by
  have hrel := (remembered_after i h).2
  rw [remembers_eq_true_iff]
  generalize lastAsked calls = asked, (i.after calls).last = last at hrel
  cases hrel with
  | none => simp
  | @some asked b hbuilt =>
    obtain ⟨w', m'⟩ := asked
    constructor
    · rintro ⟨_, hb, hm, rfl⟩
      obtain rfl := Option.some.inj hb
      exact ⟨m', by rw [hbuilt.1], hbuilt.beq_eq m ▸ hm⟩
    · rintro ⟨_, hasked, hm⟩
      obtain ⟨rfl, rfl⟩ := Prod.mk.inj (Option.some.inj hasked)
      exact ⟨b, rfl, (hbuilt.beq_eq m).trans hm, hbuilt.1⟩

end Interpreter

namespace Scene

/-- What can be done with a scene: it is asked for something, or its interpreter is called
directly. -/
inductive Event (α : Type) where
  | request (r : Request α)
  | call (c : Interpreter.Call α)

variable {α : Type}

namespace Event

def isFrame : Event α → Bool
  | .request r => r.isFrame
  | .call _ => false

def call? : Event α → Option (Interpreter.Call α)
  | .request (.setAction c a) => some (.setAction c a)
  | .request _ => none
  | .call c => some c

end Event

variable [Elementary α]

def handle (s : Scene α) : Event α → Scene α
  | .request r => (s.answer r).2
  | .call c => { s with interpreter := s.interpreter.perform c }

def handleAll (s : Scene α) (es : List (Event α)) : Scene α := es.foldl handle s

theorem handle_of_quiet (s : Scene α) {e : Event α} (he : e.isFrame = false) :
    (s.handle e).interpreter = s.interpreter.after e.call?.toList ∧
      (s.handle e).swarm = s.swarm := by
  cases e with
  | call c => exact ⟨rfl, rfl⟩
  | request r =>
    have hnone : s.timeStep? r = none := timeStep?_of_not_isFrame s he
    refine ⟨?_, swarm_of_quiet hnone⟩
    rw [handle]
    rcases (answer_of_quiet hnone).2 with ⟨c, a, rfl, hs⟩ | ⟨hno, _, _, _, _, hs, -⟩
    · rw [hs]
      rfl
    · have hcall : (Event.request r).call? = none := by
        cases r with
        | setAction c a => exact absurd rfl (hno c a)
        | _ => rfl
      rw [hs, hcall]
      rfl

theorem handleAll_of_quiet (s : Scene α) {es : List (Event α)}
    (h : ∀ e ∈ es, e.isFrame = false) :
    (s.handleAll es).interpreter = s.interpreter.after (es.filterMap Event.call?) ∧
      (s.handleAll es).swarm = s.swarm := by
  induction es generalizing s with
  | nil => exact ⟨rfl, rfl⟩
  | cons e es ih =>
    obtain ⟨he, hes⟩ := List.forall_mem_cons.mp h
    obtain ⟨hinterpreter, hswarm⟩ := s.handle_of_quiet he
    obtain ⟨hinterpreter', hswarm'⟩ := ih (s.handle e) hes
    refine ⟨?_, hswarm'.trans hswarm⟩
    rw [handleAll, List.foldl_cons, ← handleAll, hinterpreter', hinterpreter]
    cases hcall : e.call? with
    | none => rw [List.filterMap_cons_none hcall]; rfl
    | some c => rw [List.filterMap_cons_some hcall]; rfl

/-- When a change of the actions goes unnoticed. Among what is done between two frames, let the
actions change, in whatever way and order. The next frame rebuilds the tree, unless the last tree
that was asked for since then is that of its own word and of modifiers equal to its own. If it does
rebuild, it retires all particles, and those that are live afterwards have entered in it; if it does
not, they go on along a tree that was built under the changed actions. -/
theorem remap_unnoticed_iff (s : Scene Float32) (es : List (Event Float32))
    (hquiet : ∀ e ∈ es, e.isFrame = false)
    (hremap : ∃ c ∈ es.filterMap Event.call?, c.remaps = true) (r : Request Float32) :
    let s' := s.handleAll es
    ∀ dt ∈ s'.timeStep? r, ∃ f s'' t, s'.answer r = (.drawn f, s'') ∧ s''.tree? = some t ∧
      (f.rebuilt = false ↔ ∃ m, Interpreter.lastAsked (es.filterMap Event.call?) =
        some (s'.word, m) ∧ (m == s'.modifiers) = true) ∧
      (f.rebuilt = true → f.died = s.swarm.ids ∧ s''.swarm.ids = f.spawned) ∧
      (f.rebuilt = false → f.died = s.swarm.dying t dt ∧
        s.swarm.survivors t dt <+: s''.swarm.particles ∧
        ∃ m, (m == s'.modifiers) = true ∧ t = s'.interpreter.build s'.word m) := by
  intro s' dt hdt
  obtain ⟨clock, hanswer⟩ := answer_of_timeStep hdt
  obtain ⟨hinterpreter, hswarm⟩ := s.handleAll_of_quiet hquiet
  have hvalid : validStep dt = dt := validStep_of_timeStep hdt
  have hrebuilt : (s'.frame dt).1.rebuilt = s'.rebuilds := by rw [frame_eq]
  refine ⟨_, _, s'.shown, hanswer, tree?_frame _ dt, ?_, ?_, ?_⟩
  · rw [hrebuilt, rebuilds, Bool.not_eq_false', hinterpreter]
    exact Interpreter.remembers_after_iff _ hremap _ _
  · rw [hrebuilt]
    intro h
    rw [← hswarm]
    exact ⟨(frame_of_rebuilds h dt).1, (spawned_of_rebuilds h dt).symm⟩
  · rw [hrebuilt]
    intro h
    rw [← hswarm]
    obtain ⟨hdied, hparticles⟩ := frame_of_not_rebuilds h dt
    rw [hvalid] at hdied hparticles
    refine ⟨hdied, hparticles, ?_⟩
    rw [rebuilds, Bool.not_eq_false'] at h
    obtain ⟨b, hb, hm, hw, hi⟩ := Interpreter.interpret_of_remembers h
    refine ⟨b.modifiers, hm, ?_⟩
    have hfaithful := (Interpreter.remembered_after s.interpreter hremap).1
    rw [← hinterpreter] at hfaithful
    rw [shown, hi, ← hw]
    exact hfaithful b hb

theorem remap_unnoticed_iff_of_earlier :
    let s := (ofDefinition none (default : Settings Float32)).after [.spawn, .frame 0]
    let es : List (Event Float32) :=
      [.call (.interpret ['L'] default), .request .spawn, .call (.setAction 'L' .forward),
        .call (.interpret ['F'] default)]
    let s' := s.handleAll es
    (∀ e ∈ es, e.isFrame = false) ∧ (∃ c ∈ es.filterMap Event.call?, c.remaps = true) ∧
      0 ∈ s'.timeStep? (.frame 0) ∧ s'.word = ['L'] ∧ s.swarm.ids = [0] ∧
      (s'.frame 0).1.rebuilt = true ∧ (s'.frame 0).1.died = [0] ∧
      (s'.frame 0).2.swarm.ids = (s'.frame 0).1.spawned := by
  intro s es s'
  have hquiet : ∀ e ∈ es, e.isFrame = false := by simp [es, Event.isFrame, Request.isFrame]
  have hremap : ∃ c ∈ es.filterMap Event.call?, c.remaps = true :=
    ⟨.setAction 'L' .forward, by simp [es, Event.call?], rfl⟩
  have hstep : 0 ∈ s'.timeStep? (.frame 0) := by decide +kernel
  have hword : s'.word = ['L'] := by decide +kernel
  have hlive : s.swarm.ids = [0] := by decide +kernel
  obtain ⟨f, s'', t, hanswer, -, hiff, hrebuild, -⟩ :=
    remap_unnoticed_iff s es hquiet hremap (.frame 0) 0 hstep
  obtain ⟨rfl, rfl⟩ := s'.frame_eq_of_answer hanswer
  have hrebuilt : (s'.frame 0).1.rebuilt = true := by
    rw [← Bool.not_eq_false, hiff, hword]
    rintro ⟨m, hasked, -⟩
    have hsame : ['F'] = ['L'] := congrArg Prod.fst (Option.some.inj hasked)
    exact absurd hsame (by decide)
  obtain ⟨hdied, hids⟩ := hrebuild hrebuilt
  exact ⟨hquiet, hremap, hstep, hword, hlive, hrebuilt, hdied.trans hlive, hids⟩

/-- The word of a scene is read anew behind the next frame's back, right after an action of it was
changed: the frame finds its tree remembered, and the particle that has set out on a tree of one node
goes on along a tree of two. -/
theorem remap_goes_unnoticed :
    let s := (ofDefinition none (default : Settings Float32)).after [.spawn, .frame 0]
    let s' := s.handleAll
      [.call (.setAction 'L' .forward), .call (.interpret ['L'] default)]
    s'.answer (.frame 0) = (.drawn (s'.frame 0).1, (s'.frame 0).2) ∧
      s.tree?.map Tree.size = some 1 ∧ s.swarm.ids = [0] ∧
      s'.interpreter.remembers ['L'] default = true ∧
      (s'.frame 0).1.rebuilt = false ∧ (s'.frame 0).1.died = [] ∧
      (s'.frame 0).2.tree?.map Tree.size = some 2 ∧ (s'.frame 0).2.swarm.ids = [0] := by
  intro s s'
  exact ⟨s'.answer_frame 0, by decide +kernel, by decide +kernel, by decide +kernel,
    by decide +kernel, by decide +kernel, by decide +kernel, by decide +kernel⟩

end Scene

end BranchStream
