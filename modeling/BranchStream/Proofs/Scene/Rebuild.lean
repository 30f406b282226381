import BranchStream.Proofs.Rewriting.Memory
import BranchStream.Proofs.Scene.Run
import BranchStream.Proofs.Stream.Advance
import BranchStream.Proofs.Turtle.Modifiers
import Mathlib.Data.List.Induction

namespace BranchStream.Scene

section

variable {α : Type}

/-- The request `r₀` asks for the last frame in `rs`, and `rs₁` came after it. -/
structure LastFrame (rs rs₀ : List (Request α)) (r₀ : Request α)
    (rs₁ : List (Request α)) : Prop where
  eq : rs = rs₀ ++ r₀ :: rs₁
  isFrame : r₀.isFrame = true
  quiet : ∀ r ∈ rs₁, r.isFrame = false

theorem exists_lastFrame (rs : List (Request α)) :
    (∀ r ∈ rs, r.isFrame = false) ∨ ∃ rs₀ r₀ rs₁, LastFrame rs rs₀ r₀ rs₁ := by
  induction rs using List.reverseRecOn with
  | nil => exact .inl nofun
  | append_singleton rs r ih =>
    cases hr : r.isFrame with
    | true => exact .inr ⟨rs, r, [], rfl, hr, nofun⟩
    | false =>
      have hconcat {qs : List (Request α)} (hqs : ∀ q ∈ qs, q.isFrame = false) :
          ∀ q ∈ qs ++ [r], q.isFrame = false :=
        List.forall_mem_append.mpr ⟨hqs, List.forall_mem_singleton.mpr hr⟩
      rcases ih with hquiet | ⟨rs₀, r₀, rs₁, rfl, hr₀, hquiet⟩
      · exact .inl (hconcat hquiet)
      · exact .inr ⟨rs₀, r₀, rs₁ ++ [r], by simp, hr₀, hconcat hquiet⟩

variable [Elementary α] {s : Scene α} {rs rs₀ rs₁ : List (Request α)} {r₀ : Request α}

theorem LastFrame.after_eq (h : LastFrame rs rs₀ r₀ rs₁) (s : Scene α) :
    s.after rs = ((s.after rs₀).answer r₀).2.after rs₁ := by
  rw [h.eq, after_append]
  rfl

theorem interpreter_after_of_quiet (h : ∀ r ∈ rs, r.isFrame = false) :
    ((∃ c a, .setAction c a ∈ rs) ∧ (s.after rs).interpreter.last = none) ∨
      (¬ ∃ c a, .setAction c a ∈ rs) ∧ (s.after rs).interpreter = s.interpreter := by
  induction rs using List.reverseRecOn with
  | nil => exact .inr ⟨by simp, rfl⟩
  | append_singleton rs r ih =>
    have hnone : (s.after rs).timeStep? r = none := timeStep?_of_not_isFrame _ (h r (by simp))
    have ih := ih fun q hq ↦ h q (List.mem_append_left _ hq)
    rw [after_concat]
    rcases (answer_of_quiet hnone).2 with ⟨c, a, rfl, hr⟩ | ⟨hno, _, _, _, _, hr, -⟩
    · rw [hr]
      exact .inl ⟨⟨c, a, by simp⟩, rfl⟩
    · rw [hr]
      rcases ih with ⟨⟨c, a, hmem⟩, hlast⟩ | ⟨hnot, hsame⟩
      · exact .inl ⟨⟨c, a, List.mem_append_left _ hmem⟩, hlast⟩
      · refine .inr ⟨?_, hsame⟩
        rintro ⟨c, a, hmem⟩
        rcases List.mem_append.mp hmem with hmem | hmem
        · exact hnot ⟨c, a, hmem⟩
        · exact hno c a (List.mem_singleton.mp hmem).symm

theorem tree?_of_not_rebuilds (h : s.rebuilds = false) : s.tree? = some s.shown := by
  have hremembers : s.interpreter.remembers s.word s.modifiers = true := by
    rwa [rebuilds, Bool.not_eq_false'] at h
  obtain ⟨b, hb, -, -, hi⟩ := Interpreter.interpret_of_remembers hremembers
  rw [tree?, Interpreter.lastTree, hb, Option.map_some, shown, hi]

theorem particles_kept_of_rebuilds (h : s.rebuilds = true) : s.kept.particles = [] := by
  rw [kept, if_pos h, Swarm.clear]

theorem advanced_of_rebuilds (h : s.rebuilds = true) (dt : α) :
    s.advanced dt = (⟨[], []⟩, s.kept) :=
  Swarm.advance_of_eq_nil (particles_kept_of_rebuilds h) s.shown dt

theorem frame_of_rebuilds (h : s.rebuilds = true) (dt : α) :
    (s.frame dt).1.died = s.swarm.ids ∧
      ∀ p ∈ (s.frame dt).2.swarm.particles, p.node = Tree.rootId ∧ p.life = 0 := by
  obtain ⟨rooted, hparticles, -, hrooted⟩ := s.kept.exists_rooted s.shown
    (s.arrivals (validStep dt))
  rw [frame_eq, emitted, advanced_of_rebuilds h, hparticles, particles_kept_of_rebuilds h, retired,
    if_pos h]
  exact ⟨List.append_nil _, hrooted⟩

theorem frame_of_not_rebuilds (h : s.rebuilds = false) (dt : α) :
    (s.frame dt).1.died = s.swarm.dying s.shown (validStep dt) ∧
      s.swarm.survivors s.shown (validStep dt) <+: (s.frame dt).2.swarm.particles := by
  have hkept : s.kept = s.swarm := by simp [kept, h]
  obtain ⟨rooted, hparticles, -⟩ := (s.advanced (validStep dt)).2.exists_rooted s.shown
    (s.arrivals (validStep dt))
  rw [frame_eq, emitted, hparticles, advanced, Swarm.advance_eq, hkept, retired, h]
  exact ⟨rfl, (List.prefix_append _ _).trans (List.prefix_append _ _)⟩

theorem spawned_of_rebuilds (h : s.rebuilds = true) (dt : α) :
    (s.frame dt).1.spawned = (s.frame dt).2.swarm.ids := by
  obtain ⟨rooted, hparticles, hids, -⟩ := s.kept.exists_rooted s.shown
    (s.arrivals (validStep dt))
  rw [frame_eq, Swarm.ids, emitted, advanced_of_rebuilds h, hparticles, hids,
    particles_kept_of_rebuilds h]
  rfl

end

variable {s s₀ : Scene Float32} {g : Grammar} {rs rs₀ rs₁ : List (Request Float32)}
  {r₀ : Request Float32}

structure Synced (g : Grammar) (s : Scene Float32) : Prop where
  expander : s.expander.Faithful g
  interpreter : s.interpreter.Faithful
  modifiers : (s.modifiers == s.modifiers) = true

theorem synced_ofDefinition (d : Option (Definition Float32)) (settings : Settings Float32) :
    (ofDefinition d settings).Synced (Definition.loadOrDefault d).grammar where
  expander := Expander.faithful_ofGrammar _
  interpreter := Interpreter.faithful_of_last_eq_none (Interpreter.last_standard _ _)
  modifiers := by
    have hdefault : ((default : Modifiers Float32) == default) = true := by decide +kernel
    exact hdefault

theorem Synced.word_eq (hs : s.Synced g) : s.word = g.expand s.iterations :=
  (hs.expander.expand s.iterations).1

theorem Synced.frame (hs : s.Synced g) (dt : Float32) :
    ∃ b, (s.frame dt).2.interpreter = { s.interpreter with last := some b } ∧ b.tree = s.shown ∧
      b.tree = s.interpreter.build b.word b.modifiers ∧ b.word = g.expand s.iterations ∧
      (b.modifiers == s.modifiers) = true := by
  obtain ⟨b, hb, htree, hword, hmodifiers⟩ := hs.interpreter.interpret s.word s.modifiers
  refine ⟨b, ?_, ?_, htree, hword.trans hs.word_eq, ?_⟩
  · rw [frame_eq, hb]
  · rw [shown, hb]
  · rcases hmodifiers with h | h
    · rw [h]
      exact hs.modifiers
    · exact h

theorem Synced.answer (hs : s.Synced g) (r : Request Float32) : (s.answer r).2.Synced g := by
  cases h : s.timeStep? r with
  | none =>
    rcases (answer_of_quiet h).2 with ⟨c, a, -, hr⟩ | ⟨-, _, _, m, _, hr, hm⟩
    · rw [hr]
      have hforgotten := Interpreter.faithful_of_last_eq_none (s.interpreter.last_setAction c a)
      exact ⟨hs.expander, hforgotten, hs.modifiers⟩
    · rw [hr]
      refine ⟨hs.expander, hs.interpreter, ?_⟩
      rcases hm with rfl | ⟨hangle, hgrowth⟩
      · exact hs.modifiers
      · exact Modifiers.beq_self_of_isFinite hangle hgrowth
  | some dt =>
    obtain ⟨clock, hanswer⟩ := answer_of_timeStep h
    obtain ⟨b, hb, -, htree, -⟩ := hs.frame dt
    rw [hanswer]
    refine ⟨?_, ?_, ?_⟩
    · rw [frame_eq]
      exact (hs.expander.expand s.iterations).2
    · rw [hb]
      exact Interpreter.faithful_of_last_eq_some rfl htree
    · rw [frame_eq]
      exact hs.modifiers

theorem synced_after (d : Option (Definition Float32)) (settings : Settings Float32)
    (rs : List (Request Float32)) :
    ((ofDefinition d settings).after rs).Synced (Definition.loadOrDefault d).grammar :=
  after_induction (synced_ofDefinition d settings) (fun _ r hs ↦ hs.answer r) rs

theorem Synced.last_of_lastFrame (hs₀ : s₀.Synced g) (hr₀ : r₀.isFrame = true)
    (hquiet : ∀ r ∈ rs₁, r.isFrame = false) :
    ((∃ c a, .setAction c a ∈ rs₁) ∧ ((s₀.answer r₀).2.after rs₁).interpreter.last = none) ∨
      (¬ ∃ c a, .setAction c a ∈ rs₁) ∧
        ∃ b, ((s₀.answer r₀).2.after rs₁).interpreter.last = some b ∧
          b.word = g.expand s₀.iterations ∧ (b.modifiers == s₀.modifiers) = true := by
  rcases interpreter_after_of_quiet (s := (s₀.answer r₀).2) hquiet with hset | ⟨hset, hsame⟩
  · exact .inl hset
  · obtain ⟨dt, hdt⟩ := s₀.exists_timeStep hr₀
    obtain ⟨clock, hanswer⟩ := answer_of_timeStep hdt
    obtain ⟨b, hb, -, -, hword, hmodifiers⟩ := hs₀.frame dt
    refine .inr ⟨hset, b, ?_, hword, hmodifiers⟩
    rw [hsame, hanswer, hb]

/-- What the tree is built from is not the same in `s` as it was in `s₀`, with the requests `rs`
made in between. -/
def Changed (g : Grammar) (rs : List (Request Float32)) (s₀ s : Scene Float32) : Prop :=
  (∃ c a, .setAction c a ∈ rs) ∨ g.expand s.iterations ≠ g.expand s₀.iterations ∨
    (s₀.modifiers.angle == s.modifiers.angle) = false ∨
    (s₀.modifiers.growth == s.modifiers.growth) = false

theorem changed_iff {m : Modifiers Float32} (hm : (m == s₀.modifiers) = true) : Changed g rs s₀ s ↔
      (∃ c a, .setAction c a ∈ rs) ∨
        ¬ ((m == s.modifiers) = true ∧ g.expand s₀.iterations = g.expand s.iterations) := by
  have hsame : (m == s.modifiers) = true ↔
      (s₀.modifiers.angle == s.modifiers.angle) = true ∧
        (s₀.modifiers.growth == s.modifiers.growth) = true := by
    rw [← Modifiers.beq_iff]
    exact ⟨PartialEquivBEq.trans (PartialEquivBEq.symm hm), PartialEquivBEq.trans hm⟩
  rw [Changed, hsame, not_and_or, not_and_or, Bool.not_eq_true, Bool.not_eq_true,
    eq_comm (a := g.expand s₀.iterations), or_comm (b := ¬ _ = _)]

theorem rebuilds_iff (d : Option (Definition Float32)) (settings : Settings Float32)
    (h : LastFrame rs rs₀ r₀ rs₁) :
    ((ofDefinition d settings).after rs).rebuilds = true ↔
      Changed (Definition.loadOrDefault d).grammar rs₁ ((ofDefinition d settings).after rs₀)
        ((ofDefinition d settings).after rs) := by
  have hs := synced_after d settings rs
  have hlast := (synced_after d settings rs₀).last_of_lastFrame h.isFrame h.quiet
  rw [← h.after_eq] at hlast
  rw [rebuilds, Bool.not_eq_true', ← Bool.not_eq_true, Interpreter.remembers_eq_true_iff,
    hs.word_eq]
  rcases hlast with ⟨hset, hnone⟩ | ⟨hset, b, hb, hword, hmodifiers⟩
  · simp [Changed, hset, hnone]
  · rw [changed_iff hmodifiers, hb, ← hword]
    simp [hset]

theorem rebuilds_of_quiet (d : Option (Definition Float32)) (settings : Settings Float32)
    (h : ∀ r ∈ rs, r.isFrame = false) :
    ((ofDefinition d settings).after rs).rebuilds = true := by
  have hnone : ((ofDefinition d settings).after rs).interpreter.last = none := by
    rcases interpreter_after_of_quiet (s := ofDefinition d settings) h with
      ⟨-, hlast⟩ | ⟨-, hsame⟩
    · exact hlast
    · rw [hsame, ofDefinition, Interpreter.last_standard]
  rw [rebuilds, Bool.not_eq_true', ← Bool.not_eq_true, Interpreter.remembers_eq_true_iff, hnone]
  simp

theorem tree?_of_lastFrame (d : Option (Definition Float32)) (settings : Settings Float32)
    (h : LastFrame rs rs₀ r₀ rs₁)
    (hrebuilds : ((ofDefinition d settings).after rs).rebuilds = false) :
    ((ofDefinition d settings).after rs).tree? =
      ((ofDefinition d settings).after (rs₀ ++ [r₀])).tree? := by
  rcases interpreter_after_of_quiet (s := (((ofDefinition d settings).after rs₀).answer r₀).2)
    h.quiet with ⟨hset, -⟩ | ⟨-, hsame⟩
  · have htrue := (rebuilds_iff d settings h).mpr (.inl hset)
    rw [hrebuilds] at htrue
    cases htrue
  · rw [← h.after_eq] at hsame
    rw [tree?, tree?, hsame, after_concat]

theorem Synced.tree?_frame (hs : s.Synced g) (dt : Float32) :
    ∃ m : Modifiers Float32, (m == (s.frame dt).2.modifiers) = true ∧
      (s.frame dt).2.tree? = some ((s.frame dt).2.interpreter.build
        (g.expand (s.frame dt).2.iterations) m) := by
  obtain ⟨b, hb, hshown, hbuild, hword, hmodifiers⟩ := hs.frame dt
  have hiterations : (s.frame dt).2.iterations = s.iterations := by rw [frame_eq]
  have hsame : (s.frame dt).2.modifiers = s.modifiers := by rw [frame_eq]
  refine ⟨b.modifiers, hsame ▸ hmodifiers, ?_⟩
  rw [Scene.tree?_frame, hb, hiterations, ← hword, ← hshown, hbuild]
  rfl

/-- A frame shows the tree that the word and the modifiers give, and it is rebuilt just if it has to
be. After every frame of every run the tree is the one built from scratch under the actions then in
force, with modifiers equal to those in force. It is rebuilt if the frame is the first one or if an
action was set since the last frame, the word is another or a modifier is unequal to what it was,
and only then. When it is rebuilt all particles are retired and the live ones enter at the root;
else it is the tree of the last frame. -/
theorem rebuilt_iff_changed (d : Option (Definition Float32)) (settings : Settings Float32)
    (rs : List (Request Float32)) (r : Request Float32) (hr : r.isFrame = true) :
    let g := (Definition.loadOrDefault d).grammar
    let after := (ofDefinition d settings).after
    ∃ f s', (after rs).answer r = (.drawn f, s') ∧
      (∃ m : Modifiers Float32, (m.angle == s'.modifiers.angle) = true ∧
        (m.growth == s'.modifiers.growth) = true ∧
        s'.tree? = some (s'.interpreter.build (g.expand s'.iterations) m)) ∧
      (f.rebuilt = true ↔ (∀ q ∈ rs, q.isFrame = false) ∨
        ∃ rs₀ r₀ rs₁, LastFrame rs rs₀ r₀ rs₁ ∧ Changed g rs₁ (after rs₀) (after rs)) ∧
      (f.rebuilt = true → f.died = (after rs).swarm.ids ∧
        ∀ p ∈ s'.swarm.particles, p.node = Tree.rootId ∧ p.life = 0) ∧
      (f.rebuilt = false → ∀ rs₀ r₀ rs₁, LastFrame rs rs₀ r₀ rs₁ →
        s'.tree? = (after (rs₀ ++ [r₀])).tree?) := by
  intro g after
  obtain ⟨dt, hdt⟩ := (after rs).exists_timeStep hr
  obtain ⟨clock, hanswer⟩ := answer_of_timeStep hdt
  have hrebuilt : ((after rs).frame dt).1.rebuilt = (after rs).rebuilds := by rw [frame_eq]
  refine ⟨_, _, hanswer, ?_, ?_, ?_, ?_⟩
  · obtain ⟨m, hm, htree⟩ := (synced_after d settings rs).tree?_frame dt
    obtain ⟨hangle, hgrowth⟩ := Modifiers.beq_iff.mp hm
    exact ⟨m, hangle, hgrowth, htree⟩
  · rw [hrebuilt]
    constructor
    · intro h
      rcases exists_lastFrame rs with hquiet | ⟨rs₀, r₀, rs₁, hlast⟩
      · exact .inl hquiet
      · exact .inr ⟨rs₀, r₀, rs₁, hlast, (rebuilds_iff d settings hlast).mp h⟩
    · rintro (hquiet | ⟨rs₀, r₀, rs₁, hlast, h⟩)
      · exact rebuilds_of_quiet d settings hquiet
      · exact (rebuilds_iff d settings hlast).mpr h
  · rw [hrebuilt]
    intro h
    exact frame_of_rebuilds h dt
  · rw [hrebuilt]
    intro h rs₀ r₀ rs₁ hlast
    have hshown : ((after rs).frame dt).2.tree? = (after rs).tree? := by
      rw [tree?_frame, tree?_of_not_rebuilds h]
    exact hshown.trans (tree?_of_lastFrame d settings hlast h)

theorem not_rebuilt_of_same_word :
    let after := (ofDefinition none (default : Settings Float32)).after
    let rs := [.setModifiers ⟨0, 1⟩, .frame 0, .setIterations 3, .setModifiers ⟨-0, 1⟩]
    (Request.frame (1 : Float32)).isFrame = true ∧
      LastFrame rs [.setModifiers ⟨0, 1⟩] (.frame 0)
        [.setIterations 3, .setModifiers ⟨-0, 1⟩] ∧
      (after rs).iterations = 3 ∧ ((after rs).frame 1).1.rebuilt = false ∧
      ((after rs).frame 1).2.tree? = (after (rs.take 2)).tree? := by
  intro after rs
  have hrequest : (Request.frame (1 : Float32)).isFrame = true := rfl
  have hlast : LastFrame rs [.setModifiers ⟨0, 1⟩] (.frame 0)
      [.setIterations 3, .setModifiers ⟨-0, 1⟩] := ⟨rfl, rfl, by simp [Request.isFrame]⟩
  have hiterations : (after rs).iterations = 3 := by decide +kernel
  have hrebuilt : ((after rs).frame 1).1.rebuilt = false := by decide +kernel
  have hframe : (after rs).answer (.frame 1) =
      (.drawn ((after rs).frame 1).1, ((after rs).frame 1).2) := by rw [answer, ofDrawn_eq]
  obtain ⟨f, s', hanswer, -, -, -, htree⟩ :=
    rebuilt_iff_changed none default rs (.frame 1) hrequest
  rw [hframe, Prod.mk.injEq, Reply.drawn.injEq] at hanswer
  obtain ⟨rfl, rfl⟩ := hanswer
  exact ⟨hrequest, hlast, hiterations, hrebuilt, htree hrebuilt _ _ _ hlast⟩

end BranchStream.Scene
