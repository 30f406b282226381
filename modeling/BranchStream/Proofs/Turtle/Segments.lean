import BranchStream.Binary32.Instances
import BranchStream.Proofs.Turtle.Numbering
import BranchStream.Proofs.Turtle.Snapshot
import BranchStream.Stream.Particle

namespace BranchStream

variable {α : Type}

def Turtle.segment (t : Turtle α) : Vec3 α × Vec3 α := (t.segmentStart, t.position)

def Shape.ends? : Shape α → Option (Vec3 α × Vec3 α)
  | .point .. => none
  | .line start stop _ => some (start, stop)

def Tree.Keeps (t : Tree (Turtle α)) (turtle : Turtle α) (id : Nat) : Prop :=
  ∃ n, t.get? id = some n ∧ n.state.segment = turtle.segment

theorem Tree.Extends.keeps {t t' : Tree (Turtle α)} {turtle : Turtle α} {id : Nat}
    (h : t.Extends t') (hk : t.Keeps turtle id) : t'.Keeps turtle id := by
  obtain ⟨n, hn, hsegment⟩ := hk
  obtain ⟨more, hmore, -⟩ := h.get?_eq id n hn
  exact ⟨_, hmore, hsegment⟩

namespace Walk

theorem keeps_grow (w : Walk α) (turtle : Turtle α) :
    (w.grow turtle).tree.Keeps turtle w.tree.size :=
  ⟨_, Tree.get?_addChild_size, rfl⟩

/-- The current node keeps the segment of the turtle, and the nodes that open branches go back to
keep those of the turtles that were saved. -/
structure Attached (w : Walk α) : Prop where
  current : w.tree.Keeps w.turtle w.node
  saved : ∀ e ∈ w.stack, w.tree.Keeps e.1 e.2

variable {w w' : Walk α}

theorem attached_start (turtle : Turtle α) : (start turtle).Attached where
  current := ⟨_, rfl, rfl⟩
  saved := nofun

theorem Attached.grow (h : w.Attached) (turtle : Turtle α) : (w.grow turtle).Attached where
  current := w.keeps_grow turtle
  saved e he := ((Tree.Extends.refl _).addChild _ _).keeps (h.saved e he)

variable [Elementary α] {p : Parameters α} {m : Modifiers α} {maxDepth : Nat}
  {as before : List (Action α)} {a : Action α} {id : Nat} {n : Tree.Node (Turtle α)}

theorem segment_act (h : a.isForward = false) (turtle : Turtle α) :
    (turtle.act p m a).segment = turtle.segment := by
  cases a with
  | forward => cases h
  | _ => rfl

theorem Attached.effect (h : w.Attached) (he : w.Effect p m maxDepth a w') : w'.Attached := by
  cases he with
  | forward => exact h.grow _
  | opened =>
    have hgrow := h.grow w.turtle
    refine ⟨hgrow.current, fun e he ↦ ?_⟩
    rcases List.mem_cons.mp he with rfl | he
    · exact ((Tree.Extends.refl _).addChild _ _).keeps h.current
    · exact hgrow.saved e he
  | counted | uncounted | unmatched => exact ⟨h.current, h.saved⟩
  | closed _ hs =>
    have hsaved := h.saved
    rw [hs] at hsaved
    exact ⟨hsaved _ List.mem_cons_self, fun e he ↦ hsaved e (List.mem_cons_of_mem _ he)⟩
  | turned hforward =>
    obtain ⟨n, hn, hsegment⟩ := h.current
    exact ⟨⟨n, hn, hsegment.trans (segment_act hforward _).symm⟩, h.saved⟩

theorem attached_run (as : List (Action α)) : (run p m maxDepth as).Attached :=
  foldl_induction (P := fun _ w ↦ w.Attached) (attached_start _) Attached.effect as

theorem extends_effect {t : Tree (Turtle α)} (h : t.Extends w.tree)
    (he : w.Effect p m maxDepth a w') : t.Extends w'.tree := by
  cases he with
  | forward | opened => exact h.addChild _ _
  | counted | uncounted | unmatched | closed | turned => exact h

theorem extends_run (h : before <+: as) :
    (run p m maxDepth before).tree.Extends (run p m maxDepth as).tree := by
  obtain ⟨rest, rfl⟩ := h
  rw [run_append]
  exact foldl_induction (P := fun _ w ↦ (run p m maxDepth before).tree.Extends w.tree)
    (Tree.Extends.refl _) extends_effect rest

theorem Effect.node_eq (he : w.Effect p m maxDepth a w') (hn : w'.tree.get? id = some n) :
    (id = w.tree.size ∧ n.parent = some w.node ∧ n.state = w.turtle.act p m a ∧
        (a = .forward ∨ a = .push)) ∨
      ∃ n', w.tree.get? id = some n' ∧ n.state = n'.state ∧ n.parent = n'.parent := by
  cases he with
  | forward =>
    rcases Tree.node_addChild hn with ⟨hid, rfl⟩ | hold
    · exact .inl ⟨hid, rfl, rfl, .inl rfl⟩
    · exact .inr hold
  | opened =>
    rcases Tree.node_addChild hn with ⟨hid, rfl⟩ | hold
    · exact .inl ⟨hid, rfl, rfl, .inr rfl⟩
    · exact .inr hold
  | counted | uncounted | unmatched | closed | turned => exact .inr ⟨n, hn, rfl, rfl⟩

theorem exists_origin (hn : (run p m maxDepth as).tree.get? id = some n) (hid : 0 < id) :
    ∃ before a, before ++ [a] <+: as ∧ (a = .forward ∨ a = .push) ∧
      (run p m maxDepth before).tree.size = id ∧
      n.parent = some (run p m maxDepth before).node ∧
      n.state = (run p m maxDepth before).turtle.act p m a := by
  induction as using List.reverseRecOn generalizing n with
  | nil =>
    have hnone : (run p m maxDepth []).tree.get? id = none := Tree.get?_eq_none hid
    rw [hnone] at hn
    cases hn
  | append_singleton as a ih =>
    rw [run_concat] at hn
    rcases (effect_step p m maxDepth _ a).node_eq hn with
      ⟨rfl, hparent, hstate, ha⟩ | ⟨n', hn', hstate, hparent⟩
    · exact ⟨as, a, List.prefix_rfl, ha, rfl, hparent, hstate⟩
    · obtain ⟨before, b, hbefore, hb, hsize, hparent', hstate'⟩ := ih hn'
      exact ⟨before, b, hbefore.trans (List.prefix_append as [a]), hb, hsize,
        hparent.trans hparent', hstate.trans hstate'⟩

/-- A node sets out where its parent's segment ended, or it repeats that segment. -/
theorem exists_segment (hn : (run p m maxDepth as).tree.get? id = some n) (hid : 0 < id) :
    ∃ before a q parent, before ++ [a] <+: as ∧ (run p m maxDepth before).tree.size = id ∧
      n.parent = some q ∧ (run p m maxDepth as).tree.get? q = some parent ∧
      (a = .forward ∧ n.state.segmentStart = parent.state.position ∨
        a = .push ∧ n.state.segment = parent.state.segment) := by
  obtain ⟨before, a, hbefore, ha, hsize, hparent, hstate⟩ := exists_origin hn hid
  have hextends : (run p m maxDepth before).tree.Extends (run p m maxDepth as).tree :=
    extends_run ((List.prefix_append before [a]).trans hbefore)
  obtain ⟨parent, hget, hsegment⟩ := hextends.keeps (attached_run before).current
  refine ⟨before, a, _, parent, hbefore, hsize, hparent, hget, ?_⟩
  rw [hstate]
  rcases ha with rfl | rfl
  · exact .inl ⟨rfl, (congrArg Prod.snd hsegment).symm⟩
  · exact .inr ⟨rfl, hsegment.symm⟩

theorem exists_node_of_forward (p : Parameters α) (m : Modifiers α) (maxDepth : Nat)
    (h : before ++ [.forward] <+: as) : ∃ n parent,
      (run p m maxDepth as).tree.get? (run p m maxDepth before).tree.size = some n ∧
      n.state = (run p m maxDepth before).turtle.act p m .forward ∧
      n.parent = some (run p m maxDepth before).node ∧
      (run p m maxDepth as).tree.get? (run p m maxDepth before).node = some parent ∧
      n.state.segmentStart = parent.state.position := by
  have hgrown : ((run p m maxDepth before).step p m maxDepth .forward).tree.Extends
      (run p m maxDepth as).tree := by
    rw [← run_concat]
    exact extends_run h
  obtain ⟨more, hn, -⟩ := hgrown.get?_eq _ _ Tree.get?_addChild_size
  have hextends : (run p m maxDepth before).tree.Extends (run p m maxDepth as).tree :=
    extends_run ((List.prefix_append before [.forward]).trans h)
  obtain ⟨parent, hparent, hsegment⟩ := hextends.keeps (attached_run before).current
  exact ⟨_, parent, hn, rfl, rfl, hparent, (congrArg Prod.snd hsegment).symm⟩

end Walk

/-- When the travelled segment is the drawn one. The line to a node goes from the end of its
parent's segment to the end of its own, and a particle that enters there sets out at the start of
its own. The two agree if the node was made by a step forward or if its parent's segment has no
length, and only then; otherwise the node has opened a branch, and the particle goes as it would if
it entered at the parent. -/
theorem Interpreter.travelled_eq_drawn_iff [Elementary α] (i : Interpreter α) (w : Word)
    (m : Modifiers α) :
    let t := i.build w m
    ∃ lines, t.lines? = some lines ∧ ∀ k, k + 1 < t.size → ∃ before c n q parent,
      before ++ [c] <+: w ∧ (i.walk before m).tree.size = k + 1 ∧
      t.get? (k + 1) = some n ∧ n.parent = some q ∧ t.get? q = some parent ∧
      ∀ physics id, let entered := Particle.entering physics id (k + 1) n.state
        entered.position = n.state.segmentStart ∧
        (entered.position = parent.state.position ↔
          i.action c = .forward ∨ parent.state.segmentStart = parent.state.position) ∧
        (lines[k]?.bind Shape.ends? = some (entered.position, n.state.position) ↔
          entered.position = parent.state.position) ∧
        (i.action c ≠ .forward → i.action c = .push ∧
          entered = { Particle.entering physics id q parent.state with node := k + 1 }) := by
  intro t
  have hdepth : (i.walk w m).DepthFirst := Walk.depthFirst_run _
  obtain ⟨lines, hlines, -, hline⟩ := hdepth.exists_lines
  refine ⟨lines, hlines, fun k hk ↦ ?_⟩
  obtain ⟨n, q, parent, hn, hq, hparent, hk'⟩ := hline k hk
  obtain ⟨as, a, q', parent', hprefix, hsize, hq', hparent', hsegment⟩ :=
    Walk.exists_segment hn (Nat.succ_pos k)
  obtain rfl := Option.some.inj (hq.symm.trans hq')
  obtain rfl := Option.some.inj (hparent.symm.trans hparent')
  obtain ⟨u, hu, hmap⟩ := List.prefix_map_iff.mp hprefix
  obtain ⟨before, rest, rfl, rfl, hrest⟩ := List.append_eq_map_iff.mp hmap
  obtain ⟨c, rfl, rfl⟩ := List.map_eq_singleton_iff.mp hrest
  refine ⟨before, c, n, q, parent, hu, hsize, hn, hq, hparent, fun physics id ↦ ⟨rfl, ?_, ?_, ?_⟩⟩
  · rcases hsegment with ⟨hforward, hstart⟩ | ⟨hpush, hsame⟩
    · exact iff_of_true hstart (.inl hforward)
    · have hstart : n.state.segmentStart = parent.state.segmentStart := congrArg Prod.fst hsame
      simp [Particle.entering, hpush, hstart]
  · simp [hk', Shape.ends?, eq_comm]
  · intro hno
    rcases hsegment with ⟨hforward, -⟩ | ⟨hpush, hsame⟩
    · exact absurd hforward hno
    · obtain ⟨hstart, hend⟩ := Prod.mk.inj hsame
      refine ⟨hpush, ?_⟩
      simp only [Particle.entering, hstart, hend]

theorem Interpreter.travelled_eq_drawn_iff_of_fork :
    let i : Interpreter Float32 := .standard ⟨0, 0, 90, 10⟩ 4
    let t := i.build ['F', '[', '+', 'F', ']', 'F'] default
    1 + 1 < t.size ∧ ∃ n parent before c, t.get? 2 = some n ∧ n.parent = some 1 ∧
      t.get? 1 = some parent ∧ before ++ [c] <+: ['F', '[', '+', 'F', ']', 'F'] ∧
      i.action c = .push ∧
      Particle.entering default 7 2 n.state =
        { Particle.entering default 7 1 parent.state with node := 2 } := by
  intro i t
  have hsize : 1 + 1 < t.size := by decide +kernel
  obtain ⟨lines, -, hall⟩ := travelled_eq_drawn_iff i ['F', '[', '+', 'F', ']', 'F'] default
  obtain ⟨before, c, n, q, parent, hprefix, -, hn, hq, hparent, hentered⟩ := hall 1 hsize
  obtain ⟨hstart, hiff, -, hrepeat⟩ := hentered default 7
  have hnode : (t.get? 2).map (fun n ↦ (n.parent, n.state.segmentStart)) =
      some (some 1, ⟨0, 0, 0⟩) := by decide +kernel
  have hbefore : (t.get? 1).map (fun n ↦ n.state.position) = some ⟨10, 0, 0⟩ := by
    decide +kernel
  rw [hn, Option.map_some, Option.some.injEq, hq, Prod.mk.injEq, Option.some.injEq] at hnode
  obtain ⟨rfl, hzero⟩ := hnode
  rw [hparent, Option.map_some, Option.some.injEq] at hbefore
  have hforward : i.action c ≠ .forward := by
    intro hc
    have hsame := hiff.mpr (.inl hc)
    rw [hstart, hzero, hbefore] at hsame
    exact absurd hsame (by decide +kernel)
  obtain ⟨hpush, hsame⟩ := hrepeat hforward
  exact ⟨hsize, n, parent, before, c, hn, hq, hparent, hprefix, hpush, hsame⟩

/-- The node of a branch that is opened after a step is drawn as a line without length at the end of
the step, but a particle that enters there sets out where the step began. -/
theorem Interpreter.travelled_ne_drawn_of_branch :
    let i : Interpreter Float32 := .standard ⟨0, 0, 0, 10⟩ 1024
    let t := i.build ['F', '['] default
    (t.get? 2).map Tree.Node.parent = some (some 1) ∧
      (t.get? 1).map (fun n ↦ n.state.position) = some ⟨10, 0, 0⟩ ∧
      (t.get? 2).map (fun n ↦ (Particle.entering default 0 2 n.state).position) =
        some ⟨0, 0, 0⟩ ∧
      t.lines?.map (fun lines ↦ lines.map Shape.ends?) =
        some [some (⟨0, 0, 0⟩, ⟨10, 0, 0⟩), some (⟨10, 0, 0⟩, ⟨10, 0, 0⟩)] ∧
      ¬ ∀ n parent, t.get? 2 = some n → t.get? 1 = some parent →
        n.state.segmentStart = parent.state.position := by
  intro i t
  have hposition : (t.get? 1).map (fun n ↦ n.state.position) = some ⟨10, 0, 0⟩ := by
    decide +kernel
  have hentered : (t.get? 2).map (fun n ↦ (Particle.entering default 0 2 n.state).position) =
      some ⟨0, 0, 0⟩ := by decide +kernel
  refine ⟨by decide +kernel, hposition, hentered, by decide +kernel, fun hall ↦ ?_⟩
  obtain ⟨parent, hparent, hend⟩ := Option.map_eq_some_iff.mp hposition
  obtain ⟨n, hn, hstart⟩ := Option.map_eq_some_iff.mp hentered
  have hsame := hall n parent hn hparent
  rw [hend] at hsame
  exact absurd (hstart.symm.trans hsame) (by decide +kernel)

end BranchStream
