import BranchStream.Binary32.Instances
import BranchStream.Proofs.Scene.Run
import BranchStream.Proofs.Stream.Ledger
import Mathlib.Data.List.Induction

namespace BranchStream.Scene

variable {α : Type} [Elementary α] {s s' : Scene α} {r : Request α} {f : Frame α}

theorem accounts_kept (s : Scene α) : s.swarm.Accounts s.kept [] s.retired := by
  rw [kept, retired]
  split
  · exact s.swarm.accounts_clear
  · exact s.swarm.accounts_refl

theorem retired_append_sublist (hs : s.swarm.Numbered) (dt : α) :
    (s.retired ++ (s.advanced dt).1.died).Sublist s.swarm.ids := by
  have hdied := (Swarm.accounts_advance (s.accounts_kept.numbered hs) s.shown dt).died_sublist
  rw [kept] at hdied
  rw [retired]
  split at hdied
  · rename_i h
    rw [if_pos h, advanced, kept, if_pos h, List.sublist_nil.mp hdied, List.append_nil]
  · rename_i h
    rw [if_neg h, List.nil_append, advanced, kept, if_neg h]
    exact hdied

theorem accounts_frame (hs : s.swarm.Numbered) (dt : α) :
    s.swarm.Accounts (s.frame dt).2.swarm (s.frame dt).1.spawned (s.frame dt).1.died := by
  rw [frame_eq]
  have hsub := retired_append_sublist hs (validStep dt)
  have hadvanced := s.accounts_kept.trans
    (Swarm.accounts_advance (s.accounts_kept.numbered hs) s.shown (validStep dt)) hs hsub
  have hemitted := (s.advanced (validStep dt)).2.accounts_spawnAtRoot s.shown
    (s.arrivals (validStep dt))
  have h := hadvanced.trans hemitted hs (by rwa [List.append_nil])
  rwa [List.append_nil] at h

theorem accounts_answer (hs : s.swarm.Numbered) (r : Request α) :
    s.swarm.Accounts (s.answer r).2.swarm ((s.answer r).1.frame?.toList.flatMap Frame.spawned)
      ((s.answer r).1.frame?.toList.flatMap Frame.died) := by
  cases h : s.timeStep? r with
  | none =>
    rw [(answer_of_quiet h).1, swarm_of_quiet h]
    exact s.swarm.accounts_refl
  | some dt =>
    obtain ⟨clock, hanswer⟩ := answer_of_timeStep h
    have haccounts := accounts_frame hs dt
    rw [hanswer]
    simpa only [Reply.frame?, Option.toList_some, List.flatMap_singleton] using haccounts

theorem numbered_after (d : Option (Definition α)) (settings : Settings α)
    (rs : List (Request α)) : ((ofDefinition d settings).after rs).swarm.Numbered :=
  after_induction (P := fun s ↦ s.swarm.Numbered)
    ⟨List.Pairwise.nil, by simp [ofDefinition, Swarm.empty, Swarm.ids]⟩
    (fun _ r hs ↦ (accounts_answer hs r).numbered hs) rs

theorem spawned_frames (d : Option (Definition α)) (settings : Settings α)
    (rs : List (Request α)) :
    ((ofDefinition d settings).frames rs).flatMap Frame.spawned =
      List.range ((ofDefinition d settings).after rs).swarm.nextId := by
  induction rs using List.reverseRecOn with
  | nil => rfl
  | append_singleton rs r ih =>
    have haccounts := accounts_answer (numbered_after d settings rs) r
    rw [frames_concat, List.flatMap_append, ih, after_concat, haccounts.next_eq,
      haccounts.spawned_eq, List.length_range', List.range_eq_range', List.range_eq_range',
      ← List.range'_append_1, Nat.zero_add]

theorem live_append_died (d : Option (Definition α)) (settings : Settings α)
    (rs : List (Request α)) :
    (((ofDefinition d settings).after rs).swarm.ids ++
      ((ofDefinition d settings).frames rs).flatMap Frame.died).Perm
      (((ofDefinition d settings).frames rs).flatMap Frame.spawned) := by
  induction rs using List.reverseRecOn with
  | nil => exact List.Perm.refl _
  | append_singleton rs r ih =>
    have hids := (accounts_answer (numbered_after d settings rs) r).ids_perm
      (numbered_after d settings rs)
    rw [after_concat, frames_concat, List.flatMap_append, List.flatMap_append]
    refine List.perm_append_comm.append_left _ |>.trans ?_
    rw [← List.append_assoc]
    refine (hids.append_right _).trans ?_
    rw [List.append_assoc]
    refine (List.perm_append_comm.append_left _).trans ?_
    rw [← List.append_assoc]
    exact ih.append_right _

/-- The lifecycle of particles is accounted for exactly. The ids reported as spawned are all numbers
from zero on, in order; each of them is live or reported dead, and just once; and a frame turns the
live ids before it into those after it by striking the dead ones and adding the spawned ones. -/
theorem lifecycle_accounted (d : Option (Definition α)) (settings : Settings α)
    (rs : List (Request α)) :
    let s := (ofDefinition d settings).after rs
    let spawned := ((ofDefinition d settings).frames rs).flatMap Frame.spawned
    let died := ((ofDefinition d settings).frames rs).flatMap Frame.died
    spawned = List.range spawned.length ∧ died.Nodup ∧
      (∀ id ∈ spawned, s.swarm.ids.count id + died.count id = 1) ∧
      (∀ id ∈ s.swarm.ids ++ died, id ∈ spawned) ∧
      ∀ r f s', s.answer r = (.drawn f, s') →
        f.died.Sublist s.swarm.ids ∧ f.died.Nodup ∧ f.died.Disjoint f.spawned ∧
          s'.swarm.ids = (s.swarm.ids.filter fun id ↦ id ∉ f.died) ++ f.spawned := by
  intro s spawned died
  have hspawned : spawned = List.range s.swarm.nextId := spawned_frames d settings rs
  have hperm : (s.swarm.ids ++ died).Perm spawned := live_append_died d settings rs
  have hs : s.swarm.Numbered := numbered_after d settings rs
  have hnodup : (s.swarm.ids ++ died).Nodup := by
    rw [hperm.nodup_iff, hspawned]
    exact List.nodup_range
  refine ⟨?_, hnodup.of_append_right, ?_, fun id ↦ hperm.mem_iff.mp, ?_⟩
  · rw [hspawned, List.length_range]
  · intro id hid
    rw [← List.count_append]
    exact List.count_eq_one_of_mem hnodup (hperm.mem_iff.mpr hid)
  · intro r f s' hanswer
    have haccounts := accounts_answer hs r
    rw [hanswer] at haccounts
    simp only [Reply.frame?, Option.toList_some, List.flatMap_singleton] at haccounts
    exact ⟨haccounts.died_sublist, haccounts.nodup_died hs, haccounts.disjoint hs,
      haccounts.ids_eq⟩

theorem lifecycle_accounted_of_rebuild :
    let s := (ofDefinition none (default : Settings Float32)).after
      [.spawn, .frame 0, .spawn, .setAction 'L' .forward]
    s.answer (.frame 2) = (.drawn (s.frame 2).1, (s.frame 2).2) ∧
      (s.frame 2).1.died = [0] ∧ (s.frame 2).1.spawned = [1, 2, 3] ∧
      (s.frame 2).2.swarm.ids = [1, 2, 3] := by
  intro s
  have hframe : s.answer (.frame 2) = (.drawn (s.frame 2).1, (s.frame 2).2) := by
    rw [answer, ofDrawn_eq]
  have hlive : s.swarm.ids = [0] := by decide +kernel
  have hdied : (s.frame 2).1.died = [0] := by decide +kernel
  have hspawned : (s.frame 2).1.spawned = [1, 2, 3] := by decide +kernel
  have hids := ((lifecycle_accounted none default _).2.2.2.2 _ _ _ hframe).2.2.2
  rw [hlive, hdied, hspawned] at hids
  exact ⟨hframe, hdied, hspawned, hids⟩

end BranchStream.Scene
