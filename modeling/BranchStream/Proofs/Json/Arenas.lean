import BranchStream.Binary32.Instances
import BranchStream.Json.Records
import BranchStream.Proofs.Branches.Worklist
import BranchStream.Proofs.Stream.Course
import BranchStream.Proofs.Turtle.Growth

namespace BranchStream

section

variable {β : Type} [Coded β]

theorem Json.natBelow?_eq_some_iff {bound n : Nat} {j : Json} :
    j.natBelow? bound = some n ↔ j = .integer n ∧ n < bound := by
  cases j with
  | integer i =>
    rw [Json.natBelow?, Json.integer.injEq]
    split
    · simp only [Option.some.injEq]
      omega
    · simp only [reduceCtorEq, false_iff]
      omega
  | _ => simp [Json.natBelow?]

def ReadableId (id : Nat) : Prop := id < 0x10000000000000000

theorem decode?_nat_eq_some_iff {j : Json} {id : Nat} :
    decode? j = some id ↔ j = .integer id ∧ ReadableId id := Json.natBelow?_eq_some_iff

theorem decode?_encode_nat {id : Nat} (h : ReadableId id) : decode? (encode id) = some id :=
  decode?_nat_eq_some_iff.mpr ⟨rfl, h⟩

theorem decode?_encode_option {id : Option Nat} (h : ∀ p ∈ id, ReadableId p) :
    decode? (encode id) = some id := by
  cases id with
  | none => rfl
  | some p =>
    have hp := decode?_encode_nat (h p rfl)
    change (decode? (encode p)).map some = some (some p)
    rw [hp, Option.map_some]

theorem readable_of_decode?_option {j : Json} {id : Option Nat} (h : decode? j = some id) :
    ∀ p ∈ id, ReadableId p := by
  rintro p rfl
  cases j with
  | null => cases h
  | _ =>
    obtain ⟨p', hp', heq⟩ := Option.map_eq_some_iff.mp h
    obtain rfl := Option.some.inj heq
    exact (decode?_nat_eq_some_iff.mp hp').2

theorem decode?_encode_list {bs : List β} (h : ∀ b ∈ bs, decode? (encode b) = some b) :
    decode? (encode bs) = some bs := by
  change (bs.map encode).mapM decode? = some bs
  induction bs with
  | nil => rfl
  | cons b bs ih =>
    obtain ⟨hb, hbs⟩ := List.forall_mem_cons.mp h
    rw [List.map_cons, List.mapM_cons, hb, ih hbs]
    rfl

theorem exists_decode?_of_mem {j : Json} {bs : List β} (h : decode? j = some bs) :
    ∀ b ∈ bs, ∃ j, decode? j = some b := by
  cases j with
  | array items =>
    change items.mapM decode? = some bs at h
    induction items generalizing bs with
    | nil =>
      obtain rfl := Option.some.inj h
      nofun
    | cons j items ih =>
      rw [List.mapM_cons] at h
      obtain ⟨b, hb, h⟩ := Option.bind_eq_some_iff.mp h
      obtain ⟨bs', hbs, h⟩ := Option.bind_eq_some_iff.mp h
      obtain rfl := Option.some.inj h
      exact List.forall_mem_cons.mpr ⟨⟨j, hb⟩, ih hbs⟩
  | _ => cases h

end

namespace Tree

def ReadableLink (l : Option Nat × List Nat) : Prop :=
  (∀ p ∈ l.1, ReadableId p) ∧ ∀ c ∈ l.2, ReadableId c

def ofLinks {σ : Type} (s : σ) (ls : Array (Option Nat × List Nat)) : Tree σ :=
  ⟨ls.map fun l ↦ ⟨s, l.1, l.2⟩⟩

theorem links_ofLinks {σ : Type} (s : σ) (ls : Array (Option Nat × List Nat)) :
    (ofLinks s ls).links = ls := by
  simp [links, ofLinks, Function.comp_def]

variable {σ : Type} [Coded σ] {j : Json} {t : Tree σ}

theorem readable_of_decode?_node {n : Node σ} (h : decode? j = some n) :
    ReadableLink (n.parent, n.children) := by
  change (if j.isRecord 3 then _ else none) = some n at h
  split at h
  · obtain ⟨s, -, h⟩ := Option.bind_eq_some_iff.mp h
    obtain ⟨parent, hparent, h⟩ := Option.bind_eq_some_iff.mp h
    obtain ⟨children, hchildren, h⟩ := Option.bind_eq_some_iff.mp h
    obtain rfl := Option.some.inj h
    refine ⟨?_, fun c hc ↦ ?_⟩
    · rw [Json.optional] at hparent
      split at hparent
      · exact readable_of_decode?_option hparent
      · obtain rfl := Option.some.inj hparent
        nofun
    · obtain ⟨field, -, hfield⟩ := Option.bind_eq_some_iff.mp hchildren
      obtain ⟨item, hitem⟩ := exists_decode?_of_mem hfield c hc
      exact (decode?_nat_eq_some_iff.mp hitem).2
  · cases h

theorem readable_of_decode? (h : decode? j = some t) : ∀ l ∈ t.links, ReadableLink l := by
  change (if j.isRecord 1 then _ else none) = some t at h
  split at h
  · obtain ⟨nodes, hnodes, h⟩ := Option.bind_eq_some_iff.mp h
    obtain rfl := Option.some.inj h
    obtain ⟨field, -, hfield⟩ := Option.bind_eq_some_iff.mp hnodes
    intro l hl
    obtain ⟨n, hn, rfl⟩ := Array.mem_map.mp hl
    obtain ⟨item, hitem⟩ := exists_decode?_of_mem hfield n (List.mem_toArray.mp hn)
    exact readable_of_decode?_node hitem
  · cases h

theorem decode?_encode_node {n : Node σ} (hs : decode? (encode n.state) = some n.state)
    (h : ReadableLink (n.parent, n.children)) : decode? (encode n) = some n := by
  have hparent := decode?_encode_option h.1
  have hchildren := decode?_encode_list fun c hc ↦ decode?_encode_nat (h.2 c hc)
  change ((decode? (encode n.state)).bind fun s ↦ (decode? (encode n.parent)).bind fun parent ↦
    (decode? (encode n.children)).bind fun children ↦ some (⟨s, parent, children⟩ : Node σ)) = _
  rw [hs, hparent, hchildren]
  rfl

theorem decode?_encode_tree (hs : ∀ n ∈ t.nodes, decode? (encode n.state) = some n.state)
    (h : ∀ l ∈ t.links, ReadableLink l) : decode? (encode t) = some t := by
  have hnodes : decode? (encode t.nodes.toList) = some t.nodes.toList := by
    refine decode?_encode_list fun n hn ↦ ?_
    have hmem := Array.mem_toList_iff.mp hn
    exact decode?_encode_node (hs n hmem) (h _ (Array.mem_map.mpr ⟨n, hmem, rfl⟩))
  change ((decode? (encode t.nodes.toList)).bind fun nodes : List (Node σ) ↦
    some (⟨nodes.toArray⟩ : Tree σ)) = _
  rw [hnodes, Option.bind_some, Array.toArray_toList]

theorem exists_decode?_iff {s : σ} (hs : decode? (encode s) = some s)
    (ls : Array (Option Nat × List Nat)) :
    (∃ (j : Json) (t : Tree σ), decode? j = some t ∧ t.links = ls) ↔ ∀ l ∈ ls, ReadableLink l := by
  constructor
  · rintro ⟨j, t, hj, rfl⟩
    exact readable_of_decode? hj
  · intro h
    refine ⟨encode (ofLinks s ls), ofLinks s ls, decode?_encode_tree ?_ ?_, links_ofLinks s ls⟩
    · rintro n hn
      obtain ⟨l, -, rfl⟩ := Array.mem_map.mp hn
      exact hs
    · rwa [links_ofLinks]

theorem decode?_default_turtle :
    decode? (encode (default : Turtle Float32)) = some (default : Turtle Float32) := by
  decide +kernel

theorem Rooted.exists_lines {α : Type} [Scalar α] {t : Tree (Turtle α)} (h : t.Rooted) :
    ∃ lines, t.lines? = some lines ∧ lines.length = t.size - 1 := by
  obtain ⟨es, hes, -, hlength, -, hedges⟩ := h.edges?_eq
  refine ⟨_, by rw [lines?, hes]; rfl, ?_⟩
  rw [← hlength, List.filterMap_length_eq_length]
  intro e he
  have hmem := hedges e he
  obtain ⟨n, hn⟩ := exists_get? (h.child_lt hmem)
  have hparent : e.1 < t.size := by
    by_contra hlt
    rw [children_eq_nil (Nat.not_lt.mp hlt)] at hmem
    cases hmem
  obtain ⟨a, ha⟩ := exists_get? hparent
  simp [ha, hn]

/-- Which arenas are trees. What grows from a root is one, and so is what grows from the tree that a
word is read as. In general adding children neither makes nor breaks a tree, so that it depends on
the arena that they were added to. In a tree there is a root for particles to enter at, and the walk
over the edges ends after one step for each node but the root, with a line for each. But an arena
that is read from JSON may have any links at all, as long as its ids have 64 bits. -/
theorem rooted_iff_origin_rooted {t₀ t : Tree (Turtle Float32)} (h : t₀.GrownFrom t) :
    (∀ state, t₀ = ofRoot state → t.Rooted) ∧
    (∀ (i : Interpreter Float32) (w : Word) (m : Modifiers Float32), t₀ = i.build w m → t.Rooted) ∧
    (t.Rooted ↔ t₀.Rooted) ∧
    (t.Rooted →
      0 < t.size ∧ (∀ id, ∀ c ∈ t.children id, c < t.size) ∧ (∃ root, t.root? = some root) ∧
      (∀ (swarm : Swarm Float32) (count : Nat), (swarm.spawnAtRoot t count).1.length = count) ∧
      ∃ es lines, t.walkEdges (t.size - 1) (t.edgesBelow rootId) = some es ∧
        es.length = t.size - 1 ∧ (rootId :: es.map Prod.snd).Perm (List.range t.size) ∧
        t.lines? = some lines ∧ lines.length = t.size - 1) ∧
    ∀ ls : Array (Option Nat × List Nat),
      (∃ (j : Json) (t : Tree (Turtle Float32)), decode? j = some t ∧ t.links = ls) ↔
        ∀ l ∈ ls, ReadableLink l := by
  refine ⟨?_, ?_, h.rooted_iff, fun ht ↦ ?_, exists_decode?_iff decode?_default_turtle⟩
  · rintro state rfl
    exact h.rooted_iff.mpr (rooted_ofRoot state)
  · rintro i w m rfl
    exact h.rooted_iff.mpr (i.grown_build w m).rooted
  · obtain ⟨es, -, hes, hlength, hperm, -⟩ := ht.edges?_eq
    obtain ⟨lines, hlines, hcount⟩ := ht.exists_lines
    exact ⟨ht.size_pos, fun _ _ ↦ ht.child_lt, exists_get? ht.size_pos,
      fun swarm count ↦ swarm.length_spawnAtRoot ht.size_pos count,
      es, lines, hes, hlength, hperm, hlines, hcount⟩

theorem rooted_iff_origin_rooted_of_read :
    let t₀ : Tree (Turtle Float32) := (ofRoot default).addChild 0 default
    let t := t₀.addChild 1 default
    decode? (encode t₀) = some t₀ ∧ (ofRoot default).GrownFrom t₀ ∧ t₀.GrownFrom t ∧ t.Rooted ∧
      ∃ es lines, t.walkEdges 2 (t.edgesBelow rootId) = some es ∧ es.length = 2 ∧
        t.lines? = some lines ∧ lines.length = 2 := by
  intro t₀ t
  have hread : decode? (encode t₀) = some t₀ := by decide +kernel
  have ht₀ : (ofRoot default).GrownFrom t₀ := .addChild .refl (by decide) default
  have ht : t₀.GrownFrom t := .addChild .refl (by decide) default
  have hrooted₀ : t₀.Rooted := (rooted_iff_origin_rooted ht₀).1 default rfl
  obtain ⟨-, -, hiff, hwalk, -⟩ := rooted_iff_origin_rooted ht
  have hrooted : t.Rooted := hiff.mpr hrooted₀
  obtain ⟨-, -, -, -, es, lines, hes, hlength, -, hlines, hcount⟩ := hwalk hrooted
  exact ⟨hread, ht₀, ht, hrooted, es, lines, hes, hlength, hlines, hcount⟩

/-- Arenas that are read but are no trees: one without a node, where particles cannot enter; one with
a child that is not there, where the edges cannot be walked; and one whose root is its own child,
where that walk has no end. -/
theorem read_not_rooted :
    let empty : Tree (Turtle Float32) := ofLinks default #[]
    let dangling : Tree (Turtle Float32) := ofLinks default #[(none, [1])]
    let loop : Tree (Turtle Float32) := ofLinks default #[(none, [0])]
    (decode? (.object [("nodes", .array [])]) = some empty ∧ empty.root? = none ∧ ¬ empty.Rooted) ∧
    (decode? (encode dangling) = some dangling ∧ dangling.lines? = none ∧ ¬ dangling.Rooted) ∧
    decode? (encode loop) = some loop ∧
      (∀ fuel, loop.walkEdges fuel (loop.edgesBelow rootId) = none) ∧ ¬ loop.Rooted := by
  intro empty dangling loop
  have hempty : empty.size = 0 := by decide +kernel
  have hdangling : dangling.size = 1 ∧ 1 ∈ dangling.children rootId := by decide +kernel
  have hloop : 0 < loop.size ∧ loop.edgesBelow rootId = [(0, 0)] := by decide +kernel
  refine ⟨⟨by decide +kernel, by decide +kernel, fun h ↦ ?_⟩,
    ⟨by decide +kernel, by decide +kernel, fun h ↦ ?_⟩, by decide +kernel, fun fuel ↦ ?_, fun h ↦ ?_⟩
  · have hpos := h.size_pos
    omega
  · have hlt := h.child_lt hdangling.2
    omega
  · rw [hloop.2]
    induction fuel with
    | zero => rfl
    | succ fuel ih =>
      rw [walkEdges, if_pos hloop.1, hloop.2, List.append_nil, ih, Option.map_none]
  · have hchild : 0 ∈ loop.children rootId := by decide +kernel
    exact h.child_ne_root hchild rfl

end Tree

end BranchStream
