import BranchStream.Json.Records
import BranchStream.Proofs.Binary32.Decimals
import BranchStream.Proofs.Geometry.Magnitude
import BranchStream.Proofs.Json.Arenas
import BranchStream.Proofs.Json.Layouts

namespace BranchStream

open Json (required_encode optional_encode)
open Portable (layout Writable describes decode?_encode)

section

variable {α : Type} [Coded α]

instance : Portable Float32 where
  layout := .plain
  Writable x := x.isFinite = true
  describes x := by
    simp only [encode]
    cases Binary32.toDecimal? x <;> exact .scalar nofun nofun
  decode?_encode := decode?_encode_float
  decode?_eq := nofun

instance : Portable String where
  layout := .plain
  Writable _ := True
  describes _ := .scalar nofun nofun
  decode?_encode _ := rfl
  decode?_eq := nofun

instance : Portable Nat where
  layout := .plain
  Writable := ReadableId
  describes _ := .scalar nofun nofun
  decode?_encode := decode?_encode_nat
  decode?_eq := nofun

instance : Portable (Option Nat) where
  layout := .plain
  Writable id := ∀ p ∈ id, ReadableId p
  describes
    | some _ => .scalar nofun nofun
    | none => .scalar nofun nofun
  decode?_encode := decode?_encode_option
  decode?_eq := nofun

instance [Portable α] : Portable (List α) where
  layout := .list (layout α)
  Writable items := ∀ a ∈ items, Writable a
  describes items := .list (List.forall_mem_map.mpr fun a _ ↦ describes a)
  decode?_encode h := decode?_encode_list fun a ha ↦ decode?_encode (h a ha)
  decode?_eq h := by
    cases h with
    | @item _ before after j j' h =>
      change (before ++ j :: after).mapM decode? = (before ++ j' :: after).mapM decode?
      rw [List.mapM_append, List.mapM_append, List.mapM_cons, List.mapM_cons,
        Portable.decode?_eq h]

theorem insertFields_map (entries : List (String × α))
    (h : ∀ p ∈ entries, decode? (encode p.2) = some p.2) (map : Std.ExtTreeMap String α) :
    Json.insertFields (entries.map fun p ↦ (p.1, encode p.2)) map =
      some (map.insertMany entries) := by
  induction entries generalizing map with
  | nil => simp [Json.insertFields]
  | cons p entries ih =>
    obtain ⟨hp, hentries⟩ := List.forall_mem_cons.mp h
    rw [List.map_cons, Json.insertFields, hp, Option.bind_some, ih hentries,
      Std.ExtTreeMap.insertMany_cons]

omit [Coded α] in
theorem insertMany_toList (map : Std.ExtTreeMap String α) :
    (∅ : Std.ExtTreeMap String α).insertMany map.toList = map := by
  rw [← Std.ExtTreeMap.ofList_eq_insertMany_empty]
  refine Std.ExtTreeMap.ext_getElem? fun key ↦ ?_
  cases hkey : map[key]? with
  | some a =>
    have hmem := Std.ExtTreeMap.mem_toList_iff_getElem?_eq_some.mpr hkey
    exact Std.ExtTreeMap.getElem?_ofList_of_mem (by simp) Std.ExtTreeMap.distinct_keys_toList hmem
  | none =>
    refine Std.ExtTreeMap.getElem?_ofList_of_contains_eq_false ?_
    simpa using hkey

instance : Portable (Std.ExtTreeMap String String) where
  layout := .map
  Writable _ := True
  describes rules := .map (List.forall_mem_map.mpr fun p _ ↦ describes p.2)
  decode?_encode {rules} _ := by
    have hread := insertFields_map rules.toList (fun _ _ ↦ rfl) ∅
    rw [insertMany_toList] at hread
    exact hread
  decode?_eq := nofun

instance : Portable (Vec3 Float32) where
  layout := .plain
  Writable := Vec3.Finite
  describes v := .array (by simpa using ⟨describes v.x, describes v.y, describes v.z⟩)
  decode?_encode {v} h := by
    have hx := decode?_encode_float h.x
    have hy := decode?_encode_float h.y
    have hz := decode?_encode_float h.z
    change ((decode? (encode v.x)).bind fun x ↦ (decode? (encode v.y)).bind fun y ↦
      (decode? (encode v.z)).bind fun z ↦ some (⟨x, y, z⟩ : Vec3 Float32)) = _
    rw [hx, hy, hz]
    rfl
  decode?_eq := nofun

end

structure Quaternion.Finite (q : Quaternion Float32) : Prop where
  w : q.w.isFinite = true
  x : q.x.isFinite = true
  y : q.y.isFinite = true
  z : q.z.isFinite = true

def Quaternion.fields : List (String × Layout) :=
  [("w", layout Float32), ("x", layout Float32), ("y", layout Float32), ("z", layout Float32)]

instance : Portable (Quaternion Float32) where
  layout := .record Quaternion.fields
  Writable := Quaternion.Finite
  describes q := .record (.object rfl (by simp [describes, Quaternion.fields]))
  decode?_encode {q} h := by
    have hrecord : (encode q).isRecord 4 = true := rfl
    change (if (encode q).isRecord 4 then _ else none) = _
    rw [if_pos hrecord,
      required_encode (encode q) 0 "w" rfl h.w,
      required_encode (encode q) 1 "x" rfl h.x,
      required_encode (encode q) 2 "y" rfl h.y,
      required_encode (encode q) 3 "z" rfl h.z]
    rfl
  decode?_eq {j j'} h := by
    have hnames : (Quaternion.fields.map Prod.fst).Nodup := by decide
    change (if j.isRecord 4 then _ else none) = if j'.isRecord 4 then _ else none
    rw [h.isRecord_eq 4 rfl, h.required_eq hnames 0 "w" rfl, h.required_eq hnames 1 "x" rfl,
      h.required_eq hnames 2 "y" rfl, h.required_eq hnames 3 "z" rfl]

structure Hsb.Finite (c : Hsb Float32) : Prop where
  hue : c.hue.isFinite = true
  saturation : c.saturation.isFinite = true
  brightness : c.brightness.isFinite = true

def Hsb.fields : List (String × Layout) :=
  [("hue", layout Float32), ("saturation", layout Float32), ("brightness", layout Float32)]

instance : Portable (Hsb Float32) where
  layout := .record Hsb.fields
  Writable := Hsb.Finite
  describes c := .record (.object rfl (by simp [describes, Hsb.fields]))
  decode?_encode {c} h := by
    have hrecord : (encode c).isRecord 3 = true := rfl
    change (if (encode c).isRecord 3 then _ else none) = _
    rw [if_pos hrecord,
      required_encode (encode c) 0 "hue" rfl h.hue,
      required_encode (encode c) 1 "saturation" rfl h.saturation,
      required_encode (encode c) 2 "brightness" rfl h.brightness]
    rfl
  decode?_eq {j j'} h := by
    have hnames : (Hsb.fields.map Prod.fst).Nodup := by decide
    change (if j.isRecord 3 then _ else none) = if j'.isRecord 3 then _ else none
    rw [h.isRecord_eq 3 rfl, h.required_eq hnames 0 "hue" rfl,
      h.required_eq hnames 1 "saturation" rfl, h.required_eq hnames 2 "brightness" rfl]

structure Turtle.Finite (t : Turtle Float32) : Prop where
  segmentStart : t.segmentStart.Finite
  position : t.position.Finite
  orientation : t.orientation.Finite
  stepSize : t.stepSize.isFinite = true
  stepAngle : t.stepAngle.isFinite = true
  hue : t.hue.isFinite = true
  saturation : t.saturation.isFinite = true
  brightness : t.brightness.isFinite = true

def Turtle.fields : List (String × Layout) :=
  [("position0", layout (Vec3 Float32)), ("position1", layout (Vec3 Float32)),
    ("orientation", layout (Quaternion Float32)), ("step_size", layout Float32),
    ("step_angle", layout Float32), ("hue", layout Float32), ("saturation", layout Float32),
    ("brightness", layout Float32)]

instance : Portable (Turtle Float32) where
  layout := .record Turtle.fields
  Writable := Turtle.Finite
  describes t := .record (.object rfl (by simp [describes, Turtle.fields]))
  decode?_encode {t} h := by
    have hrecord : (encode t).isRecord 8 = true := rfl
    change (if (encode t).isRecord 8 then _ else none) = _
    rw [if_pos hrecord,
      required_encode (encode t) 0 "position0" rfl h.segmentStart,
      required_encode (encode t) 1 "position1" rfl h.position,
      required_encode (encode t) 2 "orientation" rfl h.orientation,
      required_encode (encode t) 3 "step_size" rfl h.stepSize,
      required_encode (encode t) 4 "step_angle" rfl h.stepAngle,
      required_encode (encode t) 5 "hue" rfl h.hue,
      required_encode (encode t) 6 "saturation" rfl h.saturation,
      required_encode (encode t) 7 "brightness" rfl h.brightness]
    rfl
  decode?_eq {j j'} h := by
    have hnames : (Turtle.fields.map Prod.fst).Nodup := by decide
    change (if j.isRecord 8 then _ else none) = if j'.isRecord 8 then _ else none
    rw [h.isRecord_eq 8 rfl, h.required_eq hnames 0 "position0" rfl,
      h.required_eq hnames 1 "position1" rfl, h.required_eq hnames 2 "orientation" rfl,
      h.required_eq hnames 3 "step_size" rfl, h.required_eq hnames 4 "step_angle" rfl,
      h.required_eq hnames 5 "hue" rfl, h.required_eq hnames 6 "saturation" rfl,
      h.required_eq hnames 7 "brightness" rfl]

def Tree.Node.fields (σ : Type) [Coded σ] [Portable σ] : List (String × Layout) :=
  [("state", layout σ), ("parent", layout (Option Nat)), ("children", layout (List Nat))]

variable {σ : Type} [Coded σ] [Portable σ]

instance : Portable (Tree.Node σ) where
  layout := .record (Tree.Node.fields σ)
  Writable n := Writable n.state ∧ Tree.ReadableLink (n.parent, n.children)
  describes n := .record (.object rfl (by simp [describes, Tree.Node.fields]))
  decode?_encode h := Tree.decode?_encode_node (decode?_encode h.1) h.2
  decode?_eq {j j'} h := by
    have hnames : ((Tree.Node.fields σ).map Prod.fst).Nodup := by simp [Tree.Node.fields]
    change (if j.isRecord 3 then _ else none) = if j'.isRecord 3 then _ else none
    rw [h.isRecord_eq 3 rfl, h.required_eq hnames 0 "state" rfl,
      h.optional_eq hnames 1 "parent" rfl, h.required_eq hnames 2 "children" rfl]

def Tree.fields (σ : Type) [Coded σ] [Portable σ] : List (String × Layout) :=
  [("nodes", layout (List (Tree.Node σ)))]

instance : Portable (Tree σ) where
  layout := .record (Tree.fields σ)
  Writable t := (∀ n ∈ t.nodes, Writable n.state) ∧ ∀ l ∈ t.links, Tree.ReadableLink l
  describes t := .record (.object rfl (by simp [describes, Tree.fields]))
  decode?_encode h := Tree.decode?_encode_tree (fun n hn ↦ decode?_encode (h.1 n hn)) h.2
  decode?_eq {j j'} h := by
    have hnames : ((Tree.fields σ).map Prod.fst).Nodup := by simp [Tree.fields]
    change (if j.isRecord 1 then _ else none) = if j'.isRecord 1 then _ else none
    rw [h.isRecord_eq 1 rfl, h.required_eq hnames 0 "nodes" rfl]

def Shape.Finite : Shape Float32 → Prop
  | .point position color => position.Finite ∧ color.Finite
  | .line start stop color => start.Finite ∧ stop.Finite ∧ color.Finite

def Shape.pointFields : List (String × Layout) :=
  [("position", layout (Vec3 Float32)), ("color", layout (Hsb Float32))]

def Shape.lineFields : List (String × Layout) :=
  [("start", layout (Vec3 Float32)), ("end", layout (Vec3 Float32)),
    ("color", layout (Hsb Float32))]

instance : Portable (Shape Float32) where
  layout := .choice [("Point", .object Shape.pointFields), ("Line", .object Shape.lineFields)]
  Writable := Shape.Finite
  describes
    | .point position color =>
      .choice (.head _) (.object rfl (by simp [describes, Shape.pointFields]))
    | .line start stop color =>
      .choice (.tail _ (.head _)) (.object rfl (by simp [describes, Shape.lineFields]))
  decode?_encode {shape} h := by
    cases shape with
    | point position color =>
      let entries := [("position", encode position), ("color", encode color)]
      change ((Json.required (.object entries) 0 "position").bind fun position ↦
        (Json.required (.object entries) 1 "color").bind fun color ↦
          some (Shape.point position color)) = _
      rw [required_encode (.object entries) 0 "position" rfl h.1,
        required_encode (.object entries) 1 "color" rfl h.2]
      rfl
    | line start stop color =>
      let entries := [("start", encode start), ("end", encode stop), ("color", encode color)]
      change ((Json.required (.object entries) 0 "start").bind fun start ↦
        (Json.required (.object entries) 1 "end").bind fun stop ↦
          (Json.required (.object entries) 2 "color").bind fun color ↦
            some (Shape.line start stop color)) = _
      rw [required_encode (.object entries) 0 "start" rfl h.1,
        required_encode (.object entries) 1 "end" rfl h.2.1,
        required_encode (.object entries) 2 "color" rfl h.2.2]
      rfl
  decode?_eq h := by
    have hpoint : (Shape.pointFields.map Prod.fst).Nodup := by decide
    have hline : (Shape.lineFields.map Prod.fst).Nodup := by decide
    cases h with
    | choice hkind h =>
      simp only [List.mem_cons, Prod.mk.injEq, List.not_mem_nil, or_false] at hkind
      obtain ⟨rfl, rfl⟩ | ⟨rfl, rfl⟩ := hkind
      · obtain ⟨entries, entries', rfl, rfl⟩ := h.exists_entries
        have hrecord := Json.Rearranged.ofObject h
        change (Json.required (.object entries) 0 "position").bind _ =
          (Json.required (.object entries') 0 "position").bind _
        rw [hrecord.required_eq hpoint 0 "position" rfl, hrecord.required_eq hpoint 1 "color" rfl]
      · obtain ⟨entries, entries', rfl, rfl⟩ := h.exists_entries
        have hrecord := Json.Rearranged.ofObject h
        change (Json.required (.object entries) 0 "start").bind _ =
          (Json.required (.object entries') 0 "start").bind _
        rw [hrecord.required_eq hline 0 "start" rfl, hrecord.required_eq hline 1 "end" rfl,
          hrecord.required_eq hline 2 "color" rfl]

instance : Portable View where
  layout := .plain
  Writable _ := True
  describes _ := .scalar nofun nofun
  decode?_encode {view} _ := by cases view <;> rfl
  decode?_eq := nofun

structure Particle.Readable (p : Particle Float32) : Prop where
  id : ReadableId p.id
  node : ReadableId p.node
  position : p.position.Finite
  velocity : p.velocity.Finite
  life : p.life.isFinite = true

def Particle.fields : List (String × Layout) :=
  [("id", layout Nat), ("node", layout Nat), ("position", layout (Vec3 Float32)),
    ("velocity", layout (Vec3 Float32)), ("life", layout Float32)]

instance : Portable (Particle Float32) where
  layout := .record Particle.fields
  Writable := Particle.Readable
  describes p := .record (.object rfl (by simp [describes, Particle.fields]))
  decode?_encode {p} h := by
    have hrecord : (encode p).isRecord 5 = true := rfl
    change (if (encode p).isRecord 5 then _ else none) = _
    rw [if_pos hrecord,
      required_encode (encode p) 0 "id" rfl h.id,
      required_encode (encode p) 1 "node" rfl h.node,
      required_encode (encode p) 2 "position" rfl h.position,
      required_encode (encode p) 3 "velocity" rfl h.velocity,
      required_encode (encode p) 4 "life" rfl h.life]
    rfl
  decode?_eq {j j'} h := by
    have hnames : (Particle.fields.map Prod.fst).Nodup := by decide
    change (if j.isRecord 5 then _ else none) = if j'.isRecord 5 then _ else none
    rw [h.isRecord_eq 5 rfl, h.required_eq hnames 0 "id" rfl, h.required_eq hnames 1 "node" rfl,
      h.required_eq hnames 2 "position" rfl, h.required_eq hnames 3 "velocity" rfl,
      h.required_eq hnames 4 "life" rfl]

structure Physics.Finite (c : Physics Float32) : Prop where
  lifetime : c.lifetime.isFinite = true
  gravity : c.gravity.isFinite = true
  floor : c.floor.isFinite = true
  restitution : c.restitution.isFinite = true

def Physics.fields : List (String × Layout) :=
  [("max_life", layout Float32), ("gravity", layout Float32), ("floor", layout Float32),
    ("restitution", layout Float32)]

instance : Portable (Physics Float32) where
  layout := .record Physics.fields
  Writable := Physics.Finite
  describes c := .record (.object rfl (by simp [describes, Physics.fields]))
  decode?_encode {c} h := by
    have hrecord : (encode c).isRecord 4 = true := rfl
    change (if (encode c).isRecord 4 then _ else none) = _
    rw [if_pos hrecord,
      optional_encode (encode c) 0 "max_life" rfl h.lifetime,
      optional_encode (encode c) 1 "gravity" rfl h.gravity,
      optional_encode (encode c) 2 "floor" rfl h.floor,
      optional_encode (encode c) 3 "restitution" rfl h.restitution]
    rfl
  decode?_eq {j j'} h := by
    have hnames : (Physics.fields.map Prod.fst).Nodup := by decide
    change (if j.isRecord 4 then _ else none) = if j'.isRecord 4 then _ else none
    rw [h.isRecord_eq 4 rfl, h.optional_eq hnames 0 "max_life" rfl,
      h.optional_eq hnames 1 "gravity" rfl, h.optional_eq hnames 2 "floor" rfl,
      h.optional_eq hnames 3 "restitution" rfl]

structure Parameters.Finite (p : Parameters Float32) : Prop where
  angleGrowth : p.angleGrowth.isFinite = true
  sizeGrowth : p.sizeGrowth.isFinite = true
  stepAngle : p.stepAngle.isFinite = true
  stepSize : p.stepSize.isFinite = true

def Parameters.fields : List (String × Layout) :=
  [("angleGrowth", layout Float32), ("sizeGrowth", layout Float32), ("stepAngle", layout Float32),
    ("stepSize", layout Float32)]

instance : Portable (Parameters Float32) where
  layout := .record Parameters.fields
  Writable := Parameters.Finite
  describes p := .record (.object rfl (by simp [describes, Parameters.fields]))
  decode?_encode {p} h := by
    have hrecord : (encode p).isRecord 4 = true := rfl
    change (if (encode p).isRecord 4 then _ else none) = _
    rw [if_pos hrecord,
      optional_encode (encode p) 0 "angleGrowth" rfl h.angleGrowth,
      optional_encode (encode p) 1 "sizeGrowth" rfl h.sizeGrowth,
      optional_encode (encode p) 2 "stepAngle" rfl h.stepAngle,
      optional_encode (encode p) 3 "stepSize" rfl h.stepSize]
    rfl
  decode?_eq {j j'} h := by
    have hnames : (Parameters.fields.map Prod.fst).Nodup := by decide
    change (if j.isRecord 4 then _ else none) = if j'.isRecord 4 then _ else none
    rw [h.isRecord_eq 4 rfl, h.optional_eq hnames 0 "angleGrowth" rfl,
      h.optional_eq hnames 1 "sizeGrowth" rfl, h.optional_eq hnames 2 "stepAngle" rfl,
      h.optional_eq hnames 3 "stepSize" rfl]

structure Definition.Readable (d : Definition Float32) : Prop where
  iterations : d.iterations < 0x100000000
  parameters : d.parameters.Finite

def Definition.fields : List (String × Layout) :=
  [("start", layout String), ("rules", layout (Std.ExtTreeMap String String)),
    ("iterations", layout Nat), ("parameters", layout (Parameters Float32))]

instance : Portable (Definition Float32) where
  layout := .record Definition.fields
  Writable := Definition.Readable
  describes d := .record (.object rfl (by simp [describes, Definition.fields]))
  decode?_encode {d} h := by
    have hrecord : (encode d).isRecord 4 = true := rfl
    have hfield : (encode d).field? 2 "iterations" = some (encode d.iterations) := rfl
    have hiterations : (encode d.iterations).natBelow? 0x100000000 = some d.iterations :=
      Json.natBelow?_eq_some_iff.mpr ⟨rfl, h.iterations⟩
    change (if (encode d).isRecord 4 then _ else none) = _
    rw [if_pos hrecord, hfield]
    simp only [hiterations, optional_encode (encode d) 0 "start" rfl trivial,
      optional_encode (encode d) 1 "rules" rfl trivial,
      optional_encode (encode d) 3 "parameters" rfl h.parameters]
    rfl
  decode?_eq {j j'} h := by
    have hnames : (Definition.fields.map Prod.fst).Nodup := by decide
    change (if j.isRecord 4 then _ else none) = if j'.isRecord 4 then _ else none
    rw [h.isRecord_eq 4 rfl, h.optional_eq hnames 0 "start" rfl,
      h.optional_eq hnames 1 "rules" rfl, h.field?_eq hnames 2 "iterations" rfl,
      h.optional_eq hnames 3 "parameters" rfl]

/-- Decoding undoes encoding, for all values with finite numbers, with ids of 64 bits and with a
number of passes of 32 bits. In every record of what is written the keys may be permuted and other
keys may be added, and an array of the fields may stand for every record that is not directly inside
a shape. -/
theorem restored_of_finite :
    (∀ p : Parameters Float32, p.Finite → Restored p) ∧
    (∀ d : Definition Float32, d.Readable → Restored d) ∧
    (∀ t : Turtle Float32, t.Finite → Restored t) ∧
    (∀ t : Tree (Turtle Float32), (∀ n ∈ t.nodes, n.state.Finite) →
      (∀ l ∈ t.links, Tree.ReadableLink l) → Restored t) ∧
    (∀ q : Quaternion Float32, q.Finite → Restored q) ∧
    (∀ c : Hsb Float32, c.Finite → Restored c) ∧
    (∀ s : Shape Float32, s.Finite → Restored s) ∧
    (∀ v : View, Restored v) ∧
    (∀ c : Physics Float32, c.Finite → Restored c) ∧
    (∀ p : Particle Float32, p.Readable → Restored p) ∧
    (∀ id : Nat, ReadableId id → Restored id) :=
  ⟨fun _ h ↦ Portable.restored h, fun _ h ↦ Portable.restored h,
    fun _ h ↦ Portable.restored h, fun _ h h' ↦ Portable.restored ⟨h, h'⟩,
    fun _ h ↦ Portable.restored h, fun _ h ↦ Portable.restored h, fun _ h ↦ Portable.restored h,
    fun _ ↦ Portable.restored trivial, fun _ h ↦ Portable.restored h,
    fun _ h ↦ Portable.restored h, fun _ h ↦ Portable.restored h⟩

theorem restored_of_finite_of_fork :
    let s : Turtle Float32 := { (default : Turtle Float32) with hue := -0 }
    let t : Tree (Turtle Float32) := (Tree.ofRoot s).addChild 0 s
    let root := .array [encode s, .null, .array [.integer 1]]
    let child := .object [("label", .string "leaf"), ("parent", .integer 0), ("state", encode s),
      ("children", .array [])]
    (∀ n ∈ t.nodes, n.state.Finite) ∧ (∀ l ∈ t.links, Tree.ReadableLink l) ∧
      decode? (encode t) = some t ∧
      decode? (.object [("nodes", .array [root, child])]) = some t := by
  intro s t root child
  have hs : s.Finite := by
    refine ⟨⟨?_, ?_, ?_⟩, ⟨?_, ?_, ?_⟩, ⟨?_, ?_, ?_, ?_⟩, ?_, ?_, ?_, ?_, ?_⟩ <;>
      decide +kernel
  have hnodes : t.nodes = #[⟨s, none, [1]⟩, ⟨s, some 0, []⟩] := rfl
  have hlinks : t.links = #[(none, [1]), (some 0, [])] := by simp [Tree.links, hnodes]
  have hfinite : ∀ n ∈ t.nodes, n.state.Finite := by
    simp [hnodes, hs]
  have hreadable : ∀ l ∈ t.links, Tree.ReadableLink l := by
    simp [hlinks, Tree.ReadableLink, ReadableId]
  have hlift (before after : List Json) {n n' : Json}
      (h : n.Rearranged (layout (Tree.Node (Turtle Float32))) n') :
      Json.Rearranged (layout (Tree (Turtle Float32)))
        (.object [("nodes", .array (before ++ n :: after))])
        (.object [("nodes", .array (before ++ n' :: after))]) :=
    .ofObject (@Json.Rearranged.field _ [] [] _ _ _ _ (.head _) (.item h))
  obtain ⟨-, -, -, htree, -⟩ := restored_of_finite
  have h := htree t hfinite hreadable
  refine ⟨hfinite, hreadable, h.read, h.rearranged _ ?_⟩
  let fields := Tree.Node.fields (Turtle Float32)
  let first : List (String × Json) :=
    [("state", encode s), ("parent", .null), ("children", .array [.integer 1])]
  let second : List (String × Json) :=
    [("state", encode s), ("parent", .integer 0), ("children", .array [])]
  let swapped : List (String × Json) :=
    [("parent", .integer 0), ("state", encode s), ("children", .array [])]
  have hencode : encode t = .object [("nodes", .array [.object first, .object second])] := rfl
  have harray : Json.Rearranged (.record fields) (.object first) root := .array rfl
  have hpermute : Json.Rearranged (.record fields) (.object second) (.object swapped) :=
    .ofObject (.permute (by decide) (.swap _ _ _))
  have hinsert : Json.Rearranged (.record fields) (.object swapped) child :=
    .ofObject (@Json.Rearranged.insert _ [] swapped "label" _ (by decide))
  rw [hencode]
  exact .trans _ _ _ (.rel _ _ (hlift [] [.object second] harray))
    (.trans _ _ _ (.rel _ _ (hlift [root] [] hpermute)) (.rel _ _ (hlift [root] [] hinsert)))

end BranchStream
