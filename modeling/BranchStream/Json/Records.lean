import BranchStream.Json.Coded
import BranchStream.Rewriting.Definition
import BranchStream.Stream.Particle

namespace BranchStream

open Json (required optional)

variable {α : Type} [Coded α]

instance : Coded (Vec3 α) where
  encode v := .array [encode v.x, encode v.y, encode v.z]
  decode?
    | .array [x, y, z] => return ⟨← decode? x, ← decode? y, ← decode? z⟩
    | _ => none

instance : Coded (Quaternion α) where
  encode q := .object [("w", encode q.w), ("x", encode q.x), ("y", encode q.y), ("z", encode q.z)]
  decode? j := do
    if j.isRecord 4 then
      return ⟨← required j 0 "w", ← required j 1 "x", ← required j 2 "y", ← required j 3 "z"⟩
    else none

instance : Coded (Hsb α) where
  encode c := .object [("hue", encode c.hue), ("saturation", encode c.saturation),
    ("brightness", encode c.brightness)]
  decode? j := do
    if j.isRecord 3 then
      return ⟨← required j 0 "hue", ← required j 1 "saturation", ← required j 2 "brightness"⟩
    else none

instance : Coded (Turtle α) where
  encode t := .object [("position0", encode t.segmentStart), ("position1", encode t.position),
    ("orientation", encode t.orientation), ("step_size", encode t.stepSize),
    ("step_angle", encode t.stepAngle), ("hue", encode t.hue),
    ("saturation", encode t.saturation), ("brightness", encode t.brightness)]
  decode? j := do
    if j.isRecord 8 then
      return {
        segmentStart := ← required j 0 "position0"
        position := ← required j 1 "position1"
        orientation := ← required j 2 "orientation"
        stepSize := ← required j 3 "step_size"
        stepAngle := ← required j 4 "step_angle"
        hue := ← required j 5 "hue"
        saturation := ← required j 6 "saturation"
        brightness := ← required j 7 "brightness" }
    else none

/-- A node without parent may leave that field out. -/
instance {σ : Type} [Coded σ] : Coded (Tree.Node σ) where
  encode n := .object [("state", encode n.state), ("parent", encode n.parent),
    ("children", encode n.children)]
  decode? j := do
    if j.isRecord 3 then
      return ⟨← required j 0 "state", ← optional j 1 "parent" none, ← required j 2 "children"⟩
    else none

instance {σ : Type} [Coded σ] : Coded (Tree σ) where
  encode t := .object [("nodes", encode t.nodes.toList)]
  decode? j := do
    if j.isRecord 1 then
      let nodes : List (Tree.Node σ) ← required j 0 "nodes"
      return ⟨nodes.toArray⟩
    else none

/-- One field names the kind of shape; what it holds must be an object. -/
instance : Coded (Shape α) where
  encode
    | .point position color =>
      .object [("Point", .object [("position", encode position), ("color", encode color)])]
    | .line start stop color =>
      .object [("Line", .object [("start", encode start), ("end", encode stop),
        ("color", encode color)])]
  decode?
    | .object [("Point", .object fields)] =>
      return .point (← required (.object fields) 0 "position")
        (← required (.object fields) 1 "color")
    | .object [("Line", .object fields)] =>
      return .line (← required (.object fields) 0 "start") (← required (.object fields) 1 "end")
        (← required (.object fields) 2 "color")
    | _ => none

def View.name : View → String
  | .particles => "Particles"
  | .tree => "Tree"
  | .both => "Both"

def View.ofName? : String → Option View
  | "Particles" => some .particles
  | "Tree" => some .tree
  | "Both" => some .both
  | _ => none

/-- The name alone or an object that maps it to `null`. -/
instance : Coded View where
  encode m := .string m.name
  decode?
    | .string s => View.ofName? s
    | .object [(s, .null)] => View.ofName? s
    | _ => none

instance : Coded (Particle α) where
  encode p := .object [("id", encode p.id), ("node", encode p.node),
    ("position", encode p.position), ("velocity", encode p.velocity), ("life", encode p.life)]
  decode? j := do
    if j.isRecord 5 then
      return ⟨← required j 0 "id", ← required j 1 "node", ← required j 2 "position",
        ← required j 3 "velocity", ← required j 4 "life"⟩
    else none

variable [Scalar α]

instance : Coded (Physics α) where
  encode c := .object [("max_life", encode c.lifetime), ("gravity", encode c.gravity),
    ("floor", encode c.floor), ("restitution", encode c.restitution)]
  decode? j := do
    let missing : Physics α := default
    if j.isRecord 4 then
      return ⟨← optional j 0 "max_life" missing.lifetime, ← optional j 1 "gravity" missing.gravity,
        ← optional j 2 "floor" missing.floor, ← optional j 3 "restitution" missing.restitution⟩
    else none

instance : Coded (Parameters α) where
  encode p := .object [("angleGrowth", encode p.angleGrowth), ("sizeGrowth", encode p.sizeGrowth),
    ("stepAngle", encode p.stepAngle), ("stepSize", encode p.stepSize)]
  decode? j := do
    if j.isRecord 4 then
      return ⟨← optional j 0 "angleGrowth" 0, ← optional j 1 "sizeGrowth" 0,
        ← optional j 2 "stepAngle" 0, ← optional j 3 "stepSize" 0⟩
    else none

instance : Coded (Definition α) where
  encode d := .object [("start", encode d.start), ("rules", encode d.rules),
    ("iterations", encode d.iterations), ("parameters", encode d.parameters)]
  decode? j := do
    let missing : Definition α := default
    if j.isRecord 4 then
      let iterations ←
        match j.field? 2 "iterations" with
        | some field => field.natBelow? 0x100000000
        | none => some missing.iterations
      return ⟨← optional j 0 "start" missing.start, ← optional j 1 "rules" missing.rules,
        iterations, ← optional j 3 "parameters" missing.parameters⟩
    else none

end BranchStream
