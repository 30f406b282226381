import BranchStream.Binary32.Instances
import BranchStream.Scene.Request
import BranchStream.Json.Reader
import BranchStream.Json.Printer
import BranchStream.Json.Records
import BranchStream.Proofs.Scene.Lifecycle
import BranchStream.Proofs.Scene.Rebuild
import BranchStream.Proofs.Scene.References
import BranchStream.Proofs.Stream.Conservation
import BranchStream.Proofs.Rewriting.Derivation
import BranchStream.Proofs.Turtle.Brackets
import BranchStream.Proofs.Turtle.DepthLimit
import BranchStream.Proofs.Branches.DepthFirst
import BranchStream.Proofs.Turtle.Numbering
import BranchStream.Proofs.Branches.Deletion
import BranchStream.Proofs.Turtle.Scope
import BranchStream.Proofs.Turtle.History
import BranchStream.Proofs.Stream.Course
import BranchStream.Proofs.Scene.Emission
import BranchStream.Proofs.Scene.Arrivals
import BranchStream.Proofs.Scene.Observation
import BranchStream.Proofs.Scene.Remapping
import BranchStream.Proofs.Scene.Colors
import BranchStream.Proofs.Turtle.Segments
import BranchStream.Proofs.Scene.Budget
import BranchStream.Proofs.Json.Arenas
import BranchStream.Proofs.Rewriting.Size
import BranchStream.Proofs.Rewriting.Iteration
import BranchStream.Proofs.Turtle.Balance
import BranchStream.Proofs.Turtle.Outline
import BranchStream.Proofs.Turtle.Extension
import BranchStream.Proofs.Branches.Preorder
import BranchStream.Proofs.Branches.Depth
import BranchStream.Proofs.Stream.Levels
import BranchStream.Proofs.Stream.Families
import BranchStream.Proofs.Stream.Bounds
import BranchStream.Proofs.Rewriting.Loading
import BranchStream.Proofs.Turtle.Rigid
import BranchStream.Proofs.Binary32.Sign
import BranchStream.Proofs.Scene.Partition
import BranchStream.Proofs.Stream.Bounce
import BranchStream.Proofs.Geometry.AxisAngle
import BranchStream.Proofs.Geometry.RoundTrip
import BranchStream.Proofs.Stream.Traversal
import BranchStream.Proofs.Binary32.Decimals
import BranchStream.Proofs.Json.Layouts
import BranchStream.Proofs.Json.Records
