import ScriptTree.Command.Program
import ScriptTree.Main
import ScriptTree.Proofs.Run.Follow
import ScriptTree.Proofs.Run.World
import ScriptTree.Proofs.Run.Variables
import ScriptTree.Proofs.Run.Frame
import ScriptTree.Proofs.Run.Counter
import ScriptTree.Proofs.Run.Early
import ScriptTree.Proofs.Run.Simulation
import ScriptTree.Proofs.Run.Constructs
import ScriptTree.Proofs.Run.Calls
import ScriptTree.Proofs.Run.Congruence
import ScriptTree.Proofs.Run.Native
import ScriptTree.Proofs.Run.Bisimulation
import ScriptTree.Proofs.Optimize.Rewriting
import ScriptTree.Proofs.Run.Observation
import ScriptTree.Proofs.Optimize.Shape
import ScriptTree.Proofs.Optimize.Soundness
import ScriptTree.Proofs.Optimize.Folding
import ScriptTree.Proofs.Optimize.Walk
import ScriptTree.Proofs.Optimize.Sparing
import ScriptTree.Proofs.Run.Steady
import ScriptTree.Proofs.Run.Quiet
import ScriptTree.Proofs.Optimize.Preservation
import ScriptTree.Proofs.Optimize.Specialization
import ScriptTree.Proofs.Json.Literals
import ScriptTree.Proofs.Floating.ReadBack
import ScriptTree.Proofs.Json.RoundTrip
import ScriptTree.Proofs.Optimize.SecondWalk
import ScriptTree.Proofs.Optimize.Order
import ScriptTree.Proofs.Optimize.Coherence
import ScriptTree.Proofs.Tree.Emission
import ScriptTree.Proofs.Run.Bindings
import ScriptTree.Proofs.Run.Arity
import ScriptTree.Proofs.Types.Registry
import ScriptTree.Proofs.Types.Variants
import ScriptTree.Proofs.Settings.Accepted
import ScriptTree.Proofs.Settings.Gating
import ScriptTree.Proofs.Settings.Saving
import ScriptTree.Proofs.Command.Watching
import ScriptTree.Proofs.Files.Scheduling
import ScriptTree.Proofs.Files.Emitting
import ScriptTree.Proofs.Optimize.Unwrapping
import ScriptTree.Proofs.Optimize.Shrinking
import ScriptTree.Proofs.Tree.Reoptimizing
import ScriptTree.Proofs.Tree.Reading
import ScriptTree.Proofs.Value.Integers
import ScriptTree.Proofs.Run.Flows
import ScriptTree.Proofs.Run.Assigning
import ScriptTree.Proofs.Run.Counting
import ScriptTree.Proofs.Run.Compound
import ScriptTree.Proofs.Tree.Sameness
import ScriptTree.Proofs.Tree.Printing
import ScriptTree.Proofs.Source.Covering
