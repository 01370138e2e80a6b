import Midend.Main
import Midend.Proofs.BitSet
import Midend.Proofs.BitSet.IndexSet
import Midend.Proofs.Digraph.Traversal
import Midend.Proofs.Dominance.Sets
import Midend.Proofs.Attempt
import Midend.Proofs.Dominance.Exact
import Midend.Proofs.Dominance.Tree
import Midend.Proofs.Dominance.Walk
import Midend.Proofs.FlowGraph.Build
import Midend.Proofs.FlowGraph.Faithful
import Midend.Proofs.FlowGraph.Recast
import Midend.Proofs.FlowGraph.Unreachable
import Midend.Proofs.Fold
import Midend.Proofs.Ssa.Construct
import Midend.Proofs.Ssa.Establish
import Midend.Proofs.Ssa.Kept
import Midend.Proofs.Values.Bodies
import Midend.Proofs.Values.Global
import Midend.Proofs.Values.Local
import Midend.Proofs.Values.Repeat
import Midend.Proofs.Dataflow.Solver
import Midend.Proofs.DeadCode
import Midend.Proofs.FlowGraph.SplitEdge
import Midend.Proofs.Names
import Midend.Proofs.Optimizer
import Midend.Proofs.Ssa.Boundary
import Midend.Proofs.Ssa.Temporaries
import Midend.Proofs.FlowGraph.Signature
import Midend.Proofs.Optimizer.Independence
import Midend.Proofs.FlowGraph.Evolution
import Midend.Proofs.FlowGraph.Transparent
import Midend.Proofs.Optimizer.Again
import Midend.Proofs.Optimizer.Rounds
import Midend.Proofs.Program.RoundTrip
import Midend.Proofs.Pass.DeadCode
import Midend.Proofs.Dataflow.Convergence
import Midend.Proofs.Dataflow.Definitions
import Midend.Proofs.Registers.Allocation
import Midend.Proofs.Typing.Program
import Midend.Proofs.Checked.Optimizer
import Midend.Proofs.Dominance.Meeting
import Midend.Proofs.Dominance.Represents
import Midend.Proofs.Ssa.IteratedFrontier
import Midend.Proofs.Registers.Core
import Midend.Proofs.Registers.SafeMerges
import Midend.Proofs.Traces.Program
import Midend.Proofs.Dataflow.Exposure
import Midend.Proofs.Values.SharedTable
import Midend.Proofs.Ssa.NameStacks
