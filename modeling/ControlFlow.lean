import ControlFlow.BlockId
import ControlFlow.DomTree.Basic
import ControlFlow.DomTree.Frontier
import ControlFlow.DomTree.OfIdoms
import ControlFlow.Dominators
import ControlFlow.Edge
import ControlFlow.EdgeIndex
import ControlFlow.Fault
import ControlFlow.Fixpoint
import ControlFlow.Flowgraph.Analysis
import ControlFlow.Flowgraph.Basic
import ControlFlow.Flowgraph.Block
import ControlFlow.Flowgraph.Build
import ControlFlow.Flowgraph.Revise
import ControlFlow.IdSet
import ControlFlow.Numbering
import ControlFlow.Passes
import ControlFlow.Semidominator.Forest
import ControlFlow.Semidominator.Sweep
import ControlFlow.View
import ControlFlow.Walk
import ControlFlow.Proofs.Route
import ControlFlow.Proofs.Dominance
import ControlFlow.Proofs.Tables
import ControlFlow.Proofs.Semidominator.Detour
import ControlFlow.Proofs.Semidominator.Forest
import ControlFlow.Proofs.Semidominator.Sweep
import ControlFlow.Proofs.Semidominator.Solve
import ControlFlow.Proofs.Semidominator.Run
import ControlFlow.Proofs.Semidominator.Compression
import ControlFlow.Proofs.Semidominator.Calls
import ControlFlow.Proofs.Semidominator.Uncompressed
import ControlFlow.Proofs.Numbering.Finished
import ControlFlow.Proofs.Numbering.Spanning
import ControlFlow.Proofs.Fixpoint.Guard
import ControlFlow.Proofs.Fixpoint.Rounds
import ControlFlow.Proofs.Fixpoint
import ControlFlow.Proofs.Numbering.Reverse
import ControlFlow.Proofs.DomTree.OfIdoms
import ControlFlow.Proofs.DomTree.Frontier
import ControlFlow.Proofs.DomTree.Returned
import ControlFlow.Proofs.DomTree.Closure
import ControlFlow.Proofs.Dominators
import ControlFlow.Proofs.Fixpoint.Table
import ControlFlow.Proofs.Semidominators
import ControlFlow.Proofs.Numbering.Classes
import ControlFlow.Proofs.Numbering.Retreat
import ControlFlow.Proofs.Agreement
import ControlFlow.Proofs.Reached
import ControlFlow.Proofs.Frontier
import ControlFlow.Proofs.Contraction
import ControlFlow.Proofs.Convergence
import ControlFlow.Proofs.IteratedFrontier
import ControlFlow.Proofs.Flowgraph.Change
import ControlFlow.Proofs.Flowgraph.Neighbours
import ControlFlow.Proofs.Flowgraph.Consistent
import ControlFlow.Proofs.Flowgraph.Core
import ControlFlow.Proofs.Flowgraph.Record
import ControlFlow.Proofs.Flowgraph.History
import ControlFlow.Proofs.Flowgraph.Traces
import ControlFlow.Proofs.Flowgraph.Branch
import ControlFlow.Proofs.Flowgraph.Bypass
import ControlFlow.Proofs.Flowgraph.Bypassed
import ControlFlow.Proofs.Flowgraph.BypassAll
import ControlFlow.Proofs.Flowgraph.InStep
import ControlFlow.Proofs.Flowgraph.Dominance
import ControlFlow.Proofs.Flowgraph.Layout
import ControlFlow.Proofs.Flowgraph.Prune
import ControlFlow.Proofs.Flowgraph.Tests
import ControlFlow.Proofs.Flowgraph.Outcome
import ControlFlow.Proofs.Flowgraph.Forks
import ControlFlow.Proofs.Flowgraph.Conditional
import ControlFlow.Proofs.Flowgraph.Reanalysis
import ControlFlow.Proofs.Visits
import ControlFlow.Proofs.Traversal
import ControlFlow.Proofs.DomTree.Threaded
import ControlFlow.Proofs.DomTree.Queries
import ControlFlow.Proofs.DomTree.Nearest
import ControlFlow.Proofs.IdSet.Elements
import ControlFlow.Proofs.IdSet.History
import ControlFlow.Proofs.DomTree.Stepwise
import ControlFlow.Proofs.DomTree.Hunt
import ControlFlow.Proofs.DomTree.Refusal
import ControlFlow.Proofs.Flowgraph.Cached
import ControlFlow.Proofs.Flowgraph.Stepwise
import ControlFlow.Proofs.Flowgraph.Atomic
import ControlFlow.Proofs.Flowgraph.Unknown
import ControlFlow.Proofs.Flowgraph.Shape
import ControlFlow.Proofs.Flowgraph.Order
import ControlFlow.Proofs.Flowgraph.Effect
import ControlFlow.Proofs.Unmirrored.Fixpoint
import ControlFlow.Proofs.Unmirrored.Sweep
import ControlFlow.Proofs.Unmirrored.Dominance
import ControlFlow.Proofs.Unmirrored.Evaluation
