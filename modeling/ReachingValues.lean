import ReachingValues.Attempts
import ReachingValues.IndexSet.Lemmas
import ReachingValues.Graph.Lemmas
import ReachingValues.Graph.Path
import ReachingValues.Tree.Grown
import ReachingValues.Tree.LinkTable
import ReachingValues.Program.History
import ReachingValues.Analysis.Run
import ReachingValues.Analysis.Report
import ReachingValues.Proofs.Graph.Dominance
import ReachingValues.Proofs.Dominators.SpanningTree
import ReachingValues.Proofs.Dominators.Detours
import ReachingValues.Proofs.Dominators.Compression
import ReachingValues.Proofs.Dominators.Semidominators
import ReachingValues.Proofs.Dominators.Handling
import ReachingValues.Proofs.Dominators.Tree
import ReachingValues.Proofs.Graph.Search
import ReachingValues.Proofs.Tree.Shape
import ReachingValues.Proofs.Tree.Walk
import ReachingValues.Proofs.Analysis.NodeSets
import ReachingValues.Proofs.Analysis.Propagation
import ReachingValues.Proofs.Dominators.Children
import ReachingValues.Proofs.Analysis.TreeCheck
import ReachingValues.Proofs.Program.Growth
import ReachingValues.Proofs.Program.WellFormed
import ReachingValues.Proofs.Analysis.Definitions
import ReachingValues.Proofs.Analysis.Run
import ReachingValues.Proofs.Analysis.Equations
import ReachingValues.Proofs.Analysis.SuppliedTree
import ReachingValues.Proofs.Program.Coherent
import ReachingValues.Proofs.Program.Provenance
import ReachingValues.Proofs.Dominators.Tables
import ReachingValues.Proofs.Analysis.Safety
import ReachingValues.Proofs.IndexSet.FiniteSets
import ReachingValues.Proofs.IndexSet.Enumeration
import ReachingValues.Proofs.Program.Continuation
import ReachingValues.Proofs.Analysis.Members
import ReachingValues.Proofs.Analysis.Isolation
import ReachingValues.Proofs.Analysis.Settings
import ReachingValues.Proofs.Program.Refusals
import ReachingValues.Proofs.InPlace
import ReachingValues.Proofs.Graph.EdgeLists
import ReachingValues.Proofs.Tree.Growth
import ReachingValues.Proofs.Analysis.Loop
import ReachingValues.Proofs.Analysis.Contents
import ReachingValues.Proofs.Program.Printing
import ReachingValues.Proofs.Analysis.Objections
import ReachingValues.Proofs.Analysis.AnyView
import ReachingValues.Proofs.Analysis.VisitOrder
import ReachingValues.Proofs.Dominators.Ascent
import ReachingValues.Proofs.Dominators.RootedTree
import ReachingValues.Proofs.Analysis.Alike
import ReachingValues.Proofs.Program.Finishing
import ReachingValues.Proofs.Tree.Copy
import ReachingValues.Proofs.Marks
import ReachingValues.Proofs.Preorder
import ReachingValues.Proofs.Graph.Iteration
import ReachingValues.Proofs.Graph.Recursion
import ReachingValues.Proofs.Graph.Adoption
import ReachingValues.Proofs.Tree.Orders
import ReachingValues.Proofs.Analysis.RecordedOrder
import ReachingValues.Proofs.Analysis.Ownership
import ReachingValues.Proofs.Analysis.SeedShare
import ReachingValues.Proofs.Analysis.Failures
import ReachingValues.Proofs.Program.Words
import ReachingValues.Proofs.Program.Reading
import ReachingValues.Proofs.Analysis.ReportLines
import ReachingValues.Proofs.Dominators.OverwrittenParents
import ReachingValues.Proofs.Dominators.CompressionLoop
import ReachingValues.Proofs.Dominators.Moments
import ReachingValues.Proofs.Dominators.Waiting
import ReachingValues.Proofs.Dominators.Stages
import ReachingValues.Proofs.Dominators.Queries
import ReachingValues.Proofs.Dominators.Linking
