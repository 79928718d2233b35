import ZoneDiagram.Dbm.Text
import ZoneDiagram.Manager.Bracket
import ZoneDiagram.Manager.Contains
import ZoneDiagram.Manager.Eval
import ZoneDiagram.Manager.Extract
import ZoneDiagram.Manager.Layers
import ZoneDiagram.Manager.Reach
import ZoneDiagram.Manager.WellFormed
import ZoneDiagram.Sample.Zone
import ZoneDiagram.Proofs.Bound.Below
import ZoneDiagram.Proofs.Dbm.Detour
import ZoneDiagram.Proofs.Dbm.Tighten
import ZoneDiagram.Proofs.Dbm.Settled
import ZoneDiagram.Proofs.Dbm.Extension
import ZoneDiagram.Proofs.CutList.Intervals
import ZoneDiagram.Proofs.CutList.Merge
import ZoneDiagram.Proofs.CutList.Refine
import ZoneDiagram.Proofs.CutList.Unique
import ZoneDiagram.Proofs.Dbm.Feasible
import ZoneDiagram.Proofs.Diagram.Basic
import ZoneDiagram.Proofs.ClockPair
import ZoneDiagram.Proofs.Diagram.Reduce
import ZoneDiagram.Proofs.Cache
import ZoneDiagram.Proofs.LeastRecentlyUsed
import ZoneDiagram.Proofs.SlotTable
import ZoneDiagram.Proofs.Handle
import ZoneDiagram.Proofs.Manager.Unfold
import ZoneDiagram.Proofs.Manager.Sound
import ZoneDiagram.Proofs.Manager.Node
import ZoneDiagram.Proofs.Manager.Apply
import ZoneDiagram.Proofs.Diagram.Apply
import ZoneDiagram.Proofs.Diagram.Unique
import ZoneDiagram.Proofs.Manager.Reduce
import ZoneDiagram.Proofs.Manager.Rebuild
import ZoneDiagram.Proofs.Manager.Replay
import ZoneDiagram.Proofs.Manager.ApplyReduce
import ZoneDiagram.Proofs.Manager.Build
import ZoneDiagram.Proofs.Manager.Layers
import ZoneDiagram.Proofs.Manager.Reach
import ZoneDiagram.Proofs.Manager.Reachable
import ZoneDiagram.Proofs.Manager.Paths
import ZoneDiagram.Proofs.Combination
import ZoneDiagram.Proofs.Canonicity
import ZoneDiagram.Proofs.Emptiness
import ZoneDiagram.Proofs.Manager.Frontier
import ZoneDiagram.Proofs.CombinedReduction
import ZoneDiagram.Proofs.LayeredReduction
import ZoneDiagram.Proofs.Equivalence
import ZoneDiagram.Proofs.Representation
import ZoneDiagram.Proofs.Dbm.Closed
import ZoneDiagram.Proofs.Diagram.Zone
import ZoneDiagram.Proofs.Manager.Extract
import ZoneDiagram.Proofs.Extraction
import ZoneDiagram.Proofs.Dbm.Closing
import ZoneDiagram.Proofs.Dbm.Block
import ZoneDiagram.Proofs.Manager.Contains
import ZoneDiagram.Proofs.Manager.Search
import ZoneDiagram.Proofs.Containment
import ZoneDiagram.Proofs.Diagram.Cuts
import ZoneDiagram.Proofs.Diagram.PathCount
import ZoneDiagram.Proofs.RoundTrip
import ZoneDiagram.Proofs.Manager.Steady
import ZoneDiagram.Proofs.Manager.Recall
import ZoneDiagram.Proofs.Manager.Agree
import ZoneDiagram.Proofs.CacheTransparency
import ZoneDiagram.Proofs.Collection
import ZoneDiagram.Proofs.Manager.Zones
import ZoneDiagram.Proofs.Partition
import ZoneDiagram.Proofs.Intersection
import ZoneDiagram.Proofs.Diagram.Merging
import ZoneDiagram.Proofs.ReductionRoutes
import ZoneDiagram.Proofs.FailedRequests
import ZoneDiagram.Proofs.HistoryIndependence
import ZoneDiagram.Proofs.Closure
import ZoneDiagram.Proofs.Cutting
import ZoneDiagram.Proofs.Diagram.Duality
import ZoneDiagram.Proofs.Duality
import ZoneDiagram.Proofs.Comparison
import ZoneDiagram.Proofs.Projection
import ZoneDiagram.Proofs.Diagram.CutPaths
import ZoneDiagram.Proofs.Construction
import ZoneDiagram.Proofs.Dbm.OnePair
import ZoneDiagram.Proofs.Builders
import ZoneDiagram.Proofs.Dbm.Around
import ZoneDiagram.Proofs.Generation
import ZoneDiagram.Proofs.NonNegative
import ZoneDiagram.Proofs.Manager.Routes
import ZoneDiagram.Proofs.Enumeration
import ZoneDiagram.Proofs.Dbm.Widening
import ZoneDiagram.Proofs.Simulation
import ZoneDiagram.Proofs.Wider.Basic
import ZoneDiagram.Proofs.Wider.Reduce
import ZoneDiagram.Proofs.Wider.Search
import ZoneDiagram.Proofs.Wider.Layers
import ZoneDiagram.Proofs.Manager.Repeat
import ZoneDiagram.Proofs.MoreClocks
import ZoneDiagram.Proofs.ConflictMisses
import ZoneDiagram.Proofs.Encoding
import ZoneDiagram.Proofs.CommonRefinement
import ZoneDiagram.Proofs.Drawing
import ZoneDiagram.Proofs.Levels
import ZoneDiagram.Proofs.Digest
import ZoneDiagram.Proofs.ProperCuts
