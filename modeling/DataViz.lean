import DataViz.Access.PermissionsLaws
import DataViz.Canvas.BoundedQueueLaws
import DataViz.Canvas.LensEdges
import DataViz.Canvas.LosslessPlaced
import DataViz.Canvas.PredicateText
import DataViz.Canvas.WireLedger
import DataViz.LiveView.MembersLaws
import DataViz.LiveView.PromoteLaws
import DataViz.NativeQuery.LexerLaws
import DataViz.NativeQuery.ParseCostLaws
import DataViz.NativeQuery.RewritingMeaning
import DataViz.Overlay.ChildrenLaws
import DataViz.Overlay.Edges
import DataViz.Overlay.RollupsLaws
import DataViz.Residency.EvictionLaws
import DataViz.Residency.PolicyLaws
import DataViz.Rollup.AggregationLaws
import DataViz.Rollup.LadderLaws
import DataViz.Rollup.LookupsLaws
import DataViz.Rollup.WriteBudget
import DataViz.Search.DatesLaws
import DataViz.Search.Hoisting
import DataViz.Search.PlanLaws
import DataViz.Search.SessionLaws
import DataViz.Search.SortOrders
import DataViz.Service.FairShare
import DataViz.Service.GraphLeaseLaws
import DataViz.Service.WriteSlots
import DataViz.Trace.OrchestratorLaws
import DataViz.Transfer.ChunkingLaws
import DataViz.Transfer.RebaseLaws
import DataViz.Versioning.BoundedCascadeLaws
import DataViz.Versioning.BranchWritersLaws
import DataViz.Versioning.ChangeIndexLaws
import DataViz.Versioning.ChangesetLaws
import DataViz.Versioning.ContainmentCyclesLaws
import DataViz.Versioning.DiffHierarchyLaws
import DataViz.Versioning.IdsLaws
import DataViz.Versioning.MergeDuality
import DataViz.Versioning.MerkleStoreLaws
import DataViz.Versioning.RemovalMarker
import DataViz.Versioning.SettleLaws
import DataViz.Versioning.SortedMerge
import DataViz.Versioning.SyncIngestLaws
import DataViz.View.DefinitionDiffLaws
import DataViz.View.LayoutPromoteLaws
import DataViz.View.NodeOrdering
import DataViz.View.PlacementDigestLaws
import DataViz.View.RewriteLaws
import DataViz.View.SuggestLaws
