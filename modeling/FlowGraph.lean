import FlowGraph.Encoding.Codec
import FlowGraph.Graph.Walk
import FlowGraph.Listing.Printing
import FlowGraph.Machine
import FlowGraph.Main
import FlowGraph.Proofs.Vertices
import FlowGraph.Proofs.Segments
import FlowGraph.Proofs.Edges
import FlowGraph.Proofs.Execution
import FlowGraph.Proofs.Escaping
import FlowGraph.Proofs.ResolvedGroups
import FlowGraph.Proofs.Spellings
import FlowGraph.Proofs.LabelShape
import FlowGraph.Proofs.PlainText
import FlowGraph.Proofs.Spacing
import FlowGraph.Proofs.LineShapes
import FlowGraph.Proofs.WrittenLines
import FlowGraph.Proofs.RoundTrip
import FlowGraph.Proofs.Reachability
import FlowGraph.Proofs.DeadCode
import FlowGraph.Proofs.Rules
import FlowGraph.Proofs.Verdict
import FlowGraph.Proofs.FinishOrder
import FlowGraph.Proofs.OneSidedEdges
import FlowGraph.Proofs.Acceptance
import FlowGraph.Proofs.Agreement
import FlowGraph.Proofs.Drawings
import FlowGraph.Proofs.ListingGrammar
import FlowGraph.Proofs.Naturality
import FlowGraph.Proofs.Delivery
import FlowGraph.Proofs.Faults
import FlowGraph.Proofs.NodeNumbers
import FlowGraph.Proofs.RecursiveSearch
import FlowGraph.Proofs.Encodings
import FlowGraph.Proofs.LonelyBlocks
import FlowGraph.Proofs.LawfulGraphs
import FlowGraph.Proofs.BatchReports
import FlowGraph.Proofs.ConditionalJumps
import FlowGraph.Proofs.LineEdits
import FlowGraph.Proofs.TableRuns
import FlowGraph.Proofs.LinePatterns
import FlowGraph.Proofs.SyntaxGuard
