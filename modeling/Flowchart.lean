import Flowchart.Proofs.Placements
import Flowchart.Proofs.Deletions
import Flowchart.Proofs.ExecutedEdges
import Flowchart.Proofs.Insertions
import Flowchart.Proofs.PathLanguage
import Flowchart.Proofs.Sessions
import Flowchart.Proofs.Positions
import Flowchart.Proofs.UndoneInsertions
import Flowchart.Proofs.KeyedReading
import Flowchart.Definition.Validation
import Flowchart.Diagram.Edit
import Flowchart.Json.Parser
import Flowchart.Json.Printer
import Flowchart.Proofs.BoundHistories
import Flowchart.Proofs.Drawable
import Flowchart.Proofs.WalkOrder
import Flowchart.Proofs.ValidDefinitions
import Flowchart.Proofs.Relabelling
import Flowchart.Proofs.Overlays
import Flowchart.Proofs.KeptMembers
import Flowchart.Proofs.AlikeHistories
import Flowchart.Proofs.Interleavings
import Flowchart.Proofs.Contractions
import Flowchart.Proofs.SavedTasks
import Flowchart.Proofs.FinalBubble
import Flowchart.Proofs.Bindings
import Flowchart.Proofs.TaskIds
import Flowchart.Proofs.RunRecords
import Flowchart.Proofs.Accounts
import Flowchart.Proofs.InsertedOverlays
import Flowchart.Proofs.ForkTallies
import Flowchart.Proofs.LoopIterations
import Flowchart.Proofs.SlotEdits
import Flowchart.Proofs.BranchEdits
import Flowchart.Proofs.Refusals
import Flowchart.Proofs.Holes
import Flowchart.Proofs.CaseLabels
import Flowchart.Proofs.TakenExits
import Flowchart.Proofs.SplitEdges
import Flowchart.Proofs.CommutingInsertions
import Flowchart.Proofs.PathLenses
import Flowchart.Proofs.Readiness
import Flowchart.Proofs.Siblings
import Flowchart.Graph.Slots
import Flowchart.Proofs.GraphMaps
import Flowchart.Proofs.NameIndex
import Flowchart.Proofs.FreshSearch
import Flowchart.Proofs.Addresses
import Flowchart.Proofs.WrittenRuns
import Flowchart.Proofs.DecisionEdits
