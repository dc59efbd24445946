import Statechart.Action.Script
import Statechart.Layout.Binary
import Statechart.Nested
import Statechart.Options.Json
import Statechart.Symbol.Enumerated
import Statechart.Symbol.Tagged
import Statechart.Proofs.LevelFault
import Statechart.Proofs.Nesting
import Statechart.Proofs.Survey
import Statechart.Proofs.Trail
import Statechart.Proofs.Sequencing
import Statechart.Proofs.Failures
import Statechart.Proofs.Repetitions
import Statechart.Proofs.Carrying
import Statechart.Proofs.Unrolling
import Statechart.Proofs.Leaves
import Statechart.Proofs.Inheritance
import Statechart.Proofs.Selection
import Statechart.Proofs.Election
import Statechart.Proofs.Binding
import Statechart.Proofs.History
import Statechart.Proofs.Attachment
import Statechart.Proofs.Reaction
import Statechart.Proofs.Moves
import Statechart.Proofs.Building
import Statechart.Proofs.Postorder
import Statechart.Proofs.Tabulation
import Statechart.Proofs.Targets
import Statechart.Proofs.Driving
import Statechart.Proofs.Simulation
import Statechart.Proofs.Assembly
import Statechart.Proofs.Coherence
import Statechart.Proofs.Listing
import Statechart.Proofs.Steadiness
import Statechart.Proofs.Rebuilding
import Statechart.Proofs.Reach
import Statechart.Proofs.Labels
import Statechart.Proofs.Renaming
import Statechart.Proofs.RenamedMoves
import Statechart.Proofs.Opacity
import Statechart.Proofs.Embedding
import Statechart.Proofs.Entrance
import Statechart.Proofs.Schedule
import Statechart.Proofs.Usage
import Statechart.Proofs.Covering
import Statechart.Proofs.Copies
import Statechart.Proofs.Unfolding
import Statechart.Proofs.Decoding
import Statechart.Proofs.BinaryForm
import Statechart.Proofs.Grammar
import Statechart.Proofs.Spelling
import Statechart.Proofs.Documents
import Statechart.Proofs.Printing
import Statechart.Proofs.LayoutText
import Statechart.Proofs.RecordContent
import Statechart.Proofs.Content
import Statechart.Proofs.Walking
import Statechart.Proofs.Dispatch
import Statechart.Proofs.Recursion
import Statechart.Proofs.Rounds
import Statechart.Proofs.Termination
import Statechart.Proofs.Resolution
import Statechart.Proofs.Destinations
