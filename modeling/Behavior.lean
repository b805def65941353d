import Behavior.Document.Json
import Behavior.Json.Parser
import Behavior.Json.Printer
import Behavior.Model.Listing
import Behavior.Proofs.BufferReuse
import Behavior.Proofs.CanonicalForm
import Behavior.Proofs.Deadlines
import Behavior.Proofs.DefiniteAssignment
import Behavior.Proofs.DrawOrder
import Behavior.Proofs.Ensembles
import Behavior.Proofs.FlowExactness
import Behavior.Proofs.InstructionBudget
import Behavior.Proofs.LevelFailures
import Behavior.Proofs.MergeOrder
import Behavior.Proofs.NamedValues
import Behavior.Proofs.SlotLayout
import Behavior.Proofs.SourceMap
import Behavior.Proofs.Termination
import Behavior.Proofs.Typing
