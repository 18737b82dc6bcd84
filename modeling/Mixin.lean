import Mixin.Main
import Mixin.Proofs.Analysis.Duplicates
import Mixin.Proofs.Analysis.Hooks
import Mixin.Proofs.Analysis.Omissions
import Mixin.Proofs.Analysis.Parents
import Mixin.Proofs.Command.Outputs
import Mixin.Proofs.Grammar.Displays
import Mixin.Proofs.Grammar.Literals
import Mixin.Proofs.Grammar.Precedence
import Mixin.Proofs.Grammar.Recovery
import Mixin.Proofs.Grammar.Restoration.Definitions
import Mixin.Proofs.Grammar.WellFormed
import Mixin.Proofs.Graph.Components
import Mixin.Proofs.Listing.Indentation
import Mixin.Proofs.Listing.Lines
import Mixin.Proofs.Listing.Simulation
import Mixin.Proofs.Listing.Updates
import Mixin.Proofs.Listing.Verification
import Mixin.Proofs.Placement
import Mixin.Proofs.Sessions
import Mixin.Proofs.Symbol.Chain
import Mixin.Proofs.Symbol.Implementations
import Mixin.Proofs.Token.Comments
import Mixin.Proofs.Totality
import Mixin.Session
