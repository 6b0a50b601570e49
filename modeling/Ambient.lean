import Ambient.CommandLine
import Ambient.Main
import Ambient.Proofs.Cached.Run
import Ambient.Proofs.Canonical.Files
import Ambient.Proofs.Command.Batch
import Ambient.Proofs.Files.Discovery
import Ambient.Proofs.Formatting.Attributes
import Ambient.Proofs.Formatting.Files
import Ambient.Proofs.Formatting.Flags
import Ambient.Proofs.Formatting.Members
import Ambient.Proofs.Formatting.Pairs
import Ambient.Proofs.Formatting.Respelling
import Ambient.Proofs.Formatting.Rewording
import Ambient.Proofs.Formatting.Texts
import Ambient.Proofs.Formatting.Types
import Ambient.Proofs.Generation.Exchange
import Ambient.Proofs.Generation.Footprint
import Ambient.Proofs.Generation.Idempotence
import Ambient.Proofs.Generation.Sources
import Ambient.Proofs.Host.Documents
import Ambient.Proofs.Initializer.Aliases
import Ambient.Proofs.Initializer.Literals
import Ambient.Proofs.Insertion.Files
import Ambient.Proofs.Naming.Copies
import Ambient.Proofs.Naming.Explicit
import Ambient.Proofs.Options.Spellings
import Ambient.Proofs.Rendering.Destinations
import Ambient.Proofs.Rendering.Modules
import Ambient.Proofs.Rendering.Spacing
import Ambient.Proofs.Resolution.Tasks
import Ambient.Proofs.Sidecar.Recording
import Ambient.Proofs.Source.Bodies
import Ambient.Proofs.Source.Cuts
import Ambient.Proofs.Source.Enclosures
import Ambient.Proofs.Source.Initializers
import Ambient.Proofs.Source.Literals
import Ambient.Proofs.Source.Numbers
import Ambient.Proofs.Source.Progress
import Ambient.Proofs.Source.Recorded
import Ambient.Proofs.Source.Slicing
import Ambient.Proofs.Source.Tiling
import Ambient.Proofs.Summary.Comments
import Ambient.Proofs.Text.Positions
import Ambient.Proofs.Translation.Agreement
import Ambient.Proofs.Translation.Bases
import Ambient.Proofs.Translation.Bounded
import Ambient.Proofs.Translation.Dangling
import Ambient.Proofs.Translation.Growth
import Ambient.Proofs.Translation.Order
import Ambient.Proofs.Translation.Shapes
