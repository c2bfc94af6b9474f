import Telemetry.KeyFilter
import Telemetry.Workspace
import Telemetry.Proofs.Map.Writes
import Telemetry.Proofs.Workspace.Ledger
import Telemetry.Proofs.Fingerprint.Filtered
import Telemetry.Proofs.Json.RoundTrip
import Telemetry.Proofs.Decimal.Value
import Telemetry.Proofs.Binary64.Shortest
import Telemetry.Proofs.Binary64.Scaled
import Telemetry.Proofs.Value.RoundTrip
import Telemetry.Proofs.Decimal.General
import Telemetry.Proofs.Hash.Numbers
import Telemetry.Proofs.Map.RoundTrip
import Telemetry.Proofs.Workspace.Kinds
import Telemetry.Proofs.Text.Raw
import Telemetry.Proofs.Text.Segments
import Telemetry.Proofs.Fingerprint.Arguments
import Telemetry.Proofs.Fingerprint.LastArgument
import Telemetry.Proofs.Value.Grouping
import Telemetry.Proofs.Value.Storing
import Telemetry.Proofs.Value.ReadBack
import Telemetry.Proofs.Workspace.Equality
import Telemetry.Proofs.Hash.Difference
import Telemetry.Proofs.Hash.Renderings
import Telemetry.Proofs.Value.FixedText
import Telemetry.Proofs.Workspace.Events
import Telemetry.Proofs.Map.Delimited
import Telemetry.Proofs.Source.Traversal
import Telemetry.Proofs.Binary64.Fewest
import Telemetry.Proofs.Value.ShortestText
import Telemetry.Proofs.Json.Misspelled
import Telemetry.Proofs.Value.Integers
import Telemetry.Proofs.Map.Spellings
