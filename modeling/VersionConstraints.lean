import VersionConstraints.Main
import VersionConstraints.Query
import VersionConstraints.Proofs.Decimal
import VersionConstraints.Proofs.Precedence
import VersionConstraints.Proofs.FlatReading
import VersionConstraints.Proofs.Parts
import VersionConstraints.Proofs.Reading
import VersionConstraints.Proofs.Rendering
import VersionConstraints.Proofs.StrictReading
import VersionConstraints.Proofs.Shape
import VersionConstraints.Proofs.LooseReading
import VersionConstraints.Proofs.Interval
import VersionConstraints.Proofs.Body
import VersionConstraints.Proofs.Expansion
import VersionConstraints.Proofs.Ranges
import VersionConstraints.Proofs.Comparison
import VersionConstraints.Proofs.Embedding
import VersionConstraints.Proofs.Joining
import VersionConstraints.Proofs.Alternatives
import VersionConstraints.Proofs.Rewriting
import VersionConstraints.Proofs.Release
import VersionConstraints.Proofs.Appending
import VersionConstraints.Proofs.Acceptance
import VersionConstraints.Proofs.Saturation
import VersionConstraints.Proofs.Outcomes
import VersionConstraints.Proofs.Flags
import VersionConstraints.Proofs.Strictness
import VersionConstraints.Proofs.Provenance
import VersionConstraints.Proofs.Unambiguous
import VersionConstraints.Proofs.Universal
import VersionConstraints.Proofs.Convexity
import VersionConstraints.Proofs.Bumping
import VersionConstraints.Proofs.Succession
import VersionConstraints.Proofs.CalendarReading
import VersionConstraints.Proofs.Calendar
import VersionConstraints.Proofs.Operands
import VersionConstraints.Proofs.Sorting
import VersionConstraints.Proofs.Queries
import VersionConstraints.Proofs.Groups
import VersionConstraints.Proofs.Refusals
import VersionConstraints.Proofs.Tagging
import VersionConstraints.Proofs.Settings
