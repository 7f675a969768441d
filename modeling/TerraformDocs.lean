import TerraformDocs.Main
import TerraformDocs.Registry.Script
import TerraformDocs.Proofs.Block.Balance
import TerraformDocs.Proofs.Block.Locality
import TerraformDocs.Proofs.Block.Nesting
import TerraformDocs.Proofs.Block.Enclosing
import TerraformDocs.Proofs.Block.Mention
import TerraformDocs.Proofs.Block.Assigned
import TerraformDocs.Proofs.Registry.Steady
import TerraformDocs.Proofs.Registry.History
import TerraformDocs.Proofs.Registry.Overlap
import TerraformDocs.Proofs.Registry.Interleaving
import TerraformDocs.Proofs.Target.Steady
import TerraformDocs.Proofs.Target.Links
import TerraformDocs.Proofs.Target.Shared
import TerraformDocs.Proofs.Target.Cursor
import TerraformDocs.Proofs.Declaration.Grammar
import TerraformDocs.Proofs.LockFile.Quoting
import TerraformDocs.Proofs.LockFile.RoundTrip
import TerraformDocs.Proofs.Files.Walk
import TerraformDocs.Proofs.Files.Pieces
import TerraformDocs.Proofs.Files.Ancestors
import TerraformDocs.Proofs.Files.Components
import TerraformDocs.Proofs.Files.Normal
import TerraformDocs.Proofs.LockFile.Nearest
import TerraformDocs.Proofs.Version.Readable
import TerraformDocs.Proofs.Version.Choice
import TerraformDocs.Proofs.Target.Pages
import TerraformDocs.Proofs.Command.Versions
import TerraformDocs.Proofs.Command.Options
import TerraformDocs.Proofs.Command.Offline
import TerraformDocs.Proofs.Text.Exact
import TerraformDocs.Proofs.Version.Order
import TerraformDocs.Proofs.Version.Ranking
import TerraformDocs.Proofs.Version.Literal
import TerraformDocs.Proofs.Version.Expression
import TerraformDocs.Proofs.Version.Clause
import TerraformDocs.Proofs.Version.Locked
import TerraformDocs.Proofs.Text.Places
import TerraformDocs.Proofs.LockFile.TopLevel
import TerraformDocs.Proofs.Block.OwnText
import TerraformDocs.Proofs.Block.Replacement
import TerraformDocs.Proofs.Target.Unopened
import TerraformDocs.Proofs.Block.Hover
import TerraformDocs.Proofs.LockFile.Nested
import TerraformDocs.Proofs.LockFile.Comments
import TerraformDocs.Proofs.ModuleCall.Address
import TerraformDocs.Proofs.ModuleCall.Directory
import TerraformDocs.Proofs.ModuleCall.GitHost
import TerraformDocs.Proofs.ModuleCall.Page
import TerraformDocs.Proofs.Text.LineEnds
import TerraformDocs.Proofs.Text.Utf8
import TerraformDocs.Proofs.Project.Streaming
import TerraformDocs.Proofs.Declaration.Address
import TerraformDocs.Proofs.Version.Agreement
