import LiveSheet.Names
import LiveSheet.Value.Text
import LiveSheet.Json.Reader
import LiveSheet.Expr.Parser
import LiveSheet.Engine.Run
import LiveSheet.Sheet.Format
import LiveSheet.Engine.Reload
import LiveSheet.Store
import LiveSheet.Integration
import LiveSheet.Await.Registry
import LiveSheet.Placeholder
import LiveSheet.Text.Surroundings
import LiveSheet.Cli.Session
import LiveSheet.Main
import LiveSheet.Proofs.Command.Writes
import LiveSheet.Proofs.Command.Agreement
import LiveSheet.Proofs.Eval.Isolated
import LiveSheet.Proofs.Graph.Order
import LiveSheet.Proofs.Propagation.Incremental
import LiveSheet.Proofs.Propagation.Extent
import LiveSheet.Proofs.Await.Sequencing
import LiveSheet.Proofs.Await.Caching
import LiveSheet.Proofs.Expr.Erased
import LiveSheet.Proofs.Eval.Immediate
import LiveSheet.Proofs.Reference.Texts
import LiveSheet.Proofs.Reference.Scanned
import LiveSheet.Proofs.Reference.Sequenced
import LiveSheet.Proofs.Reference.Values
import LiveSheet.Proofs.Reference.Placeholders
import LiveSheet.Proofs.Reference.Expanded
import LiveSheet.Proofs.Reference.Coverage
import LiveSheet.Proofs.Engine.Reports
import LiveSheet.Proofs.Engine.Refresh
import LiveSheet.Proofs.Engine.Restart
import LiveSheet.Proofs.Store.Filing
import LiveSheet.Proofs.Engine.Invoked
import LiveSheet.Proofs.Engine.Confinement
import LiveSheet.Proofs.Expr.Printing
import LiveSheet.Proofs.Eval.SourceText
import LiveSheet.Proofs.Engine.Ownership
import LiveSheet.Proofs.Resolution.Reordering
import LiveSheet.Proofs.Graph.Edges
import LiveSheet.Proofs.Expr.Joining
import LiveSheet.Proofs.Token.Positions
import LiveSheet.Proofs.Await.Sites
import LiveSheet.Proofs.Reference.Namespaces
import LiveSheet.Proofs.Propagation.Readers
import LiveSheet.Proofs.Eval.Checking
import LiveSheet.Proofs.Placeholder.Splitting
import LiveSheet.Proofs.Eval.Naming
import LiveSheet.Proofs.Command.Visibility
import LiveSheet.Proofs.Variable.History
import LiveSheet.Proofs.Text.Closing
import LiveSheet.Proofs.Placeholder.Skipping
