import LiveForm.Main
import LiveForm.Command.Run
import LiveForm.Command.Line
import LiveForm.Settings.Load
import LiveForm.Document.Storage
import LiveForm.Storage.Disk
import LiveForm.Schedule
import LiveForm.Value.Literal
import LiveForm.Value.Printer
import LiveForm.Formula.Operator
import LiveForm.Tree.Edit
import LiveForm.Tree.Drawing
import LiveForm.Registry.Cache
import LiveForm.Text.Blank
import LiveForm.Formula.Basic
import LiveForm.Graph.Levels
import LiveForm.Form.Rebuild
import LiveForm.Form.Listing
import LiveForm.Form.Load
import LiveForm.Proofs.Form.Upkeep
import LiveForm.Proofs.Form.Rejections
import LiveForm.Proofs.Form.Numbering
import LiveForm.Proofs.Form.Addressing
import LiveForm.Proofs.Form.Rebuilding
import LiveForm.Proofs.Form.Ordering
import LiveForm.Proofs.Form.Tuning
import LiveForm.Proofs.Form.Outstanding
import LiveForm.Proofs.Form.Registering
import LiveForm.Proofs.Form.Reordering
import LiveForm.Proofs.Form.Leveling
import LiveForm.Proofs.Form.Downstream
import LiveForm.Proofs.Form.Owing
import LiveForm.Proofs.Form.Repeating
import LiveForm.Proofs.Path.Syntax
import LiveForm.Proofs.Tree.Built
import LiveForm.Proofs.Path.Order
import LiveForm.Proofs.Selector.Ordering
import LiveForm.Proofs.Formula.Sums
import LiveForm.Proofs.Formula.Columns
import LiveForm.Proofs.Path.RoundTrip
import LiveForm.Proofs.Selector.OwnPath
import LiveForm.Proofs.Form.Rounds
import LiveForm.Proofs.Form.Loading
import LiveForm.Proofs.Tree.Linked
import LiveForm.Proofs.Tree.Discipline
import LiveForm.Proofs.Form.Exporting
import LiveForm.Proofs.Document.Lossless
import LiveForm.Proofs.Tree.Twins
import LiveForm.Proofs.Formula.Releasing
import LiveForm.Proofs.Form.Scopes
import LiveForm.Proofs.Value.Equality
