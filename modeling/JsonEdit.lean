import JsonEdit.Main
import JsonEdit.Proofs.Edit.Obstacle
import JsonEdit.Proofs.Edit.Update
import JsonEdit.Proofs.Json.Blank
import JsonEdit.Proofs.Json.Number
import JsonEdit.Proofs.Json.Numeral
import JsonEdit.Proofs.Json.Quoted
import JsonEdit.Proofs.Json.Steps
import JsonEdit.Proofs.Json.RoundTrip
import JsonEdit.Proofs.Json.Regular
import JsonEdit.Proofs.Edit.Session
import JsonEdit.Proofs.Path.Grammar
import JsonEdit.Proofs.Edit.Reach
import JsonEdit.Proofs.Json.Agreement
import JsonEdit.Proofs.Decimal.Rounding
import JsonEdit.Proofs.Decimal.Scaled
import JsonEdit.Proofs.Decimal.Shortest
import JsonEdit.Proofs.Json.Range
import JsonEdit.Proofs.Json.Fraction
import JsonEdit.Proofs.Json.Nesting
import JsonEdit.Proofs.Edit.Reread
import JsonEdit.Proofs.Location.Alter
import JsonEdit.Proofs.Edit.Commute
import JsonEdit.Proofs.Edit.Reachable
import JsonEdit.Proofs.Json.ObjectText
import JsonEdit.Proofs.Command.Folder
import JsonEdit.Proofs.Command.Run
import JsonEdit.Proofs.Command.Ways
import JsonEdit.Proofs.Command.Files
import JsonEdit.Proofs.Edit.Overwrite
import JsonEdit.Proofs.Json.Canonical
import JsonEdit.Proofs.Json.StringChar
import JsonEdit.Proofs.Json.Grammar
import JsonEdit.Proofs.Json.Acceptance
import JsonEdit.Proofs.Path.Append
import JsonEdit.Proofs.Edit.Append
import JsonEdit.Proofs.Json.Printed
import JsonEdit.Proofs.Json.Lines
import JsonEdit.Proofs.Edit.InPlace
import JsonEdit.Proofs.Edit.Spelling
import JsonEdit.Proofs.Edit.Alias
import JsonEdit.Proofs.Edit.Failure
import JsonEdit.Proofs.Json.Scalar
import JsonEdit.Proofs.Json.Integer
import JsonEdit.Proofs.Infer.Rules
import JsonEdit.Proofs.Infer.Word
import JsonEdit.Proofs.Infer.Integer
import JsonEdit.Proofs.Path.Display
import JsonEdit.Proofs.Edit.Window
import JsonEdit.Proofs.Json.Literal
import JsonEdit.Proofs.Path.Rejection
import JsonEdit.Proofs.Infer.Decimal
import JsonEdit.Proofs.Infer.Verbatim
import JsonEdit.Proofs.Edit.AllOrNothing
import JsonEdit.Proofs.Command.Ends
import JsonEdit.Proofs.Command.Backup
import JsonEdit.Proofs.Command.Given
import JsonEdit.Proofs.Command.Follows
import JsonEdit.Proofs.Command.Added
import JsonEdit.Proofs.Command.Formats
import JsonEdit.Proofs.Command.Logging
import JsonEdit.Proofs.Text.Pieces
import JsonEdit.Proofs.Text.Position
import JsonEdit.Proofs.Json.Inside
import JsonEdit.Proofs.Json.Fault
