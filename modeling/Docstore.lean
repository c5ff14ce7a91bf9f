import Docstore.Projection.Required
import Docstore.Query.Native
import Docstore.Record.Decode
import Docstore.Record.Lookup
import Docstore.Record.Merge
import Docstore.Script.Run
import Docstore.Update.Native
import Docstore.Proofs.Number.WholeDouble
import Docstore.Proofs.Script.LooseOrder
import Docstore.Proofs.Except
import Docstore.Proofs.Script.Lookup
import Docstore.Proofs.Script.Loops
import Docstore.Proofs.Script.Wildcards
import Docstore.Proofs.Script.FieldComparison
import Docstore.Proofs.Entity.Declared
import Docstore.Proofs.Fields
import Docstore.Proofs.Record.Encoding
import Docstore.Proofs.Record.Decoding
import Docstore.Proofs.Record.NormalForm
import Docstore.Proofs.Text.Numerals
import Docstore.Proofs.Time.Calendar
import Docstore.Proofs.Time.InstantText
import Docstore.Proofs.Number.DecimalText
import Docstore.Proofs.Scalar.RoundTrip
import Docstore.Proofs.Identifier
import Docstore.Proofs.Record.Merging
import Docstore.Proofs.Record.Stored
import Docstore.Proofs.Record.Agreeing
import Docstore.Proofs.Record.Refreshed
import Docstore.Proofs.Record.Saving
import Docstore.Proofs.Record.LoadSave
import Docstore.Proofs.Record.Undeclared
import Docstore.Proofs.Record.Replacing
import Docstore.Proofs.Record.Rewriting
import Docstore.Proofs.Update.Changes
import Docstore.Proofs.Update.Sections
import Docstore.Proofs.Update.Order
import Docstore.Proofs.Script.Watching
import Docstore.Proofs.Query.Scripts
import Docstore.Proofs.Script.Cut
import Docstore.Proofs.Entity.Leaves
import Docstore.Proofs.Projection.Required
import Docstore.Proofs.Record.Positions
import Docstore.Proofs.Query.Literals
import Docstore.Proofs.Update.Placing
import Docstore.Proofs.Entity.Names
import Docstore.Proofs.Update.Operations
import Docstore.Proofs.Update.Setting
import Docstore.Proofs.Number.Rounding
import Docstore.Proofs.Number.ShortestValue
import Docstore.Proofs.Number.DoubleText
import Docstore.Proofs.Scalar.Legible
import Docstore.Proofs.Record.Legible
import Docstore.Proofs.Record.Relaxed
import Docstore.Proofs.Script.TypedOrder
import Docstore.Proofs.Entity.Ancestors
import Docstore.Proofs.Projection.Around
import Docstore.Proofs.Query.Parts
import Docstore.Proofs.Entity.FieldKeys
import Docstore.Proofs.Query.Grammar
import Docstore.Proofs.Path.Order
import Docstore.Proofs.Projection.Inclusion
import Docstore.Proofs.Update.Executable
import Docstore.Proofs.Query.ScriptTexts
import Docstore.Proofs.Refusal
import Docstore.Proofs.Query.Typing
import Docstore.Proofs.Record.Offences
import Docstore.Proofs.Update.Outcomes
import Docstore.Proofs.Projection.Needed
import Docstore.Proofs.Query.Membership
import Docstore.Proofs.Identifier.Spellings
import Docstore.Proofs.Path.DottedText
import Docstore.Proofs.Number.Value
import Docstore.Proofs.Scalar.WholeNumbers
import Docstore.Proofs.Entity.Nodes
import Docstore.Proofs.Entity.Table
import Docstore.Proofs.Sort
import Docstore.Proofs.Record.Frame
import Docstore.Proofs.Path.Overlap
import Docstore.Proofs.Record.Lookup
