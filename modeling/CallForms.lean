import CallForms.Code.Arguments
import CallForms.Code.Basic
import CallForms.Code.Dismantling
import CallForms.Code.Lowered
import CallForms.Code.Lowering
import CallForms.Code.Nodes
import CallForms.Code.Pieces
import CallForms.Code.Rendering
import CallForms.Code.Writing
import CallForms.Compilation
import CallForms.Config
import CallForms.Form.Basic
import CallForms.Form.CallText
import CallForms.Form.Contraction
import CallForms.Form.Counter
import CallForms.Form.Descent
import CallForms.Form.Dismantling
import CallForms.Form.Phrase
import CallForms.Form.Place
import CallForms.Form.Reading
import CallForms.Form.Record
import CallForms.Form.Stack
import CallForms.Form.Tour
import CallForms.Form.Walk
import CallForms.Json.Basic
import CallForms.Json.Canonical
import CallForms.Json.Code
import CallForms.Json.Form
import CallForms.Json.Representation
import CallForms.Json.Respelling
import CallForms.Proofs.Arguments
import CallForms.Proofs.Completion
import CallForms.Proofs.Counting
import CallForms.Proofs.DirectText
import CallForms.Proofs.Dismantling
import CallForms.Proofs.Growing
import CallForms.Proofs.Joining
import CallForms.Proofs.LexErrors
import CallForms.Proofs.Lines
import CallForms.Proofs.Lowered
import CallForms.Proofs.Lowering
import CallForms.Proofs.NamesFirst
import CallForms.Proofs.Offsets
import CallForms.Proofs.Outline
import CallForms.Proofs.Phrases
import CallForms.Proofs.Pieces
import CallForms.Proofs.Places
import CallForms.Proofs.Quotation
import CallForms.Proofs.Readers
import CallForms.Proofs.Reading
import CallForms.Proofs.Recording
import CallForms.Proofs.Records
import CallForms.Proofs.Rendering
import CallForms.Proofs.Respelling
import CallForms.Proofs.RoundTrip
import CallForms.Proofs.Scanning
import CallForms.Proofs.Seams
import CallForms.Proofs.Sequence
import CallForms.Proofs.Spelling
import CallForms.Proofs.Strictness
import CallForms.Proofs.Trace
import CallForms.Proofs.Unambiguity
import CallForms.Proofs.Viability
import CallForms.Proofs.Walk
import CallForms.Teardown
import CallForms.Text.Character
import CallForms.Text.Cursor
import CallForms.Text.Offset
import CallForms.Text.Segments
import CallForms.Token.Basic
import CallForms.Token.Offset
import CallForms.Token.Scan
import CallForms.Token.Spelling
import CallForms.Worklist
