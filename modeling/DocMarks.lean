import DocMarks.Binary64.Basic
import DocMarks.Binary64.Layout
import DocMarks.Binary64.Shortest
import DocMarks.Command.Basic
import DocMarks.Command.Outcome
import DocMarks.Declaration
import DocMarks.Dialect
import DocMarks.DocComment
import DocMarks.Entries
import DocMarks.Fault
import DocMarks.Findings
import DocMarks.Json.Basic
import DocMarks.Json.Decode
import DocMarks.Json.Raw
import DocMarks.Limits
import DocMarks.Literal
import DocMarks.Main
import DocMarks.Numeral
import DocMarks.Proofs.Cursor
import DocMarks.Proofs.Grammar.Derivation
import DocMarks.Proofs.Rule
import DocMarks.Region
import DocMarks.Rule
import DocMarks.Schema.Basic
import DocMarks.Schema.Reader
import DocMarks.Settings
import DocMarks.Shape
import DocMarks.Span
import DocMarks.Text.Basic
import DocMarks.Text.Blank
import DocMarks.Text.Quoted
import DocMarks.Token.Basic
import DocMarks.Token.Cursor
import DocMarks.Token.Lexer
import DocMarks.Value.Basic
import DocMarks.Value.Equality
import DocMarks.Value.Render
import DocMarks.Vocabulary
import DocMarks.Proofs.Grammar.Soundness
import DocMarks.Proofs.Grammar.Completeness
import DocMarks.Proofs.Conformance
import DocMarks.Proofs.Token.Lexeme
import DocMarks.Proofs.Diagnostics
import DocMarks.Proofs.Value.Built
import DocMarks.Proofs.Numeral
import DocMarks.Proofs.Text.Quoted
import DocMarks.Proofs.Token.Spelling
import DocMarks.Proofs.Value.Writable
import DocMarks.Proofs.RoundTrip
import DocMarks.Proofs.Nesting
import DocMarks.Proofs.Layout
import DocMarks.Proofs.Framing
import DocMarks.Proofs.Token.Append
import DocMarks.Proofs.Findings
import DocMarks.Proofs.Search
import DocMarks.Proofs.Composition
import DocMarks.Proofs.Vocabulary
import DocMarks.Proofs.Schema.Faults
import DocMarks.Proofs.Schema.Printing
import DocMarks.Proofs.Schema.Reader
import DocMarks.Proofs.Schema.WellFormed
import DocMarks.Proofs.Checked
import DocMarks.Proofs.Value.Table
import DocMarks.Proofs.Declaration
import DocMarks.Proofs.DocComment
import DocMarks.Proofs.Extraction
import DocMarks.Proofs.Token.Cover
import DocMarks.Proofs.Token.Longest
import DocMarks.Proofs.Token.Spacing
import DocMarks.Proofs.Text.Wrapping
import DocMarks.Proofs.Literal
import DocMarks.Proofs.Verbatim
import DocMarks.Proofs.Overflow
import DocMarks.Proofs.Binary64
import DocMarks.Proofs.Truncation
import DocMarks.Proofs.Json.Compact
import DocMarks.Proofs.Value.Json
import DocMarks.Proofs.Lossless
import DocMarks.Proofs.Decimal
import DocMarks.Proofs.Scalars
import DocMarks.Proofs.Nulls
import DocMarks.Proofs.Occurrence
import DocMarks.Proofs.Grouping
import DocMarks.Proofs.Grammar.Respelling
import DocMarks.Proofs.Respelling
import DocMarks.Proofs.Openings
import DocMarks.Proofs.Extent
import DocMarks.Proofs.Value.Marker
import DocMarks.Proofs.Value.Equality
import DocMarks.Proofs.Json.Reading
import DocMarks.Proofs.Machine.Run
