import SchemeLexer.CharClass
import SchemeLexer.Number.Marked
import SchemeLexer.Proofs.Decoding
import SchemeLexer.Proofs.Number.Grammar
import SchemeLexer.Proofs.Number.Magnitude
import SchemeLexer.Proofs.Runs
import SchemeLexer.Scanner
import SchemeLexer.Proofs.Number.Recognition
import SchemeLexer.Proofs.Number.Numerals
import SchemeLexer.Proofs.Number.Boundary
import SchemeLexer.Proofs.Extent
import SchemeLexer.Proofs.Blank
import SchemeLexer.Proofs.Scans
import SchemeLexer.Proofs.Tiling
import SchemeLexer.Proofs.Layout
import SchemeLexer.Proofs.Concatenation
import SchemeLexer.Proofs.Routes
import SchemeLexer.Proofs.Sessions
import SchemeLexer.Proofs.Checked.Cursor
import SchemeLexer.Proofs.Checked.Number
import SchemeLexer.Proofs.Positions
import SchemeLexer.Proofs.Checked.Lexeme
import SchemeLexer.Proofs.Checked.Scanner
import SchemeLexer.Proofs.Number.Faults
import SchemeLexer.Proofs.Number.Beginnings
import SchemeLexer.Proofs.Number.Diagnosis
import SchemeLexer.Proofs.Delimiters
import SchemeLexer.Proofs.Folding
import SchemeLexer.Proofs.Completion
import SchemeLexer.Proofs.Opening
import SchemeLexer.Proofs.Comments
import SchemeLexer.Proofs.Identifiers
import SchemeLexer.Proofs.HashForms
import SchemeLexer.Proofs.Encodings
import SchemeLexer.Proofs.Indices
import SchemeLexer.Proofs.Log
import SchemeLexer.Proofs.Readings
import SchemeLexer.Proofs.Display
import SchemeLexer.Proofs.Checked.Magnitude
