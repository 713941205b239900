import YamlSpan.Assoc
import YamlSpan.Binary64
import YamlSpan.Cursor
import YamlSpan.Decimal
import YamlSpan.Diagnostic
import YamlSpan.Document
import YamlSpan.Event
import YamlSpan.Event.Grammar
import YamlSpan.Event.Text
import YamlSpan.Failure
import YamlSpan.Http.Limit
import YamlSpan.Http.Response
import YamlSpan.Http.Service
import YamlSpan.IntText
import YamlSpan.Json
import YamlSpan.Json.Encoding
import YamlSpan.Json.Read
import YamlSpan.Main
import YamlSpan.Node
import YamlSpan.Node.Linked
import YamlSpan.Node.OfRaw
import YamlSpan.Node.Path
import YamlSpan.Node.Value
import YamlSpan.Node.Visitor
import YamlSpan.Numeral
import YamlSpan.Parse
import YamlSpan.Position
import YamlSpan.Problem
import YamlSpan.Raw
import YamlSpan.Raw.Assembly
import YamlSpan.Raw.Loading
import YamlSpan.Scalar
import YamlSpan.Scalar.Literal
import YamlSpan.Scalar.Pattern
import YamlSpan.Settings
import YamlSpan.Span
import YamlSpan.Tag
import YamlSpan.Text.Blank
import YamlSpan.Text.CodePoint
import YamlSpan.Text.Digit
import YamlSpan.Text.Printable
import YamlSpan.Text.Quoted
import YamlSpan.Text.Slice
import YamlSpan.Text.UpperCase
import YamlSpan.Text.Utf8
import YamlSpan.Token
import YamlSpan.Token.Anchor
import YamlSpan.Token.Block
import YamlSpan.Token.Directive
import YamlSpan.Token.Lexer
import YamlSpan.Token.Plain
import YamlSpan.Token.Quoted
import YamlSpan.Token.Tag
import YamlSpan.Validation
import YamlSpan.Proofs.EventTree
import YamlSpan.Proofs.Actions
import YamlSpan.Proofs.Refinement
import YamlSpan.Proofs.Closing
import YamlSpan.Proofs.Interruption
import YamlSpan.Proofs.Marker
import YamlSpan.Proofs.Stream
import YamlSpan.Proofs.Restart
import YamlSpan.Proofs.Shift
import YamlSpan.Proofs.Recovery
import YamlSpan.Proofs.Laminar
import YamlSpan.Proofs.Tiling
import YamlSpan.Proofs.Resolution
import YamlSpan.Proofs.Lexing
import YamlSpan.Proofs.Grammar
import YamlSpan.Proofs.Outcome
import YamlSpan.Proofs.Repetition
import YamlSpan.Proofs.Errors
import YamlSpan.Proofs.TagIndependence
import YamlSpan.Proofs.Expansion
import YamlSpan.Proofs.Linking
import YamlSpan.Proofs.Visibility
import YamlSpan.Proofs.Innermost
import YamlSpan.Proofs.Layers
import YamlSpan.Proofs.Readers
import YamlSpan.Proofs.Reports
import YamlSpan.Proofs.Spans
import YamlSpan.Proofs.Truncation
import YamlSpan.Proofs.Extension
import YamlSpan.Proofs.ExtendedReaders
import YamlSpan.Proofs.ExtendedScalars
import YamlSpan.Proofs.ExtendedLexing
import YamlSpan.Proofs.ExtendedEvents
import YamlSpan.Proofs.EarlierDocuments
import YamlSpan.Proofs.Positions
import YamlSpan.Proofs.Digits
import YamlSpan.Proofs.Classification
import YamlSpan.Proofs.IntegerLiterals
import YamlSpan.Proofs.PlainIntegers
import YamlSpan.Proofs.FailureLine
import YamlSpan.Proofs.Registrations
import YamlSpan.Proofs.BodyLimit
import YamlSpan.Proofs.Serialization
import YamlSpan.Proofs.Traversal
