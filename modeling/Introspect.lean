import Introspect.Completion
import Introspect.Decimal.Layout
import Introspect.Decimal.Shortest
import Introspect.Declaration
import Introspect.Document.Decode
import Introspect.Document.Encode
import Introspect.Document.Error
import Introspect.Document.Kind
import Introspect.Event
import Introspect.Json.Compact
import Introspect.Json.Draft
import Introspect.Json.Lexeme
import Introspect.Json.Numeral
import Introspect.Json.Scan
import Introspect.Json.StringLiteral
import Introspect.Json.Tree
import Introspect.Member
import Introspect.Modifier.Basic
import Introspect.Modifier.Change
import Introspect.Modifier.Keywords
import Introspect.Modifier.Text
import Introspect.RuntimeValue
import Introspect.Schema.Descriptors
import Introspect.Schema.Record
import Introspect.Schema.Shape
import Introspect.Signature
import Introspect.Text.Blank
import Introspect.Text.Extending
import Introspect.Text.Hex
import Introspect.Text.Quoted
import Introspect.Text.Ranges
import Introspect.Text.Search
import Introspect.Text.Unshown
import Introspect.TypeRef.Basic
import Introspect.TypeRef.Build
import Introspect.Proofs.Modifier.Bits
import Introspect.Proofs.Modifier.Changes
import Introspect.Proofs.Modifier.Grammar
import Introspect.Proofs.Modifier.Keywords
import Introspect.Proofs.Modifier.RoundTrip
import Introspect.Proofs.Text.Joined
import Introspect.Proofs.Text.Split
import Introspect.Proofs.Json.Grammar
import Introspect.Proofs.Json.Lexemes
import Introspect.Proofs.Json.WellFormed
import Introspect.Proofs.Json.Gap
import Introspect.Proofs.Json.Scan
import Introspect.Proofs.Json.Found
import Introspect.Proofs.Json.Compact
import Introspect.Proofs.Json.CutOff
import Introspect.Proofs.Document.Nesting
import Introspect.Proofs.Document.Place
import Introspect.Proofs.Document.Accepted.Record
import Introspect.Proofs.Document.Accepted.Reference
import Introspect.Proofs.Document.RoundTrip
import Introspect.Proofs.Document.Accepted.Text
import Introspect.Proofs.Document.CutOff
import Introspect.Proofs.Document.Reencoding
import Introspect.Proofs.Json.Sorted
import Introspect.Proofs.Document.Accepted.Tree
import Introspect.Proofs.Document.Order
import Introspect.Proofs.Document.OriginFirst
import Introspect.Proofs.Document.Layout
import Introspect.Proofs.Document.Exchange
import Introspect.Proofs.Document.FieldsOnce
import Introspect.Proofs.Document.OnePart
import Introspect.Proofs.Document.UnknownMember
import Introspect.Proofs.Document.AccessFlags
import Introspect.Proofs.Document.FirstRejected
import Introspect.Proofs.Document.Meaning
import Introspect.Proofs.Document.Spelling
import Introspect.Proofs.Document.OriginSpelling
import Introspect.Proofs.Declaration.MemberLine
import Introspect.Proofs.Declaration.TypeLine
import Introspect.Proofs.Declaration.TypeTokens
import Introspect.Proofs.Declaration.MethodLine
import Introspect.Proofs.Declaration.MethodBuild
import Introspect.Proofs.Declaration.Calls
import Introspect.Proofs.Declaration.SignatureParts
import Introspect.Proofs.Declaration.Arguments
import Introspect.Proofs.TypeRef.Build
import Introspect.Proofs.TypeRef.QualifiedName
import Introspect.Proofs.Completion
