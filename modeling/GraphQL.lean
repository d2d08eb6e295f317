import GraphQL.Journal
import GraphQL.Json.Definition
import GraphQL.Json.Token
import GraphQL.Node.Event
import GraphQL.Proofs.RoundTrip
import GraphQL.Proofs.Grammar.LexicalFault
import GraphQL.Proofs.Document.Words
import GraphQL.Proofs.Lexical.Tiling
import GraphQL.Proofs.Grammar.Limit
import GraphQL.Proofs.Grammar.Demand
import GraphQL.Proofs.Grammar.Places
import GraphQL.Proofs.Grammar.Concatenation
import GraphQL.Proofs.Lexical.NumberToken
import GraphQL.Proofs.Lexical.StringToken
import GraphQL.Proofs.Report.OneLine
import GraphQL.Proofs.Report.Excerpt
import GraphQL.Proofs.Json.RoundTrip
import GraphQL.Proofs.Layout.Canonical
import GraphQL.Proofs.TokenStream
import GraphQL.Proofs.Document.Walk
import GraphQL.Proofs.Lexical.Calls
import GraphQL.Proofs.Lexical.Strides
import GraphQL.Proofs.Layout.Indentation
