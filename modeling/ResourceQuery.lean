import ResourceQuery.Main
import ResourceQuery.Proofs.Catalog
import ResourceQuery.Proofs.Fragment.Acceptance
import ResourceQuery.Proofs.Token.Spelling
import ResourceQuery.Proofs.Token.LongestMatch
import ResourceQuery.Proofs.Token.Texts
import ResourceQuery.Proofs.Token.Proper
import ResourceQuery.Proofs.Fragment.RoundTrip
import ResourceQuery.Proofs.Statement.Build
import ResourceQuery.Proofs.Statement.Predicate
import ResourceQuery.Proofs.Statement.Expression
import ResourceQuery.Proofs.Statement.Markers
import ResourceQuery.Proofs.Statement.Pieces
import ResourceQuery.Proofs.Number.Numeral
import ResourceQuery.Proofs.Sql.Markers
import ResourceQuery.Proofs.Term.Plot
import ResourceQuery.Proofs.Term.WellFormed
import ResourceQuery.Proofs.Term.Planting
import ResourceQuery.Proofs.Term.Edits
import ResourceQuery.Proofs.Term.Operations
import ResourceQuery.Proofs.Query.Meaning
import ResourceQuery.Proofs.Query.NormalForm
import ResourceQuery.Proofs.Query.Resolution
import ResourceQuery.Proofs.Query.Filter
import ResourceQuery.Proofs.Query.Edits
import ResourceQuery.Proofs.Query.Invariant
import ResourceQuery.Proofs.Fragment.Joining
import ResourceQuery.Proofs.Query.Rereading
import ResourceQuery.Proofs.Query.Paging
import ResourceQuery.Proofs.Target.Noninterference
import ResourceQuery.Proofs.Sql.Filters
import ResourceQuery.Proofs.KeyValue.KeyCondition
import ResourceQuery.Proofs.Document.Filters
import ResourceQuery.Proofs.Document.Markers
import ResourceQuery.Proofs.Target.Filters
import ResourceQuery.Proofs.FilterText.Vocabulary
import ResourceQuery.Proofs.Document.Parameters
import ResourceQuery.Proofs.Sql.Inlined
import ResourceQuery.Proofs.KeyValue.StandIns
import ResourceQuery.Proofs.KeyValue.Expressions
import ResourceQuery.Proofs.Fragment.Shorthand
import ResourceQuery.Proofs.Query.Failures
import ResourceQuery.Proofs.Fragment.Concatenation
import ResourceQuery.Proofs.Query.Contribution
import ResourceQuery.Proofs.Query.Composition
import ResourceQuery.Proofs.Query.KeyLookup
import ResourceQuery.Proofs.Sql.KeyLookup
import ResourceQuery.Proofs.Fragment.Rereading
import ResourceQuery.Proofs.Query.CompositeKey
import ResourceQuery.Proofs.Query.EncodedKeys
import ResourceQuery.Proofs.Statement.BoundLiterals
import ResourceQuery.Proofs.Target.BoundValues
import ResourceQuery.Proofs.Statement.References
import ResourceQuery.Proofs.Sql.Joins
import ResourceQuery.Proofs.Sql.Scoping
import ResourceQuery.Proofs.Statement.Patterns
import ResourceQuery.Proofs.Target.Patterns
import ResourceQuery.Proofs.Sql.Membership
import ResourceQuery.Proofs.Document.PropertyText
import ResourceQuery.Proofs.Query.Window
import ResourceQuery.Proofs.Target.QuotedLeaves
import ResourceQuery.Proofs.Sql.SharedJoins
import ResourceQuery.Proofs.Document.PartitionKey
import ResourceQuery.Proofs.Statement.Matching
import ResourceQuery.Proofs.Sql.JoinConditions
import ResourceQuery.Proofs.Query.WordArguments
import ResourceQuery.Proofs.Query.LetterCase
import ResourceQuery.Proofs.Target.Matching
import ResourceQuery.Proofs.Target.LetterCase
import ResourceQuery.Proofs.Token.Coverage
import ResourceQuery.Proofs.Token.WellQuoted
import ResourceQuery.Proofs.Json.Leniency
import ResourceQuery.Proofs.Json.Exchange
import ResourceQuery.Proofs.Term.Copying
import ResourceQuery.Proofs.Fragment.Layout
import ResourceQuery.Proofs.Sql.QuotedNames
