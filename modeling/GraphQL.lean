import GraphQL.Main
import GraphQL.Cache.Delivery
import GraphQL.Document.Equality
import GraphQL.Proofs.Grammar.Sources
import GraphQL.Proofs.Grammar.Formatting
import GraphQL.Proofs.Grammar.Concatenation
import GraphQL.Proofs.Grammar.Earliest
import GraphQL.Proofs.Grammar.Allowance
import GraphQL.Proofs.Key.Tokens
import GraphQL.Proofs.Key.Contents
import GraphQL.Proofs.Key.Idempotence
import GraphQL.Proofs.Key.Canonical
import GraphQL.Proofs.Key.Runs
import GraphQL.Proofs.Cache.Transparency
import GraphQL.Proofs.Cache.Entries
import GraphQL.Proofs.Cache.Failures
import GraphQL.Proofs.Cache.Reuse
import GraphQL.Proofs.Cache.Warnings
import GraphQL.Proofs.Cache.Reentrance
import GraphQL.Proofs.Cache.Accounts
import GraphQL.Proofs.Cache.Composition
import GraphQL.Proofs.Check.Verdict
import GraphQL.Proofs.Text.Utf8
import GraphQL.Proofs.Lexer.Numbers
import GraphQL.Proofs.Lexer.Tiling
import GraphQL.Proofs.Lexer.Bytes
import GraphQL.Proofs.Lexer.BlockStrings
import GraphQL.Proofs.Document.Stripping
import GraphQL.Proofs.Grammar.Cuttings
import GraphQL.Proofs.Grammar.Partial
import GraphQL.Proofs.Fragments.Processing
import GraphQL.FragmentRegistry.Operation
import GraphQL.Proofs.Fragments.History
import GraphQL.Proofs.Template.Flattening
import GraphQL.Proofs.Text.Positions
import GraphQL.Proofs.Grammar.Descent
