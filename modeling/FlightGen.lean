import FlightGen.Text.Blank
import FlightGen.Text.Lines
import FlightGen.Binary64
import FlightGen.Decimal.Basic
import FlightGen.Decimal.Shortest
import FlightGen.Value
import FlightGen.Identifier
import FlightGen.Expr.Basic
import FlightGen.Expr.Token
import FlightGen.Expr.Parser
import FlightGen.Expr.Eval
import FlightGen.Model.Error
import FlightGen.Naming
import FlightGen.Json.Basic
import FlightGen.Json.Token
import FlightGen.Json.Parser
import FlightGen.Json.Decode
import FlightGen.Definition.Basic
import FlightGen.Definition.Export
import FlightGen.Model.Basic
import FlightGen.Model.Resolve
import FlightGen.Model.Build
import FlightGen.Graph
import FlightGen.Routine
import FlightGen.Flow.Basic
import FlightGen.Flow.Typing
import FlightGen.Flow.Dependency
import FlightGen.Flow.Lowering
import FlightGen.Compilation
import FlightGen.Datum
import FlightGen.Run
import FlightGen.Machine.Basic
import FlightGen.Machine.Synthesis
import FlightGen.Machine.Execution
import FlightGen.Artifact.Profile
import FlightGen.Artifact.Line
import FlightGen.Artifact.Bundle
import FlightGen.Artifact.Header
import FlightGen.Artifact.Implementation
import FlightGen.Artifact.Fpp
import FlightGen.Settings
import FlightGen.Artifact.Basic
import FlightGen.Generation
import FlightGen.Proofs.Fallible
import FlightGen.Proofs.Graph.Search
import FlightGen.Proofs.Graph.Order
import FlightGen.Proofs.Identifier
import FlightGen.Proofs.Naming.Table
import FlightGen.Proofs.Naming.Trail
import FlightGen.Proofs.Naming.Effect
import FlightGen.Proofs.Model.Resolution
import FlightGen.Proofs.Model.Building
import FlightGen.Proofs.Model.Resolved
import FlightGen.Proofs.Model.Built
import FlightGen.Proofs.Flow.Root
import FlightGen.Proofs.Flow.Dependency
import FlightGen.Proofs.Flow.Ordering
import FlightGen.Proofs.Flow.Lowering
import FlightGen.Proofs.Flow.Visibility
import FlightGen.Proofs.Flow.Vars
import FlightGen.Proofs.Flow.Operation
import FlightGen.Proofs.Run.Commute
import FlightGen.Proofs.Flow.Footprint
import FlightGen.Proofs.Flow.Constraints
import FlightGen.Proofs.Flow.Scoping
import FlightGen.Proofs.Run.Confluence
import FlightGen.Proofs.Flow.Interface
import FlightGen.Proofs.Compilation.Rules
import FlightGen.Proofs.Compilation
import FlightGen.Proofs.Compilation.Outcome
import FlightGen.Proofs.Compilation.Memo
import FlightGen.Proofs.Run.Fits
import FlightGen.Proofs.Run.Soundness
import FlightGen.Proofs.Run.Preservation
import FlightGen.Proofs.Expr.Grammar
import FlightGen.Proofs.Expr.Descent
import FlightGen.Proofs.Expr.Acceptance
import FlightGen.Proofs.Binary64
import FlightGen.Proofs.Decimal
import FlightGen.Proofs.Expr.Lexeme
import FlightGen.Proofs.Expr.Scanning
import FlightGen.Proofs.Expr.RoundTrip
import FlightGen.Proofs.Expr.Fault
import FlightGen.Proofs.Expr.Lines
import FlightGen.Proofs.Model.Wiring
import FlightGen.Proofs.Machine.Synthesis
import FlightGen.Proofs.Machine.Operation
import FlightGen.Proofs.Machine.Trace
import FlightGen.Proofs.Machine.Semantics
import FlightGen.Proofs.Machine.Simulation
import FlightGen.Proofs.Naming.Spelling
import FlightGen.Proofs.Model.Distinct
import FlightGen.Proofs.Machine.Guard
import FlightGen.Proofs.Model.Linked
import FlightGen.Proofs.Model.Closed
import FlightGen.Proofs.Naming.Acceptance
import FlightGen.Proofs.Model.WellFormed
import FlightGen.Proofs.Model.Acceptance
import FlightGen.Proofs.Artifact.Meaning
import FlightGen.Proofs.Artifact.Transition
import FlightGen.Proofs.Artifact.Profile
import FlightGen.Proofs.Artifact.Reachable
import FlightGen.Proofs.Compilation.Isolation
import FlightGen.Proofs.Generation
import FlightGen.Proofs.Compilation.Blame
import FlightGen.Proofs.Artifact.Closure
import FlightGen.Proofs.Artifact.Gathering
import FlightGen.Proofs.Artifact.Outline
import FlightGen.Proofs.Artifact.Emission
import FlightGen.Proofs.Artifact.Declaration
import FlightGen.Proofs.Artifact.Inclusion
import FlightGen.Proofs.Artifact.Plain
import FlightGen.Proofs.Artifact.Comment
import FlightGen.Proofs.Machine.Failure
import FlightGen.Proofs.Machine.Coverage
import FlightGen.Proofs.Expr.Evaluation
import FlightGen.Proofs.Machine.Decision
import FlightGen.Proofs.Naming.Ledger
import FlightGen.Proofs.Naming.Account
import FlightGen.Proofs.Model.Pins
import FlightGen.Proofs.Run.Verbatim
import FlightGen.Proofs.Flow.Descent
import FlightGen.Proofs.Naming.NormalForm
import FlightGen.Proofs.Naming.Separation
