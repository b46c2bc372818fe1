import MacroForest.Macro.Script
import MacroForest.Main
import MacroForest.Proofs.Number.Rounding
import MacroForest.Proofs.Number.Shortest
import MacroForest.Proofs.Node.Shape
import MacroForest.Proofs.Node.Heads
import MacroForest.Proofs.Source.Spelling
import MacroForest.Proofs.Source.RoundTrip
import MacroForest.Proofs.Expansion.Adequacy
import MacroForest.Proofs.Expansion.Budget
import MacroForest.Proofs.Expansion.Scopes
import MacroForest.Proofs.Expansion.Plain
import MacroForest.Proofs.Expansion.Stop
import MacroForest.Proofs.Expansion.Turns
import MacroForest.Proofs.Expansion.Exhaustive
import MacroForest.Proofs.Macro.Report
import MacroForest.Proofs.Expansion.Lockstep
import MacroForest.Proofs.Expansion.Heard
import MacroForest.Proofs.Expansion.Failure
import MacroForest.Proofs.Sorting
import MacroForest.Proofs.Batch.Isolation
import MacroForest.Proofs.Batch.Modes
import MacroForest.Proofs.Batch.Floor
import MacroForest.Proofs.Expansion.Pursuit
import MacroForest.Proofs.Expansion.Ample
import MacroForest.Proofs.Expansion.Threshold
import MacroForest.Proofs.Batch.Supervised
import MacroForest.Proofs.Batch.Deadline
import MacroForest.Proofs.Batch.Containment
import MacroForest.Proofs.Batch.Verbosity
import MacroForest.Proofs.Macro.Extension
import MacroForest.Proofs.Expansion.Closed
import MacroForest.Proofs.Expansion.Padding
import MacroForest.Proofs.Expansion.Bystanders
import MacroForest.Proofs.Batch.Accounted
import MacroForest.Proofs.Source.Grammar
import MacroForest.Proofs.Source.Lexical
import MacroForest.Proofs.Source.Terminals
import MacroForest.Proofs.Source.Reading
import MacroForest.Proofs.Source.Descent
import MacroForest.Proofs.Source.Expressions
import MacroForest.Proofs.Source.Acceptance
import MacroForest.Proofs.Source.Pieces
import MacroForest.Proofs.Source.Layout
import MacroForest.Proofs.Scope.Eager
import MacroForest.Proofs.Macro.Registry
import MacroForest.Proofs.Source.Normal
import MacroForest.Proofs.Expansion.Order
import MacroForest.Proofs.Macro.Policy
import MacroForest.Proofs.Expansion.Walk
import MacroForest.Proofs.Expansion.Hearings
import MacroForest.Proofs.Expansion.Refusals
import MacroForest.Proofs.Expansion.Cancelled
import MacroForest.Proofs.Expansion.Iteration
import MacroForest.Proofs.Expansion.Splices
import MacroForest.Proofs.Node.Comparison
import MacroForest.Proofs.Macro.Labels
