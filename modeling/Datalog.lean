import Datalog.CommandLine
import Datalog.Config
import Datalog.DeltaRule
import Datalog.Digraph
import Datalog.Error
import Datalog.Evaluation.Engine
import Datalog.Evaluation.Fixpoint
import Datalog.Evaluation.Matching
import Datalog.Evaluation.Substitution
import Datalog.Evaluation.Task
import Datalog.Function.Builtin
import Datalog.Function.Propositional
import Datalog.Function.Registry
import Datalog.JoinOrder
import Datalog.Json.Basic
import Datalog.Json.Printer
import Datalog.Json.Reading
import Datalog.Json.Scan
import Datalog.MachineInt
import Datalog.Main
import Datalog.Pool
import Datalog.Program
import Datalog.Rule
import Datalog.RulePlan
import Datalog.Source.Basic
import Datalog.Source.Decode
import Datalog.Source.Elaborate
import Datalog.Source.Encode
import Datalog.Source.FactTable
import Datalog.Store.FactStore
import Datalog.Store.Index
import Datalog.Store.View
import Datalog.Stratum
import Datalog.Term
import Datalog.TermStore
import Datalog.Text.Printable
import Datalog.Text.Quoted
import Datalog.Text.Uppercase
import Datalog.Proofs.Semantics.Meaning
import Datalog.Proofs.Semantics.Consequence
import Datalog.Proofs.Semantics.PerfectModel
import Datalog.Proofs.Semantics.Variants
import Datalog.Proofs.Semantics.Isolation
import Datalog.Proofs.Store.Key
import Datalog.Proofs.Store.Index
import Datalog.Proofs.Store.View
import Datalog.Proofs.Store.Relation
import Datalog.Proofs.Store.FactStore
import Datalog.Proofs.Evaluation.Outcome
import Datalog.Proofs.Evaluation.Call
import Datalog.Proofs.Evaluation.Substitution
import Datalog.Proofs.Evaluation.Term
import Datalog.Proofs.Evaluation.Matching
import Datalog.Proofs.Evaluation.Frame
import Datalog.Proofs.Evaluation.Columns
import Datalog.Proofs.Evaluation.Lookup
import Datalog.Proofs.Evaluation.Promise
import Datalog.Proofs.Evaluation.Report
import Datalog.Proofs.Evaluation.Scan
import Datalog.Proofs.Evaluation.Steps
import Datalog.Proofs.Evaluation.Pass
import Datalog.Proofs.Evaluation.Merge
import Datalog.Proofs.Evaluation.Round
import Datalog.Proofs.Evaluation.SemiNaive
import Datalog.Proofs.Evaluation.Rounds
import Datalog.Proofs.Evaluation.Eager
import Datalog.Proofs.Planning.Terms
import Datalog.Proofs.Evaluation.Normalization
import Datalog.Proofs.Planning.Folding
import Datalog.Proofs.Planning.Bodies
import Datalog.Proofs.Planning.Rules
import Datalog.Proofs.Planning.Setup
import Datalog.Proofs.Planning.Stratum
import Datalog.Proofs.Planning.Strata
import Datalog.Proofs.Digraph.Search
import Datalog.Proofs.Digraph.Components
import Datalog.Proofs.Digraph.Condensation
import Datalog.Proofs.Evaluation.Load
import Datalog.Proofs.Engine.Strata
import Datalog.Proofs.Engine.Failure
import Datalog.Proofs.Engine.Safety
import Datalog.Proofs.Engine.Settling
import Datalog.Proofs.Store.Representatives
import Datalog.Proofs.Store.History
import Datalog.Proofs.Store.Reading
import Datalog.Proofs.Store.Division
import Datalog.Proofs.Store.Sharing
import Datalog.Proofs.Store.Batches
import Datalog.Proofs.Semantics.Interning
import Datalog.Proofs.Pool.Interleaving
import Datalog.Proofs.Json.Value
import Datalog.Proofs.Source.Term
import Datalog.Proofs.Source.Program
import Datalog.Proofs.Source.Rewriting
import Datalog.Proofs.Evaluation.Unlimited
import Datalog.Proofs.Engine.SingleRule
import Datalog.Proofs.Evaluation.CallFree
import Datalog.Proofs.Planning.CallFree
import Datalog.Proofs.Store.Extent
import Datalog.Proofs.Store.Splitting
import Datalog.Proofs.Engine.CallFree
import Datalog.Proofs.Evaluation.Charge
import Datalog.Proofs.Engine.Termination
import Datalog.Proofs.Engine.Parts
import Datalog.Proofs.Engine.Bounds
import Datalog.Proofs.Planning.Acceptance
import Datalog.Proofs.Program.Calls
import Datalog.Proofs.Program.Tables
import Datalog.Proofs.Planning.Refusal
import Datalog.Proofs.Planning.Registration
import Datalog.Proofs.Semantics.Rendering
import Datalog.Proofs.Semantics.Specialization
import Datalog.Proofs.Semantics.Listing
import Datalog.Proofs.Engine.Canonical
import Datalog.Proofs.Planning.Isolated
import Datalog.Proofs.Planning.Registered
import Datalog.Proofs.Evaluation.LoadFailure
import Datalog.Proofs.Engine.Acceptance
import Datalog.Proofs.Evaluation.Extension
import Datalog.Proofs.Evaluation.Printing
import Datalog.Proofs.Engine.Query
import Datalog.Proofs.Source.Description
import Datalog.Proofs.Source.Elaboration
import Datalog.Proofs.Planning.Rewording
import Datalog.Proofs.Planning.Renaming
import Datalog.Proofs.Source.Anonymous
import Datalog.Proofs.Evaluation.Confinement
import Datalog.Proofs.Evaluation.LoadAnswers
import Datalog.Proofs.Evaluation.Rewording
import Datalog.Proofs.Engine.Repetition
import Datalog.Proofs.Engine.Loading
import Datalog.Proofs.Engine.Rewording
import Datalog.Proofs.Engine.Anonymous
import Datalog.Proofs.Planning.LeastOrder
import Datalog.Proofs.Store.Guess
import Datalog.Proofs.Evaluation.Scoping
import Datalog.Proofs.Evaluation.Moments
import Datalog.Proofs.Planning.HeadSigns
import Datalog.Proofs.Engine.HeadSigns
import Datalog.Proofs.Evaluation.Reports
import Datalog.Proofs.Evaluation.Delivery
