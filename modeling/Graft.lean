import Graft.Arithmetic
import Graft.CompiledUnit
import Graft.Compiler
import Graft.Context
import Graft.Decimal.Numeral
import Graft.Decimal.Positional
import Graft.Decimal.Shortest
import Graft.Diagnosis
import Graft.Edit
import Graft.Fault
import Graft.Graph.Basic
import Graft.Graph.Link
import Graft.Graph.Splice
import Graft.Ident
import Graft.Lowering
import Graft.Lowering.Handovers
import Graft.Lowering.Invariants
import Graft.Machine.Basic
import Graft.Machine.Dispatch
import Graft.Machine.Exec
import Graft.Operator
import Graft.Proofs.Access
import Graft.Proofs.Assembly
import Graft.Proofs.Batches
import Graft.Proofs.BlockSplice
import Graft.Proofs.Blocks
import Graft.Proofs.CallerFrames
import Graft.Proofs.Compilations
import Graft.Proofs.CompiledExpressions
import Graft.Proofs.CompiledRuns
import Graft.Proofs.CompiledStatements
import Graft.Proofs.Configurations
import Graft.Proofs.Coverage
import Graft.Proofs.EditBatches
import Graft.Proofs.EmittedCode
import Graft.Proofs.ExecutedOps
import Graft.Proofs.Extraction
import Graft.Proofs.FailedEdits
import Graft.Proofs.FaultingRuns
import Graft.Proofs.Footprints
import Graft.Proofs.FragmentEnds
import Graft.Proofs.Fragments
import Graft.Proofs.Grafting
import Graft.Proofs.HiddenVariables
import Graft.Proofs.HostTree
import Graft.Proofs.IndependentRuns
import Graft.Proofs.Interpretation
import Graft.Proofs.Lineage
import Graft.Proofs.Linking
import Graft.Proofs.LiveReferences
import Graft.Proofs.Lowered
import Graft.Proofs.MaximalRuns
import Graft.Proofs.Meaning
import Graft.Proofs.Mirror
import Graft.Proofs.NestedStatements
import Graft.Proofs.RangeSplice
import Graft.Proofs.RecordedParents
import Graft.Proofs.Regraft
import Graft.Proofs.RepeatedSplice
import Graft.Proofs.Replacement
import Graft.Proofs.Splicing
import Graft.Proofs.StatementRows
import Graft.Proofs.Steps
import Graft.Proofs.Succession
import Graft.Proofs.Tracing
import Graft.Proofs.TreeRun
import Graft.Proofs.UnitCode
import Graft.Proofs.Unwinding
import Graft.Proofs.WellFormed
import Graft.Region
import Graft.Scalar
import Graft.Scope
import Graft.Session
import Graft.Term.Basic
import Graft.Term.Outline
import Graft.Term.Walk
import Graft.Text.Blank
import Graft.Text.Extending
import Graft.Text.Ignorable
import Graft.Text.Quoted
import Graft.Text.Unprintable
import Graft.ValueType
import Graft.Proofs.AttemptedRuns
import Graft.Proofs.HiddenPaths
import Graft.Proofs.AcceptedPrograms
import Graft.Proofs.RefusedContexts
import Graft.Proofs.Defects
import Graft.Proofs.LongestNumeral
import Graft.Proofs.StackBalance
import Graft.Proofs.FirstOps
import Graft.Proofs.FlooredRemainders
import Graft.Proofs.LinkingCalls
import Graft.Proofs.SteeredWalks
import Graft.Proofs.OnePass
