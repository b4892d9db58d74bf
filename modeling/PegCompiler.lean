import PegCompiler.Grammar.Basic
import PegCompiler.Grammar.Outline
import PegCompiler.Grammar.Build
import PegCompiler.Grammar.Traversal
import PegCompiler.Defect
import PegCompiler.Grammar.Consumption
import PegCompiler.Check.Rules
import PegCompiler.Check.Labels
import PegCompiler.Check.Repetition
import PegCompiler.Check.Plucking
import PegCompiler.Check.LeftRecursion
import PegCompiler.Grammar.Redirect
import PegCompiler.Grammar.Inference
import PegCompiler.Bytecode.Opcode
import PegCompiler.Bytecode.Assembly
import PegCompiler.Bytecode.Script
import PegCompiler.Bytecode.Listing
import PegCompiler.Main
import PegCompiler.Proofs.Evaluation
import PegCompiler.Proofs.Advance
import PegCompiler.Proofs.Checks
import PegCompiler.Proofs.Termination
import PegCompiler.Proofs.Outcomes
import PegCompiler.Proofs.Settling
import PegCompiler.Proofs.Soundness
import PegCompiler.Proofs.Calls
import PegCompiler.Proofs.Blocks
import PegCompiler.Proofs.Simulation
import PegCompiler.Proofs.Words
import PegCompiler.Proofs.Recording
import PegCompiler.Proofs.Preservation
import PegCompiler.Proofs.Values
import PegCompiler.Proofs.Bindings
import PegCompiler.Proofs.Delivery
import PegCompiler.Proofs.Valuation
import PegCompiler.Proofs.Faithfulness
import PegCompiler.Proofs.Renaming
import PegCompiler.Proofs.Proxies
import PegCompiler.Proofs.Balance
import PegCompiler.Proofs.Decoding
import PegCompiler.Proofs.Tracking
import PegCompiler.Proofs.Frames
import PegCompiler.Proofs.Paths
import PegCompiler.Proofs.Runs
import PegCompiler.Proofs.Layout
import PegCompiler.Proofs.Offsets
import PegCompiler.Proofs.Completeness
import PegCompiler.Proofs.Annotations
import PegCompiler.Proofs.Resolution
import PegCompiler.Proofs.Consumption
import PegCompiler.Proofs.RoundTrip
import PegCompiler.Proofs.Revision
import PegCompiler.Proofs.Idempotence
import PegCompiler.Proofs.Throughout
import PegCompiler.Proofs.Occupancy
import PegCompiler.Proofs.LeftRecursion
import PegCompiler.Proofs.Rounds
import PegCompiler.Proofs.Restoration
import PegCompiler.Proofs.Estimates
import PegCompiler.Proofs.Combination
import PegCompiler.Proofs.Logs
import PegCompiler.Proofs.Shadowing
import PegCompiler.Proofs.Endings
import PegCompiler.Proofs.Emissions
import PegCompiler.Proofs.Emitting
import PegCompiler.Proofs.Descriptors
import PegCompiler.Proofs.Silence
import PegCompiler.Proofs.Counters
import PegCompiler.Proofs.Traversals
import PegCompiler.Proofs.Agreement
import PegCompiler.Proofs.Marks
import PegCompiler.Proofs.Exits
import PegCompiler.Proofs.Loops
import PegCompiler.Proofs.Comparisons
import PegCompiler.Proofs.Histories
import PegCompiler.Proofs.Pools
import PegCompiler.Proofs.OnePass
