import MacroAsm.File.Tree
import MacroAsm.Main
import MacroAsm.Scope.Workspace
import MacroAsm.Proofs.Eval.Action
import MacroAsm.Proofs.Eval.Computes
import MacroAsm.Proofs.Expr.Similar
import MacroAsm.Proofs.Eval.Agreement
import MacroAsm.Proofs.Eval.TwoStage
import MacroAsm.Proofs.Assembly.Emission
import MacroAsm.Proofs.Scope.Merge
import MacroAsm.Proofs.Assembly.Evolution
import MacroAsm.Proofs.Assembly.Reduction
import MacroAsm.Proofs.Assembly.Lasting
import MacroAsm.Proofs.Assembly.Grammar
import MacroAsm.Proofs.Assembly.Arms
import MacroAsm.Proofs.Assembly.Runs
import MacroAsm.Proofs.Assembly.Reachable
import MacroAsm.Proofs.Scope.Choice
import MacroAsm.Proofs.Assembly.Condition
import MacroAsm.Proofs.Assembly.Roles
import MacroAsm.Proofs.Assembly.Program
import MacroAsm.Proofs.Assembly.Encoding
import MacroAsm.Proofs.Eval.Waiting
import MacroAsm.Proofs.Assembly.Circular
import MacroAsm.Proofs.Scope.Origin
import MacroAsm.Proofs.Assembly.Exclusive
import MacroAsm.Proofs.Assembly.Depth
import MacroAsm.Proofs.Assembly.Reordering
import MacroAsm.Proofs.Assembly.Outstanding
import MacroAsm.Proofs.Assembly.Hygiene
import MacroAsm.Proofs.Assembly.Externals
import MacroAsm.Proofs.Assembly.Refinement
import MacroAsm.Proofs.Assembly.Removal
import MacroAsm.Proofs.Assembly.Isolation
import MacroAsm.Proofs.Assembly.Carriage
import MacroAsm.Proofs.Assembly.Course
import MacroAsm.Proofs.Assembly.DataBlock
import MacroAsm.Proofs.Assembly.DataLoop
import MacroAsm.Proofs.Assembly.Ending
import MacroAsm.Proofs.Assembly.Linkage
import MacroAsm.Proofs.Assembly.Outermost
import MacroAsm.Proofs.Assembly.Repetition
import MacroAsm.Proofs.Assembly.Cutoff
import MacroAsm.Proofs.Assembly.Ahead
import MacroAsm.Proofs.Assembly.Interruption
import MacroAsm.Proofs.Assembly.Exports
import MacroAsm.Proofs.Assembly.Linkable
import MacroAsm.Proofs.Assembly.Chronicle
import MacroAsm.Proofs.Assembly.Auditing
import MacroAsm.Proofs.Assembly.Posting
import MacroAsm.Proofs.Assembly.Surfacing
import MacroAsm.Proofs.Assembly.LateLoop
import MacroAsm.Proofs.Assembly.LateCondition
import MacroAsm.Proofs.Assembly.Arguments
import MacroAsm.Proofs.Assembly.Naming
import MacroAsm.Proofs.Text.Numeral
import MacroAsm.Proofs.Source.Recovery
import MacroAsm.Proofs.Eval.Cycle
import MacroAsm.Proofs.Eval.Marking
import MacroAsm.Proofs.Eval.Premature
import MacroAsm.Proofs.Cli.Dependencies
import MacroAsm.Proofs.Assembly.Iteration
import MacroAsm.Proofs.InstructionSet.Lookup
import MacroAsm.Proofs.InstructionSet.Forms
import MacroAsm.Proofs.Encode.Elements
import MacroAsm.Proofs.Encode.Operands
import MacroAsm.Proofs.Eval.Substring
import MacroAsm.Proofs.Scope.Accord
import MacroAsm.Proofs.Assembly.Conduct
import MacroAsm.Proofs.Assembly.Conducting
import MacroAsm.Proofs.Assembly.Jumps
import MacroAsm.Proofs.Assembly.Kinds
import MacroAsm.Proofs.Cli.Exports
import MacroAsm.Proofs.Eval.Provenance
import MacroAsm.Proofs.Scope.Registration
import MacroAsm.Proofs.Assembly.Units
