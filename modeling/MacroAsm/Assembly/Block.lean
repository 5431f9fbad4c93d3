import MacroAsm.Assembly.Output
import MacroAsm.Eval.Flatten
import MacroAsm.InstructionSet.Table

/-!
# Blocks

A block is a list of statements that is assembled as a whole: a file, a macro call, an iteration of a
DUP, or an arm of an IF. Blocks nest, each within the handling of a statement of the block around it.
-/

namespace MacroAsm

/-- The tokens of a file that an INCLUDE at some location names by a path and a loader. They start with
the dependency on the file. -/
abbrev Includer := Location → Text → Text → Except Diagnostic (List Token)

/-- What every block of a run shares. -/
structure Assembler where
  /-- The instructions of the machine. -/
  table : InstructionSet
  /-- Finds included files. Without it an INCLUDE is fatal. -/
  includer : Option Includer
  /-- How many blocks may be nested in one another, as it is asked for. -/
  limit : Int
  /-- How blocks and labels are named. -/
  naming : Naming

namespace Assembler

/-- The nesting of blocks that is allowed if nothing is asked for. -/
def defaultDepth : Nat := 64

/-- How many blocks may be nested in one another: what is asked for, if that is positive. -/
def maxDepth (a : Assembler) : Nat := if a.limit ≤ 0 then defaultDepth else a.limit.toNat

/-- An assembler that knows no instructions and finds no files. -/
def bare (limit : Int) : Assembler := ⟨InstructionSet.empty .edits, none, limit, .counted⟩

end Assembler

/-- A list of statements that is assembled as a whole, apart from the statements. -/
structure Block where
  /-- The name of the block and the arguments of the enclosing macro call. -/
  around : Surroundings
  /-- Whether it is part of a macro call, which EXITM ends. -/
  inMacro : Bool
  /-- Whether another block is around it. -/
  nested : Bool
deriving Inhabited

/-- Assembles the statements of a block over the scope of the state. -/
abbrev Runner := Block → List Token → StateM State (List Token)

/-- What the statements of a block are handled with. -/
structure Workbench where
  /-- What every block shares. -/
  assembler : Assembler
  /-- The block itself. -/
  block : Block
  /-- Assembles nested blocks, unless no more may be nested. -/
  runner : Option Runner

namespace Workbench

/-- What surrounds the expressions of the block. -/
def around (w : Workbench) : Surroundings := w.block.around

/-- The runner of nested blocks, or the failure of a block that would be nested too deep. -/
def requireRunner (w : Workbench) : Emission Runner :=
  match w.runner with
  | some run => pure run
  | none => Emission.report (.fatal Location.none
      ("Maximum nesting depth of " ++ Text.ofNat w.assembler.maxDepth ++ " exceeded"))

end Workbench

/-- A nested block under a new name. -/
def Block.fresh (naming : Naming) (args : List Expr) (inMacro : Bool) : Act Block := do
  return ⟨⟨naming.name (← Act.fresh), args⟩, inMacro, true⟩

end MacroAsm
