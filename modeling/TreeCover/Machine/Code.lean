import TreeCover.Machine.Block
import TreeCover.Machine.Frame

/-!
# Code under construction

The machine code of a function while it is being selected: its blocks, the block that receives
instructions, its frame, and the number of virtual registers.
-/

namespace TreeCover.Machine

/-- The code of a function so far. -/
structure Code where
  /-- The name of the function. -/
  name : String
  blocks : List Block
  current : Nat := 0
  frame : Frame := {}
  /-- How many virtual registers there are. -/
  vregs : Nat := 0

namespace Code

/-- Empty blocks for a function with the given successor lists. -/
def start (name : String) (succs : List (List Nat)) : Code :=
  { name, blocks := succs.mapIdx fun id targets ↦ { id, succs := targets } }

def updateBlock (c : Code) (b : Nat) (f : Block → Block) : Code :=
  { c with blocks := c.blocks.modify b f }

/-- A virtual register that was not used before. -/
def freshVReg (c : Code) : VReg × Code := (c.vregs, { c with vregs := c.vregs + 1 })

/-- Sends further instructions to `b` and gives that block its label, or none. -/
def beginBlock (c : Code) (b : Nat) (label : Option LabelId) : Code :=
  { c with current := b }.updateBlock b fun block ↦ { block with label }

/-- Appends an instruction to the current block. -/
def emit (c : Code) (i : Inst) : Code :=
  c.updateBlock c.current fun block ↦ { block with insts := block.insts ++ [i] }

/-- Gives block `b` a phi that writes `dst`. -/
def declarePhi (c : Code) (b : Nat) (dst : VReg) : Code :=
  c.updateBlock b fun block ↦ { block with phis := block.phis ++ [⟨dst, []⟩] }

/-- Adds an input to the first phi that writes `dst`. -/
def addInput (dst : VReg) (input : Operand × Nat) : List Phi → List Phi
  | [] => []
  | phi :: phis =>
    if phi.dst = dst then { phi with incoming := phi.incoming ++ [input] } :: phis
    else phi :: addInput dst input phis

/-- Hands `value` from the current block to the phi of `succ` that writes `dst`. -/
def addPhiInput (c : Code) (succ : Nat) (dst : VReg) (value : Operand) : Code :=
  c.updateBlock succ fun block ↦ { block with phis := addInput dst (value, c.current) block.phis }

end Code

end TreeCover.Machine
