import TreeCover.Machine.Inst

/-!
# Machine blocks

The blocks of a function while it is being selected. The values that enter a block over its edges
are not instructions of any block: a phi lists, for each predecessor, the operand handed to its
register at the end of that predecessor.
-/

namespace TreeCover.Machine

/-- A register and the operand each predecessor hands it. -/
structure Phi where
  dst : VReg
  incoming : List (Operand × Nat)
deriving DecidableEq, Repr

/-- The operands a predecessor hands to a phi. -/
def Phi.inputsFrom (phi : Phi) (pred : Nat) : List Operand :=
  (phi.incoming.filter (·.2 == pred)).map (·.1)

/-- A block with its instructions, its phis and its successors. -/
structure Block where
  /-- The number of the source block. -/
  id : Nat
  label : Option LabelId := none
  insts : List Inst := []
  phis : List Phi := []
  succs : List Nat
deriving DecidableEq, Repr

end TreeCover.Machine
