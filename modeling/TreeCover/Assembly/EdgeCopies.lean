import TreeCover.Assembly.Placement
import TreeCover.Machine.Block

/-!
# Copies on an edge

On an edge into a block with phis all phis are written at once, from values as they were before.
As single copies they need an order in which no location is written before it is read: a copy is
ready when no other pending copy reads its destination. If none is ready, the first destination is
saved in `r11` and read from there by all that want it, which makes that copy ready.

A source keeps its virtual registers until its own copy is made, so the loads that its address
needs do not disturb others.
-/

namespace TreeCover

open Machine

/-- A pending copy, with the registers and slots that reading its source depends on. -/
structure EdgeMove where
  dst : Operand
  src : Operand
  reads : List Operand
deriving DecidableEq, Repr

namespace EdgeMove

/-- The location of a register as an operand. -/
def resolved (a : Allocation) : Reg → Placing Operand
  | .phys r => return .phys r
  | .virt v => do
    match ← a.locate v with
    | .register r => return .phys r
    | .stack slot => return .mem slot

/-- What reading a source depends on; the frame pointer never changes and is left out. -/
def readsOf (a : Allocation) : Operand → Placing (List Operand)
  | .reg r _ => return [← resolved a r]
  | .mem m => do
    let regs ← (m.regs.filter (· ≠ .phys .rbp)).mapM (resolved a)
    return .mem m :: regs
  | _ => return []

/-- Adds the copy of `src` to the register `dst`, unless it does nothing or the location of `dst`
is written already. -/
def add (a : Allocation) (dst : VReg) (moves : List EdgeMove) (src : Operand) :
    Placing (List EdgeMove) := do
  let dst ← resolved a (.virt dst)
  let reads ← readsOf a src
  let idle := src.isReg && reads.head? = some dst
  if idle || moves.any (·.dst == dst) then return moves
  return moves ++ [⟨dst, src, reads⟩]

/-- The copies on the edge from block `pred` to a block with the given phis. -/
def ofPhis (a : Allocation) (pred : Nat) (phis : List Phi) : Placing (List EdgeMove) :=
  phis.foldlM (fun moves phi ↦ (phi.inputsFrom pred).foldlM (add a phi.dst) moves) []

/-- The copies on the edge from block `pred` to block `succ`. -/
def onEdge (a : Allocation) (blocks : List Block) (pred succ : Nat) : Placing (List EdgeMove) :=
  match blocks[succ]? with
  | some b => ofPhis a pred b.phis
  | none => return []

/-! ## Single copies -/

/-- Copies into a register. -/
def copyToReg (r : PhysReg) : Operand → Inst
  | .imm value => loadConstant value (.phys r)
  | src => .define "movq" [src, .phys r]

/-- Copies a word. What cannot go to memory directly goes through `rax`. -/
def copy (dst src : Operand) : List Inst :=
  match src, dst with
  | .imm value, .reg .. => [loadConstant value dst]
  | .imm value, .mem _ =>
    if fitsImm32 value then [{ mnemonic := "movq", operands := [src, dst] }]
    else
      [copyToReg .valueScratch src, { mnemonic := "movq", operands := [.phys .valueScratch, dst] }]
  | .mem _, .mem _ =>
    [copyToReg .valueScratch src, { mnemonic := "movq", operands := [.phys .valueScratch, dst] }]
  | _, _ => [.define "movq" [src, dst]]

/-! ## Sequencing -/

/-- Whether no other copy reads the destination of copy number `i`. -/
def isReady (moves : List EdgeMove) (i : Nat) : Bool :=
  moves[i]?.any fun m ↦ (moves.eraseIdx i).all fun other ↦ !other.reads.contains m.dst

/-- The first copy that is ready. -/
def ready? (moves : List EdgeMove) : Option Nat := (List.range moves.length).find? (isReady moves)

/-- A source with every read of `parked` taken from `r11` instead. -/
def redirect (a : Allocation) (parked : Operand) : Operand → Placing Operand
  | .reg _ width => return .reg (.phys .indexScratch) width
  | .mem m => do
    let base := if (← resolved a m.base) = parked then .phys .indexScratch else m.base
    match m.index with
    | none => return .mem { m with base }
    | some (r, scale) =>
      let r := if (← resolved a r) = parked then .phys .indexScratch else r
      return .mem { m with base, index := some (r, scale) }
  | other => return other

/-- Lets a copy that reads `parked` read `r11` instead. -/
def reroute (a : Allocation) (parked : Operand) (m : EdgeMove) : Placing EdgeMove := do
  if m.reads.contains parked then
    let src ← redirect a parked m.src
    return { m with src, reads := ← readsOf a src }
  return m

/-- One step of a sequence. -/
inductive Step where
  /-- A copy is made. -/
  | move (insts : List Inst)
  /-- A location is saved in `r11`. -/
  | park (location : Operand) (insts : List Inst)

def Step.insts : Step → List Inst
  | move is | park _ is => is

/-- Orders copies. A location is parked only if no copy is ready, and then one is, so twice the
number of copies bounds the steps. -/
def sequenceFrom (a : Allocation) : Nat → List EdgeMove → Placing (List Step)
  | 0, _ | _, [] => return []
  | fuel + 1, first :: rest => do
    let moves := first :: rest
    match (ready? moves).bind fun i ↦ (moves[i]?).map fun m ↦ (i, m) with
    | some (i, m) =>
      let (loads, src, _) ← Placement.operand a m.src
      return .move (loads ++ copy m.dst src) :: (← sequenceFrom a fuel (moves.eraseIdx i))
    | none =>
      let moves ← moves.mapM (reroute a first.dst)
      return .park first.dst (copy (.phys .indexScratch) first.dst) :: (← sequenceFrom a fuel moves)

/-- The steps that carry out copies as one parallel assignment. -/
def sequence (a : Allocation) (moves : List EdgeMove) : Placing (List Step) :=
  sequenceFrom a (2 * moves.length) moves

end EdgeMove

end TreeCover
