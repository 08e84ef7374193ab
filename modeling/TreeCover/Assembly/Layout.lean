import TreeCover.Assembly.EdgeCopies
import TreeCover.Session.Basic

/-!
# Laying out a function

The blocks of a function become one list of instructions between a prologue and, at every return,
an epilogue. The copies of an edge run where only that edge passes: before a final jump, or, for
the taken side of a conditional jump, in a stub behind the body to which the jump is sent. A final
jump to the block that comes next is left out.
-/

namespace TreeCover

open Machine

/-- Work that may draw labels and report. -/
abbrev Assembling := EStateM CompileError Session

/-- A function whose operands are all physical, frame included. -/
structure Assembly where
  name : String
  insts : List Inst
  /-- Bytes taken below the frame pointer. -/
  frameBytes : Nat
  /-- The registers saved in the frame. -/
  saved : List PhysReg
deriving Repr

namespace Assembly

/-- A list of lines, each with its end. -/
def unlines (lines : List String) : String := String.join (lines.map (· ++ "\n"))

/-- A function as assembler text: its symbol, its instructions and its size. -/
def text (f : Assembly) : String :=
  unlines (["\t.globl\t" ++ f.name, "\t.type\t" ++ f.name ++ ", @function", f.name ++ ":"] ++
    f.insts.map (·.text) ++ ["\t.size\t" ++ f.name ++ ", .-" ++ f.name])

/-- The text of several functions, each followed by an empty line. -/
def textAll (fs : List Assembly) : String := "\t.text\n" ++ String.join (fs.map (·.text ++ "\n"))

/-! ## Frame -/

/-- A saved register and its slot. -/
abbrev Save := PhysReg × Mem

/-- Slots for registers below a frame of some bytes. -/
def saveSlots (bytes : Nat) (regs : List PhysReg) : List Save :=
  regs.mapIdx fun k r ↦ (r, .frame (-(bytes + 8 * k : Nat)))

/-- Sets up the frame and saves the registers in it. -/
def prologue (frameBytes : Nat) (saves : List Save) : List Inst :=
  [{ mnemonic := "pushq", operands := [.phys .rbp] },
    .define "movq" [.phys .rsp, .phys .rbp],
    .update "subq" [.imm (BitVec.ofNat 64 frameBytes), .phys .rsp]] ++
  saves.map fun (r, slot) ↦ { mnemonic := "movq", operands := [.phys r, .mem slot] }

/-- Restores the registers, takes the frame down and returns. -/
def epilogue (saves : List Save) : List Inst :=
  (saves.reverse.map fun (r, slot) ↦ Inst.define "movq" [.mem slot, .phys r]) ++
  [.define "movq" [.phys .rbp, .phys .rsp],
    .define "popq" [.phys .rbp],
    { mnemonic := "ret", operands := [], kind := .ret }]

/-! ## Blocks -/

/-- What the layout of a function depends on. -/
structure Plan where
  allocation : Allocation
  blocks : List Block
  saves : List Save

/-- Copies that a conditional jump is sent to. -/
structure Stub where
  label : LabelId
  moves : List EdgeMove
  target : Operand

/-- The instructions of a piece of a function, and the stubs it needs. -/
abbrev Piece := List Inst × List Stub

def liftPlacing {α : Type} (x : Placing α) : Assembling α :=
  match x with
  | .ok r => pure r
  | .error e => throw e

/-- Carries out copies in parallel. -/
def copies (p : Plan) (moves : List EdgeMove) : Assembling (List Inst) := do
  let steps ← liftPlacing (EdgeMove.sequence p.allocation moves)
  let parked := steps.filterMap fun
    | .park location _ => some (Event.cycleBroken location)
    | .move _ => none
  modify (·.reportAll parked)
  return steps.flatMap (·.insts)

/-- An instruction without virtual registers. -/
def instruction (p : Plan) (i : Inst) : Assembling (List Inst) :=
  if i.kind = .ret then return epilogue p.saves else liftPlacing (Placement.inst p.allocation i)

def instructions (p : Plan) (is : List Inst) : Assembling (List Inst) :=
  return (← is.mapM (instruction p)).flatten

/-- The branches a block ends with. -/
def trailingBranches (b : Block) : List Inst := (b.insts.reverse.takeWhile (·.isBranch)).reverse

/-- What comes before the branches a block ends with. -/
def bodyInsts (b : Block) : List Inst := (b.insts.reverse.dropWhile (·.isBranch)).reverse

/-- The block that a branch names. -/
def targetBlock? (blocks : List Block) (i : Inst) : Option Nat :=
  match i.operands.head? with
  | some (.label id) => blocks.findIdx? (·.label == some id)
  | _ => none

/-- A branch of block `idx` with the copies of its edge; `next` is the label of the block behind. -/
def branch (p : Plan) (idx : Nat) (next : Option LabelId) (i : Inst) : Assembling Piece := do
  let moves ← match targetBlock? p.blocks i with
    | some succ => liftPlacing (EdgeMove.onEdge p.allocation p.blocks idx succ)
    | none => pure []
  match i.kind, i.operands.head?, moves with
  | .branch, some target, _ :: _ =>
    let label ← modifyGet (·.freshLabel)
    modify (·.report (.edgeCopies idx target label))
    return ([{ i with operands := [.label label] }], [⟨label, moves, target⟩])
  | _, _, _ =>
    let before ← copies p moves
    if i.kind = .jump && next.isSome && i.operands.head? = next.map .label then return (before, [])
    return (before ++ (← instruction p i), [])

/-- The copies of all edges out of a block that ends without a branch. -/
def fallThrough (p : Plan) (idx : Nat) (b : Block) : Assembling (List Inst) := do
  let parts ← b.succs.mapM fun succ ↦ do
    copies p (← liftPlacing (EdgeMove.onEdge p.allocation p.blocks idx succ))
  return parts.flatten

/-- The block at `idx`. -/
def block (p : Plan) (idx : Nat) (b : Block) : Assembling Piece := do
  let label := (b.label.map Inst.label).toList
  let next := (p.blocks[idx + 1]?).bind (·.label)
  let body ← instructions p (bodyInsts b)
  match trailingBranches b with
  | [] => return (label ++ body ++ (← fallThrough p idx b), [])
  | branches =>
    let pieces ← branches.mapM (branch p idx next)
    return (label ++ body ++ pieces.flatMap (·.1), pieces.flatMap (·.2))

/-- The code of a stub: its copies, and the jump to the branch's target. -/
def stub (p : Plan) (s : Stub) : Assembling (List Inst) := do
  let moves ← copies p s.moves
  return [.label s.label] ++ moves ++
    [{ mnemonic := "jmp", operands := [s.target], kind := .jump }]

/-! ## Functions -/

/-- Lays out a function whose frame, without saved registers, has `bytes` bytes. -/
def layout (name : String) (blocks : List Block) (bytes : Nat) (a : Allocation) :
    Assembling Assembly := do
  let saves := saveSlots bytes a.used.toList
  let frameBytes := bytes + 8 * saves.length
  let p : Plan := ⟨a, blocks, saves⟩
  let pieces ← blocks.zipIdx.mapM fun (b, idx) ↦ block p idx b
  let stubs ← (pieces.flatMap (·.2)).mapM (stub p)
  let insts := prologue frameBytes saves ++ pieces.flatMap (·.1) ++ stubs.flatten
  modify (·.report (.finished name insts.length frameBytes))
  return { name, insts, frameBytes, saved := saves.map (·.1) }

end Assembly

end TreeCover
