import TreeCover.Workspace

/-!
# Building the forest

Arguments, phi registers and labels get their nodes first; then each block in turn becomes a list
of trees, one per instruction, and before its terminator one copy per phi of each successor. An
operand is resolved to the node of the value it names, and a literal to a new leaf.

A memory-reading tree that is still pending when a store or call is built gets a write logged, so
that a use after that point can be seen to come too late for it.
-/

namespace TreeCover

open Ir Machine

/-! ## Values that leave their block -/

/-- Whether an operand is the result of `id`. -/
def Ir.Operand.isResult (id : InstId) : Ir.Operand Value → Bool
  | .value (.inst k) => k == id
  | _ => false

/-- Whether an instruction of block `b` uses the result of `id` outside the block `home`. A phi
uses its operands at the end of the predecessors they come from. -/
def usesOutside (id : InstId) (home : Option BlockId) (b : BlockId) (i : ResolvedInst) : Bool :=
  match i.operation with
  | .phi incoming => incoming.any fun (v, pred) ↦ v.isResult id && home ≠ some pred
  | op => op.places.any fun
    | .operand o => o.isResult id && home ≠ some b
    | .block _ => false

/-- Whether the result of an instruction is used outside its block. -/
def Ir.Func.escapes (f : Func) (id : InstId) : Bool :=
  let home := f.blockOf? id
  f.blocks.zipIdx.any fun (block, b) ↦ block.insts.any (usesOutside id home b)

/-! ## Literals -/

/-- Narrows an integer literal to a machine width. What does not fit the signed range is cut to
its low bits and counts as unsigned. -/
def castInt (n : Int) (bits : Nat) : Except CompileError Constant :=
  if bits ∉ [8, 16, 32, 64] then throw (.constantWidth bits)
  else if fitsSigned bits n then return .int (BitVec.ofInt 64 n) true bits
  else return .int ((BitVec.ofInt bits n).setWidth 64) false bits

/-! ## Nodes made in advance -/

/-- Distance of the first argument from the frame pointer. -/
def argumentBase : Int := 16

/-- The frame slot a caller puts an argument into. -/
def argumentSlot (idx : Nat) : Mem := .frame (argumentBase + 8 * idx)

namespace Work

/-- Lets a value stand for a node. -/
def defineValue (v : Value) (id : NodeId) : Work Unit :=
  modifyDefs fun d ↦ { d with values := (v, id) :: d.values }

/-- Gives every argument its node. -/
def defineArguments (f : Func) : Work Unit :=
  f.params.zipIdx.forM fun (p, idx) ↦ do
    let id ← push
      { op := .arg idx, width := p.ty.bits, slot := .mem (argumentSlot idx)
        roles := { memory := true, pointer := p.ty = .ptr } }
    defineValue (.arg idx) id

/-- Gives every phi a register and a node for it. -/
def declarePhis (f : Func) : Work Unit :=
  (List.range f.blocks.length).forM fun b ↦ (f.blockPhis b).forM fun (phi, inst) ↦ do
    let v ← freshVReg
    modifyCode (·.declarePhi b v)
    let id ← push
      { op := .phiDef, width := inst.ty.bits, slot := .vreg v, computed := true
        roles := { register := true, phi := true }, source := some phi, block := some b }
    modifyDefs fun d ↦ { d with phis := (phi, id) :: d.phis }

/-- Gives every block that is named anywhere its label. -/
def createLabels (f : Func) : Work Unit :=
  f.insts.forM fun i ↦ i.operation.blocks.forM fun b ↦ discard (labelOf b)

/-! ## Operands -/

/-- A new leaf for a constant, with its first reference. -/
def constantLeaf (c : Constant) (width : Nat) : Work NodeId := do
  let id ← modifyGet fun w ↦
    let (id, forest) := w.forest.addConstant c width
    (id, { w with forest })
  modifyForest (·.takeRef id)
  return id

/-- The node of operand number `idx` of an instruction, with a new reference. A literal double
may stand where the result of the instruction is no integer, and in a store. -/
def operand (id : InstId) (i : ResolvedInst) (idx : Nat) : Ir.Operand Value → Work NodeId
  | .int n bits =>
    match castInt n bits with
    | .ok c => constantLeaf c bits
    | .error e => throw e
  | .float x =>
    match i.ty with
    | .int _ =>
      if i.opcode = .store then constantLeaf (.float x) 64 else throw (.floatLiteral x i.opcode)
    | _ => constantLeaf (.float x) 64
  | .value v => do
    match (← get).defs.values.lookup v with
    | some k =>
      modifyForest fun f ↦ (f.takeRef k).logAccess .read k
      return k
    | none => throw (.unresolvedOperand id i.opcode idx .usedBeforeDefinition)

/-- The node of an operand position. -/
def place (id : InstId) (i : ResolvedInst) (idx : Nat) : Place Value BlockId → Work NodeId
  | .operand o => operand id i idx o
  | .block b => do
    let k ← labelOf b
    modifyForest (·.takeRef k)
    return k

def addChildren (parent : NodeId) (kids : List NodeId) : Work Unit :=
  kids.forM fun k ↦ modifyForest (·.addChild parent k)

/-- A new child with a reference of its own. -/
def addOwnChild (parent : NodeId) (n : Node) : Work NodeId := do
  let k ← push n
  modifyForest fun f ↦ (f.addChild parent k).takeRef k
  return k

/-! ## Instructions -/

/-- The node of an instruction that is no phi. -/
def buildInst (f : Func) (b : BlockId) (id : InstId) (i : ResolvedInst) : Work NodeId := do
  let kids ← i.operation.places.zipIdx.mapM fun (p, idx) ↦ place id i idx p
  let isAlloca := i.opcode = .alloca
  let n ← push
    { op := .inst i.opcode
      width := if isAlloca then 64 else i.ty.bits
      source := some id
      block := some b
      predicate := i.operation.predicate?
      callee := i.operation.callee?
      roles := { pointer := isAlloca ∨ i.ty = .ptr }
      allocBytes := if isAlloca then i.ty.bytes else 0 }
  match i.operation with
  | .call .. =>
    let list ← push { op := .args, width := 0 }
    addChildren list kids
    modifyForest fun f ↦ (f.addChild n list).takeRef list
  | .br _ =>
    addChildren n kids
    discard <| addOwnChild n { op := .dummy, width := 0 }
    discard <| addOwnChild n { op := .dummy, width := 0 }
  | _ => addChildren n kids
  if i.opcode = .load then modifyForest (·.logAccess .read n)
  if f.escapes id then modifyForest (·.markEscaping n)
  return n

/-- The alias that stands for a phi in its block. -/
def buildPhi (b : BlockId) (id : InstId) (i : ResolvedInst) : Work NodeId := do
  push
    { op := .inst .phi, width := i.ty.bits, target := (← get).defs.phis.lookup id
      roles := { phi := true }, source := some id, block := some b }

/-- The copy into one phi on the edge from block `b`, if the phi has a register. -/
def buildPhiMove (f : Func) (b succ : BlockId) (phi : InstId) (i : ResolvedInst) :
    Work (Option NodeId) := do
  match i.operation.incoming.zipIdx.find? (·.1.2 == b) with
  | none =>
    let name := (f.blocks[b]?.map (·.name)).getD ""
    throw (.unresolvedOperand phi i.opcode 0 (.noIncoming name))
  | some ((value, _), idx) =>
    match (← get).defs.phis.lookup phi with
    | none => return none
    | some owner =>
      let kid ← operand phi i (idx * 2) value
      let n ← push
        { op := .phiMove, width := i.ty.bits, phiTarget := some (owner, succ), block := some b
          source := some phi }
      modifyForest (·.addChild n kid)
      return some n

/-- The copies into the phis of all successors. -/
def buildPhiMoves (f : Func) (b : BlockId) : Work (List NodeId) := do
  let edges := ((f.blocks[b]?.map (·.succs)).getD []).flatMap fun succ ↦
    (f.blockPhis succ).map fun phi ↦ (succ, phi)
  let moves ← edges.mapM fun (succ, phi, i) ↦ buildPhiMove f b succ phi i
  return moves.filterMap id

/-- Logs a write for every tree that reads memory. -/
def guardReads (roots : List NodeId) : Work Unit :=
  roots.forM fun r ↦ modifyForest fun f ↦ if f.readsMemory r then f.logAccess .write r else f

/-- Builds one instruction and gives the roots of its block so far. -/
def buildStep (f : Func) (b : BlockId) (roots : List NodeId) (id : InstId) (i : ResolvedInst) :
    Work (List NodeId) := do
  if i.operation.isPhi then
    let n ← buildPhi b id i
    defineValue (.inst id) n
    return roots ++ [n]
  let moves ← if i.opcode.isTerminator then buildPhiMoves f b else pure []
  let n ← buildInst f b id i
  if i.opcode.writesMemory then guardReads roots
  defineValue (.inst id) n
  return roots ++ moves ++ [n]

/-- The trees of a block in order. -/
def buildBlock (f : Func) (b : BlockId) : Work (List NodeId) := do
  let roots ← (f.blockInsts b).foldlM (fun roots (id, i) ↦ buildStep f b roots id i) []
  report (.built f.name ((f.blocks[b]?.map (·.name)).getD "") roots.length)
  return roots

end Work

end TreeCover
