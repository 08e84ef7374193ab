import TreeCover.Ir.Operation

/-!
# Functions

A function is a list of blocks and a block a list of instructions. Instructions are numbered
through the whole function in layout order, and a value is an instruction's number or an
argument's; blocks are numbered by their position. The entry is block `0`.
-/

namespace TreeCover.Ir

/-- Position of a block in its function. -/
abbrev BlockId := Nat

/-- Position of an instruction in its function, counted through all blocks. -/
abbrev InstId := Nat

/-- A value defined inside a function. -/
inductive Value where
  | inst (id : InstId)
  | arg (idx : Nat)
deriving DecidableEq, Inhabited, Repr

/-- An instruction. The type is that of the result, except that a store has the stored type and an
alloca the type it makes room for. -/
structure Inst (ν β : Type) where
  name : Option String
  ty : Ty
  operation : Operation ν β
deriving DecidableEq, Repr

abbrev Inst.opcode {ν β : Type} (i : Inst ν β) : Opcode := i.operation.opcode

/-- An instruction whose references are resolved. -/
abbrev ResolvedInst := Inst Value BlockId

/-- A block: instructions of which the last is a terminator. -/
structure Block where
  name : String
  insts : List ResolvedInst
deriving DecidableEq, Repr

/-- A parameter of a function. -/
structure Param where
  name : String
  ty : Ty
deriving DecidableEq, Repr

/-- A function whose references are resolved. -/
structure Func where
  name : String
  ret : Ty
  params : List Param
  blocks : List Block
deriving DecidableEq, Repr

namespace Block

/-- The phis a block opens with. -/
def phis (b : Block) : List ResolvedInst := b.insts.takeWhile (·.operation.isPhi)

/-- The blocks a block's last instruction may branch to, each once, in operand order. -/
def succs (b : Block) : List BlockId :=
  match b.insts.getLast? with
  | some i => if i.opcode = .br then i.operation.blocks.eraseDups else []
  | none => []

end Block

namespace Func

/-- All instructions, in the order of their numbers. -/
def insts (f : Func) : List ResolvedInst := f.blocks.flatMap (·.insts)

def inst? (f : Func) (id : InstId) : Option ResolvedInst := f.insts[id]?

/-- The number of the first instruction of a block. -/
def firstInst (f : Func) (b : BlockId) : InstId := ((f.blocks.take b).flatMap (·.insts)).length

/-- The instructions of a block with their numbers. -/
def blockInsts (f : Func) (b : BlockId) : List (InstId × ResolvedInst) :=
  match f.blocks[b]? with
  | some block => block.insts.mapIdx fun k i ↦ (f.firstInst b + k, i)
  | none => []

/-- The phis of a block with their numbers. -/
def blockPhis (f : Func) (b : BlockId) : List (InstId × ResolvedInst) :=
  match f.blocks[b]? with
  | some block => block.phis.mapIdx fun k i ↦ (f.firstInst b + k, i)
  | none => []

/-- The block that holds an instruction, among blocks of which the first has number `b` and
starts with instruction `0`. -/
def blockOfFrom? (b : BlockId) : List Block → InstId → Option BlockId
  | [], _ => none
  | block :: blocks, id =>
    let n := block.insts.length
    if id < n then some b else blockOfFrom? (b + 1) blocks (id - n)

/-- The block that holds an instruction. -/
def blockOf? (f : Func) (id : InstId) : Option BlockId := blockOfFrom? 0 f.blocks id

def findInst? (f : Func) (name : String) : Option InstId := f.insts.findIdx? (·.name == some name)

def findBlock? (f : Func) (name : String) : Option BlockId := f.blocks.findIdx? (·.name == name)

/-- The successors of every block. -/
def succs (f : Func) : List (List BlockId) := f.blocks.map (·.succs)

theorem firstInst_zero (f : Func) : f.firstInst 0 = 0 := rfl

/-- A block's instructions end where those of the next block begin. -/
theorem firstInst_succ (f : Func) {b : BlockId} (h : b < f.blocks.length) :
    f.firstInst (b + 1) = f.firstInst b + f.blocks[b].insts.length := by
  rw [firstInst, List.take_add_one, List.getElem?_eq_getElem h, List.flatMap_append,
    List.length_append, firstInst]
  simp

/-- The blocks account for every instruction. -/
theorem firstInst_length (f : Func) : f.firstInst f.blocks.length = f.insts.length := by
  rw [firstInst, List.take_length, insts]

end Func

end TreeCover.Ir
