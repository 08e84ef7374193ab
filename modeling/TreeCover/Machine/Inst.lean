import TreeCover.Ir.Operation
import TreeCover.Machine.Register

/-!
# Machine instructions

Instructions in the order of the AT&T assembler: sources first, the destination last. Selection
names virtual registers, and a finished function only physical ones; both are instructions of the
same type.

What an instruction does with its last operand is its `Effect`, from which the registers it writes
and reads follow: `Inst.defs` and `Inst.uses`.
-/

namespace TreeCover

/-- A 64-bit machine word. -/
abbrev Word := BitVec 64

namespace Machine

/-- A label, numbered within a session. -/
abbrev LabelId := Nat

/-! ## Operands -/

/-- The address `disp(base, index, scale)`. -/
structure Mem where
  base : Reg
  disp : Int
  index : Option (Reg × Nat)
deriving DecidableEq, Repr

namespace Mem

def based (base : Reg) (disp : Int) : Mem := ⟨base, disp, none⟩

/-- A slot of the frame. -/
def frame (disp : Int) : Mem := based (.phys .rbp) disp

/-- The registers of an address, base first. -/
def regs (m : Mem) : List Reg := m.base :: (m.index.map (·.1)).toList

/-- A zero displacement is left out. -/
def text (m : Mem) : String :=
  (if m.disp = 0 then "" else toString m.disp) ++ "(" ++ m.base.text 8 ++
    (match m.index with
      | some (r, scale) => "," ++ r.text 8 ++ "," ++ toString scale
      | none => "") ++ ")"

end Mem

/-- An operand of a machine instruction. -/
inductive Operand where
  | imm (value : Word)
  /-- A register accessed with `width` bytes. -/
  | reg (r : Reg) (width : Nat)
  | mem (m : Mem)
  | label (id : LabelId)
  | symbol (name : String)
deriving DecidableEq, Repr

namespace Operand

/-- A whole virtual register. -/
def vreg (v : VReg) : Operand := reg (.virt v) 8

/-- A whole physical register. -/
def phys (r : PhysReg) : Operand := reg (.phys r) 8

def isMem : Operand → Bool
  | mem _ => true
  | _ => false

def isReg : Operand → Bool
  | reg .. => true
  | _ => false

/-- The virtual registers an operand mentions, as a register or inside an address. -/
def vregs : Operand → List VReg
  | reg r _ => r.virt?.toList
  | mem m => m.regs.filterMap Reg.virt?
  | _ => []

end Operand

/-- The text of a label. -/
def LabelId.text (id : LabelId) : String := ".L" ++ toString id

def Operand.text : Operand → String
  | imm value => "$" ++ toString value.toInt
  | reg r width => r.text width
  | mem m => m.text
  | label id => LabelId.text id
  | symbol name => name

/-! ## Instructions -/

/-- What an instruction does with its last operand. -/
inductive Effect where
  /-- The last operand is only read. -/
  | none
  /-- It is written without being read. -/
  | define
  /-- It is read, then written. -/
  | update
deriving DecidableEq, Inhabited, Repr

/-- The role of an instruction in the flow of control. -/
inductive Kind where
  | plain
  | jump
  | branch
  | call
  /-- Stands for the epilogue until the function is finished. -/
  | ret
  | label (id : LabelId)
deriving DecidableEq, Inhabited, Repr

/-- A machine instruction. -/
structure Inst where
  mnemonic : String
  operands : List Operand
  effect : Effect := .none
  kind : Kind := .plain
  /-- Whether the destination cannot be in memory. -/
  needsRegDst : Bool := false
deriving DecidableEq, Repr

namespace Inst

/-- An instruction that writes its last operand. -/
def define (mnemonic : String) (operands : List Operand) : Inst :=
  { mnemonic, operands, effect := .define }

/-- An instruction that reads and writes its last operand. -/
def update (mnemonic : String) (operands : List Operand) : Inst :=
  { mnemonic, operands, effect := .update }

/-- The definition of a label. -/
def label (id : LabelId) : Inst := { mnemonic := "", operands := [], kind := .label id }

def isBranch (i : Inst) : Bool := i.kind = .jump ∨ i.kind = .branch

/-- The destination, if the instruction writes one. -/
def dst? (i : Inst) : Option Operand :=
  if i.effect = .none then none else i.operands.getLast?

/-- The virtual registers an instruction writes. -/
def defs (i : Inst) : List VReg :=
  match i.dst? with
  | some (.reg (.virt v) _) => [v]
  | _ => []

/-- The operands an instruction reads: all but a register that it only writes. -/
def readOperands (i : Inst) : List Operand :=
  if i.effect = .define ∧ i.operands.getLast?.any Operand.isReg then i.operands.dropLast
  else i.operands

/-- The virtual registers an instruction reads, those of addresses included. -/
def uses (i : Inst) : List VReg := i.readOperands.flatMap (·.vregs)

def text (i : Inst) : String :=
  match i.kind with
  | .label id => LabelId.text id ++ ":"
  | _ =>
    "\t" ++ i.mnemonic ++
      if i.operands.isEmpty then "" else "\t" ++ ", ".intercalate (i.operands.map (·.text))

end Inst

/-! ## Moves -/

/-- An instruction whose destination must be a register. -/
def Inst.intoReg (i : Inst) : Inst := { i with needsRegDst := true }

/-- The move of some bytes. -/
def moveMnemonic (bytes : Nat) : String :=
  match bytes with
  | 1 => "movb"
  | 2 => "movw"
  | 4 => "movl"
  | _ => "movq"

/-- Whether a word is the sign extension of its low 32 bits. -/
def fitsImm32 (w : Word) : Bool := fitsSigned 32 w.toInt

/-- Moves a constant; one that does not fit 32 bits needs the long form, into a register. -/
def loadConstant (value : Word) (dst : Operand) : Inst :=
  if fitsImm32 value then .define "movq" [.imm value, dst]
  else .intoReg (.define "movabsq" [.imm value, dst])

/-- Moves into a whole virtual register. -/
def moveTo (dst : VReg) (src : Operand) : Inst := .define "movq" [src, .vreg dst]

/-! ## Conditions -/

end Machine

/-- The condition code of a comparison. -/
def Ir.Predicate.conditionCode : Ir.Predicate → String
  | eq => "e" | ne => "ne" | slt => "l" | sle => "le" | sgt => "g" | sge => "ge"
  | ult => "b" | ule => "be" | ugt => "a" | uge => "ae"

namespace Machine

/-- The instruction that stores a condition as a byte. -/
def setMnemonic (p : Ir.Predicate) : String := "set" ++ p.conditionCode

/-- The jump taken on a condition. -/
def jumpMnemonic (p : Ir.Predicate) : String := "j" ++ p.conditionCode

end Machine

end TreeCover
