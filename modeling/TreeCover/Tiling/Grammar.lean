import TreeCover.Forest.Basic
import TreeCover.Tiling.Nonterminal

/-!
# The tiling grammar

A rule says that a tree of some shape, whose leaves are reduced to given nonterminals, can be
reduced to another nonterminal at a cost, and which action does it. A chain rule has a bare
nonterminal for its shape and reduces a tree further. A guard restricts a rule to some trees.

A computed node is a leaf in a register whatever it was built from.

The order of the rules breaks ties: of two that give the same cost, the earlier one is taken.
-/

namespace TreeCover

open Ir Machine

/-! ## Shapes -/

/-- The operator of a node as far as matching is concerned. -/
inductive Head where
  | inst (op : Opcode)
  | imm
  | arg
  | label
  | dummy
  | args
  | phiMove
  /-- A value that is in a register already. -/
  | inRegister
deriving DecidableEq, Repr

/-- The head of an owner node. A phi that is no alias has none. -/
def Node.head? (n : Node) : Option Head :=
  if n.computed then some .inRegister
  else match n.op with
    | .inst .phi => none
    | .inst op => some (.inst op)
    | .imm => some .imm
    | .arg _ => some .arg
    | .label => some .label
    | .dummy => some .dummy
    | .args => some .args
    | .phiDef => some .inRegister
    | .phiMove => some .phiMove

/-- A shape of trees. -/
inductive Pattern where
  /-- Any tree that reduces to the nonterminal. -/
  | nt (nt : Nonterminal)
  /-- A node with exactly these children. -/
  | op (head : Head) (kids : List Pattern)
  /-- A node all of whose children reduce to the nonterminal. -/
  | variadic (head : Head) (nt : Nonterminal)
deriving Inhabited, Repr

/-- The head a pattern needs at its root. -/
def Pattern.head? : Pattern → Option Head
  | nt _ => none
  | op h _ | variadic h _ => some h

/-! ## Guards -/

/-- A condition on the node a rule is tried at. -/
inductive Guard where
  /-- The first child is a constant of 32 bits. -/
  | firstImm32
  /-- The second child is a constant of 32 bits. -/
  | secondImm32
  /-- The second child is a constant below 64. -/
  | secondShift
  /-- The second child is a shift by a constant of at most 3. -/
  | secondScale
  /-- The node is 64 bits wide. -/
  | wide
deriving DecidableEq, Repr

/-- The constant value of a child. -/
def Forest.kidConst? (f : Forest) (id : NodeId) (idx : Nat) : Option Word :=
  ((f.node id).kids[idx]?).bind f.constValue?

/-- Whether a guard admits a node. -/
def Guard.holds (f : Forest) (id : NodeId) : Guard → Bool
  | firstImm32 => (f.kidConst? id 0).any fitsImm32
  | secondImm32 => (f.kidConst? id 1).any fitsImm32
  | secondShift => (f.kidConst? id 1).any (·.toNat < 64)
  | secondScale =>
    ((f.node id).kids[1]?).any fun k ↦ (f.kidConst? (f.owner k) 1).any (·.toNat ≤ 3)
  | wide => (f.node id).width = 64

/-! ## Actions -/

/-- What a rule does once its leaves are reduced. -/
inductive Action where
  | immediate
  | register
  | memory
  | label
  | nothing
  | loadImm
  | loadMem
  | lea
  | addrBase
  | discard
  | setCond
  | fold
  | frameSlot
  | addrDisp
  | addrIndex
  | memFromAddr
  | load
  | store
  | binary (mnemonic : String)
  | mulImm
  | divide (remainder : Bool)
  | shift (mnemonic : String)
  | shiftByReg (mnemonic : String)
  | compare
  | signExtend
  | zeroExtend
  | rename
  | jump
  | branchCond
  | branchTest
  | ret
  | arguments
  | call
  | phiInput
deriving DecidableEq, Repr

/-! ## Rules -/

/-- A rule of the grammar. -/
structure Rule where
  name : String
  lhs : Nonterminal
  pattern : Pattern
  cost : Nat
  guard : Option Guard := none
  action : Action
deriving Repr

namespace Rule

/-- Whether a rule reduces a tree further without looking at its shape. -/
def isChain (r : Rule) : Bool :=
  match r.pattern with
  | .nt _ => true
  | _ => false

/-- Whether a rule's guard admits a node. -/
def admits (r : Rule) (f : Forest) (id : NodeId) : Bool := r.guard.all (·.holds f id)

end Rule

namespace Grammar

open Pattern

/-- The pattern of a leaf. -/
def leaf (h : Head) : Pattern := op h []

/-- An instruction whose children reduce to the given nonterminals. -/
def inst (o : Opcode) (kids : List Nonterminal) : Pattern := op (.inst o) (kids.map nt)

/-- A binary operator whose operands reduce to the given nonterminals. -/
def bin (o : BinaryOp) (a b : Nonterminal) : Pattern := inst (.binary o) [a, b]

def leaves : List Rule :=
  [⟨"imm", .imm, leaf .imm, 0, none, .immediate⟩,
    ⟨"vreg", .reg, leaf .inRegister, 0, none, .register⟩,
    ⟨"arg", .mem, leaf .arg, 0, none, .memory⟩,
    ⟨"label", .label, leaf .label, 0, none, .label⟩,
    ⟨"dummy", .dummy, leaf .dummy, 0, none, .nothing⟩]

def chains : List Rule :=
  [⟨"reg_from_imm", .reg, nt .imm, 1, none, .loadImm⟩,
    ⟨"reg_from_mem", .reg, nt .mem, 1, none, .loadMem⟩,
    ⟨"reg_from_addr", .reg, nt .addr, 1, none, .lea⟩,
    ⟨"addr_from_reg", .addr, nt .reg, 0, none, .addrBase⟩,
    ⟨"stmt_from_reg", .stmt, nt .reg, 0, none, .discard⟩,
    ⟨"reg_from_cond", .reg, nt .cond, 2, none, .setCond⟩]

def constants : List Rule :=
  [⟨"fold_add", .imm, bin .add .imm .imm, 0, none, .fold⟩,
    ⟨"fold_sub", .imm, bin .sub .imm .imm, 0, none, .fold⟩,
    ⟨"fold_mul", .imm, bin .mul .imm .imm, 0, none, .fold⟩,
    ⟨"fold_and", .imm, bin .and .imm .imm, 0, none, .fold⟩,
    ⟨"fold_or", .imm, bin .or .imm .imm, 0, none, .fold⟩,
    ⟨"fold_xor", .imm, bin .xor .imm .imm, 0, none, .fold⟩,
    ⟨"fold_shl", .imm, bin .shl .imm .imm, 0, some .secondShift, .fold⟩]

def addresses : List Rule :=
  [⟨"addr_alloca", .addr, inst .alloca [], 0, none, .frameSlot⟩,
    ⟨"addr_disp", .addr, bin .add .addr .imm, 0, some .secondImm32, .addrDisp⟩,
    ⟨"addr_index", .addr, bin .add .reg .reg, 0, none, .addrIndex⟩,
    ⟨"addr_scaled_index", .addr,
      op (.inst (.binary .add)) [nt .reg, bin .shl .reg .imm], 0, some .secondScale, .addrIndex⟩,
    ⟨"mem_load", .mem, inst .load [.addr], 0, some .wide, .memFromAddr⟩]

def memory : List Rule :=
  [⟨"load", .reg, inst .load [.addr], 1, none, .load⟩,
    ⟨"store", .stmt, inst .store [.reg, .addr], 1, none, .store⟩,
    ⟨"store_imm", .stmt, inst .store [.imm, .addr], 1, some .firstImm32, .store⟩,
    ⟨"stmt_alloca", .stmt, inst .alloca [], 0, none, .frameSlot⟩]

def arithmetic : List Rule :=
  [⟨"add_mem", .reg, bin .add .reg .mem, 2, none, .binary "addq"⟩,
    ⟨"sub_reg", .reg, bin .sub .reg .reg, 2, none, .binary "subq"⟩,
    ⟨"sub_imm", .reg, bin .sub .reg .imm, 2, some .secondImm32, .binary "subq"⟩,
    ⟨"sub_mem", .reg, bin .sub .reg .mem, 2, none, .binary "subq"⟩,
    ⟨"and_reg", .reg, bin .and .reg .reg, 2, none, .binary "andq"⟩,
    ⟨"and_imm", .reg, bin .and .reg .imm, 2, some .secondImm32, .binary "andq"⟩,
    ⟨"and_mem", .reg, bin .and .reg .mem, 2, none, .binary "andq"⟩,
    ⟨"or_reg", .reg, bin .or .reg .reg, 2, none, .binary "orq"⟩,
    ⟨"or_imm", .reg, bin .or .reg .imm, 2, some .secondImm32, .binary "orq"⟩,
    ⟨"or_mem", .reg, bin .or .reg .mem, 2, none, .binary "orq"⟩,
    ⟨"xor_reg", .reg, bin .xor .reg .reg, 2, none, .binary "xorq"⟩,
    ⟨"xor_imm", .reg, bin .xor .reg .imm, 2, some .secondImm32, .binary "xorq"⟩,
    ⟨"xor_mem", .reg, bin .xor .reg .mem, 2, none, .binary "xorq"⟩,
    ⟨"mul_imm", .reg, bin .mul .reg .imm, 1, some .secondImm32, .mulImm⟩,
    ⟨"mul_reg", .reg, bin .mul .reg .reg, 2, none, .binary "imulq"⟩,
    ⟨"mul_mem", .reg, bin .mul .reg .mem, 2, none, .binary "imulq"⟩,
    ⟨"sdiv", .reg, bin .sdiv .reg .reg, 4, none, .divide false⟩,
    ⟨"srem", .reg, bin .srem .reg .reg, 4, none, .divide true⟩,
    ⟨"shl_imm", .reg, bin .shl .reg .imm, 2, some .secondShift, .shift "shlq"⟩,
    ⟨"lshr_imm", .reg, bin .lshr .reg .imm, 2, some .secondShift, .shift "shrq"⟩,
    ⟨"ashr_imm", .reg, bin .ashr .reg .imm, 2, some .secondShift, .shift "sarq"⟩,
    ⟨"shl_reg", .reg, bin .shl .reg .reg, 3, none, .shiftByReg "shlq"⟩,
    ⟨"lshr_reg", .reg, bin .lshr .reg .reg, 3, none, .shiftByReg "shrq"⟩,
    ⟨"ashr_reg", .reg, bin .ashr .reg .reg, 3, none, .shiftByReg "sarq"⟩]

def comparisons : List Rule :=
  [⟨"cmp_reg", .cond, inst .icmp [.reg, .reg], 1, none, .compare⟩,
    ⟨"cmp_imm", .cond, inst .icmp [.reg, .imm], 1, some .secondImm32, .compare⟩,
    ⟨"cmp_mem", .cond, inst .icmp [.reg, .mem], 1, none, .compare⟩]

def casts : List Rule :=
  [⟨"sext", .reg, inst (.cast .sext) [.reg], 1, none, .signExtend⟩,
    ⟨"zext", .reg, inst (.cast .zext) [.reg], 1, none, .zeroExtend⟩,
    ⟨"trunc", .reg, inst (.cast .trunc) [.reg], 0, none, .rename⟩]

def control : List Rule :=
  [⟨"jump", .stmt, inst .br [.label, .dummy, .dummy], 1, none, .jump⟩,
    ⟨"branch_cond", .stmt, inst .br [.cond, .label, .label], 2, none, .branchCond⟩,
    ⟨"branch_reg", .stmt, inst .br [.reg, .label, .label], 3, none, .branchTest⟩,
    ⟨"ret_imm", .stmt, inst .ret [.imm], 1, none, .ret⟩,
    ⟨"ret_reg", .stmt, inst .ret [.reg], 1, none, .ret⟩,
    ⟨"ret_void", .stmt, inst .ret [], 0, none, .ret⟩]

def calls : List Rule :=
  [⟨"args", .args, variadic .args .reg, 0, none, .arguments⟩,
    ⟨"call", .reg, inst .call [.args], 3, none, .call⟩,
    ⟨"call_void", .stmt, inst .call [.args], 2, none, .call⟩]

def phiInputs : List Rule :=
  [⟨"phi_imm", .stmt, op .phiMove [nt .imm], 1, none, .phiInput⟩,
    ⟨"phi_reg", .stmt, op .phiMove [nt .reg], 1, none, .phiInput⟩,
    ⟨"phi_mem", .stmt, op .phiMove [nt .mem], 1, none, .phiInput⟩]

/-- All rules in the order that breaks ties. -/
def rules : List Rule :=
  leaves ++ chains ++ constants ++ addresses ++ memory ++ arithmetic ++ comparisons ++ casts ++
    control ++ calls ++ phiInputs

/-- The rules that may match a node with a given head at their root. -/
def rulesFor (h : Head) : List Rule := rules.filter (·.pattern.head? = some h)

/-- The rules that reduce a tree further. -/
def chainRules : List Rule := rules.filter (·.isChain)

def rule? (name : String) : Option Rule := rules.find? (·.name == name)

end Grammar

/-! ## Text for inspection -/

def Ir.BinaryOp.tagged : BinaryOp → String
  | add => "Add" | sub => "Sub" | mul => "Mul" | sdiv => "SDiv" | srem => "SRem"
  | and => "And" | or => "Or" | xor => "Xor" | shl => "Shl" | lshr => "LShr" | ashr => "AShr"
  | fadd => "FAdd" | fsub => "FSub" | fmul => "FMul"

def Ir.Opcode.tagged : Opcode → String
  | binary op => op.tagged
  | cast .sext => "SExt" | cast .zext => "ZExt" | cast .trunc => "Trunc"
  | icmp => "ICmp" | alloca => "Alloca" | load => "Load" | store => "Store"
  | br => "Br" | ret => "Ret" | call => "Call" | phi => "Phi"

def Head.tagged : Head → String
  | inst op => "Inst(" ++ op.tagged ++ ")"
  | imm => "Imm"
  | arg => "Arg"
  | label => "Label"
  | dummy => "Dummy"
  | args => "ArgList"
  | phiMove => "PhiMove"
  | inRegister => "VRegLeaf"

def Pattern.tagged : Pattern → String
  | nt n => "Nt(" ++ n.tagged ++ ")"
  | op h kids => "Op(" ++ h.tagged ++ ", [" ++ ", ".intercalate (kids.map tagged) ++ "])"
  | variadic h n => "Variadic(" ++ h.tagged ++ ", " ++ n.tagged ++ ")"

def Action.tagged : Action → String
  | immediate => "Immediate"
  | register => "Register"
  | memory => "Memory"
  | label => "Label"
  | nothing => "Nothing"
  | loadImm => "LoadImm"
  | loadMem => "LoadMem"
  | lea => "Lea"
  | addrBase => "AddrBase"
  | discard => "Discard"
  | setCond => "SetCond"
  | fold => "Fold"
  | frameSlot => "Local"
  | addrDisp => "AddrDisp"
  | addrIndex => "AddrIndex"
  | memFromAddr => "MemFromAddr"
  | load => "Load"
  | store => "Store"
  | binary m => "Binary(\"" ++ m ++ "\")"
  | mulImm => "MulImm"
  | divide remainder => "Divide \x7b remainder: " ++ toString remainder ++ " \x7d"
  | shift m => "Shift(\"" ++ m ++ "\")"
  | shiftByReg m => "ShiftByReg(\"" ++ m ++ "\")"
  | compare => "Compare"
  | signExtend => "SignExtend"
  | zeroExtend => "ZeroExtend"
  | rename => "Rename"
  | jump => "Jump"
  | branchCond => "BranchCond"
  | branchTest => "BranchTest"
  | ret => "Return"
  | arguments => "Arguments"
  | call => "Call"
  | phiInput => "PhiInput"

end TreeCover
