import TreeCover.Machine.Inst

/-!
# What a tree can be reduced to

A nonterminal is a category of results, and a `Bound` is a result: what the consumer of a reduced
tree gets to use.
-/

namespace TreeCover

open Machine

/-- The categories of the grammar, in the order in which costs are listed. -/
inductive Nonterminal where
  /-- Done, with no value. -/
  | stmt
  /-- A value in a register. -/
  | reg
  /-- A constant. -/
  | imm
  /-- A value in memory. -/
  | mem
  /-- An address. -/
  | addr
  /-- A condition in the flags. -/
  | cond
  /-- A branch target. -/
  | label
  /-- Nothing at all. -/
  | dummy
  /-- The arguments of a call. -/
  | args
deriving DecidableEq, Inhabited, Repr

namespace Nonterminal

def all : List Nonterminal := [stmt, reg, imm, mem, addr, cond, label, dummy, args]

def tagged : Nonterminal → String
  | stmt => "Stmt"
  | reg => "Reg"
  | imm => "Imm"
  | mem => "Mem"
  | addr => "Addr"
  | cond => "Cond"
  | label => "Label"
  | dummy => "Dummy"
  | args => "Args"

theorem mem_all (nt : Nonterminal) : nt ∈ all := by cases nt <;> decide

end Nonterminal

/-- What a reduced tree stands for. -/
inductive Bound where
  | none
  | reg (v : VReg)
  | imm (value : Word)
  | mem (m : Mem)
  | addr (m : Mem)
  | cond (p : Ir.Predicate)
  | label (id : LabelId)
  | args (values : List Bound)
deriving Inhabited, Repr

/-! ## Text for messages -/

def Machine.Reg.tagged : Reg → String
  | virt v => "Virt(VReg(" ++ toString v ++ "))"
  | phys r => "Phys(PhysReg(" ++ toString r.encoding ++ "))"

def Machine.Mem.tagged (m : Mem) : String :=
  let index := match m.index with
    | some (r, scale) => "Some((" ++ r.tagged ++ ", " ++ toString scale ++ "))"
    | none => "None"
  "MemOperand \x7b base: " ++ m.base.tagged ++ ", disp: " ++ toString m.disp ++ ", index: " ++ index
    ++ " \x7d"

def Ir.Predicate.tagged : Ir.Predicate → String
  | eq => "Eq" | ne => "Ne" | slt => "Slt" | sle => "Sle" | sgt => "Sgt" | sge => "Sge"
  | ult => "Ult" | ule => "Ule" | ugt => "Ugt" | uge => "Uge"

/-- A result as it is shown in messages: its category around its content. -/
def Bound.tagged : Bound → String
  | none => "None"
  | reg v => "Reg(VReg(" ++ toString v ++ "))"
  | imm value => "Imm(" ++ toString value.toInt ++ ")"
  | mem m => "Mem(" ++ m.tagged ++ ")"
  | addr m => "Addr(" ++ m.tagged ++ ")"
  | cond p => "Cond(" ++ p.tagged ++ ")"
  | label id => "Label(" ++ toString id ++ ")"
  | args values => "Args([" ++ ", ".intercalate (values.map tagged) ++ "])"

end TreeCover
