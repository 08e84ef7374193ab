import TreeCover.Number.Binary64

/-!
# Operations of the intermediate language

What an instruction does, apart from its name and its place in a function. An `Operation` is
generic in how it refers to values and to blocks: by name as written, by number once resolved.
`Operation.resolve` changes one kind of reference into another, left to right.

Opcodes forget the operands. They are what the trees of the code generator are labeled with.
-/

namespace TreeCover.Ir

/-! ## Types -/

/-- The types of values. -/
inductive Ty where
  | void
  | int (bits : Nat)
  | ptr
  | double
deriving DecidableEq, Inhabited, Repr

namespace Ty

/-- Width in bits; pointers and doubles take a machine word. -/
def bits : Ty → Nat
  | void => 0
  | int n => n
  | ptr | double => 64

/-- Storage in whole bytes. -/
def bytes (t : Ty) : Nat := (t.bits + 7) / 8

def text : Ty → String
  | void => "void"
  | int n => "i" ++ toString n
  | ptr => "ptr"
  | double => "double"

end Ty

/-! ## Opcodes -/

/-- Operators on two operands of one type. -/
inductive BinaryOp where
  | add | sub | mul | sdiv | srem | and | or | xor | shl | lshr | ashr | fadd | fsub | fmul
deriving DecidableEq, Inhabited, Repr

def BinaryOp.all : List BinaryOp :=
  [.add, .sub, .mul, .sdiv, .srem, .and, .or, .xor, .shl, .lshr, .ashr, .fadd, .fsub, .fmul]

def BinaryOp.text : BinaryOp → String
  | add => "add" | sub => "sub" | mul => "mul" | sdiv => "sdiv" | srem => "srem"
  | and => "and" | or => "or" | xor => "xor" | shl => "shl" | lshr => "lshr" | ashr => "ashr"
  | fadd => "fadd" | fsub => "fsub" | fmul => "fmul"

/-- Changes of integer width. -/
inductive CastOp where
  | sext | zext | trunc
deriving DecidableEq, Inhabited, Repr

def CastOp.all : List CastOp := [.sext, .zext, .trunc]

def CastOp.text : CastOp → String
  | sext => "sext" | zext => "zext" | trunc => "trunc"

/-- The operator of an operation without its operands. -/
inductive Opcode where
  | binary (op : BinaryOp)
  | cast (op : CastOp)
  | icmp | alloca | load | store | br | ret | call | phi
deriving DecidableEq, Inhabited, Repr

namespace Opcode

def all : List Opcode :=
  BinaryOp.all.map binary ++ [icmp, alloca, load, store, br, ret, call, phi] ++ CastOp.all.map cast

def text : Opcode → String
  | binary op => op.text
  | cast op => op.text
  | icmp => "icmp" | alloca => "alloca" | load => "load" | store => "store"
  | br => "br" | ret => "ret" | call => "call" | phi => "phi"

def isTerminator : Opcode → Bool
  | br | ret => true
  | _ => false

/-- Whether an instruction with this opcode has a result. -/
def isDefinition : Opcode → Bool
  | store | br | ret => false
  | _ => true

def readsMemory : Opcode → Bool
  | load | call => true
  | _ => false

def writesMemory : Opcode → Bool
  | store | call => true
  | _ => false

theorem mem_all (op : Opcode) : op ∈ all := by
  cases op with
  | binary b => cases b <;> decide
  | cast c => cases c <;> decide
  | _ => decide

end Opcode

def BinaryOp.ofText? (s : String) : Option BinaryOp := all.find? (·.text == s)

def CastOp.ofText? (s : String) : Option CastOp := all.find? (·.text == s)

def Opcode.ofText? (s : String) : Option Opcode := all.find? (·.text == s)

/-! ## Comparison predicates -/

/-- Signed and unsigned comparisons of integers. -/
inductive Predicate where
  | eq | ne | slt | sle | sgt | sge | ult | ule | ugt | uge
deriving DecidableEq, Inhabited, Repr

def Predicate.all : List Predicate := [.eq, .ne, .slt, .sle, .sgt, .sge, .ult, .ule, .ugt, .uge]

def Predicate.text : Predicate → String
  | eq => "eq" | ne => "ne" | slt => "slt" | sle => "sle" | sgt => "sgt" | sge => "sge"
  | ult => "ult" | ule => "ule" | ugt => "ugt" | uge => "uge"

def Predicate.ofText? (s : String) : Option Predicate := all.find? (·.text == s)

/-! ## Operands and operations -/

/-- A value operand; an integer literal carries the width of the type written before it. -/
inductive Operand (ν : Type) where
  | int (value : Int) (bits : Nat)
  | float (value : Binary64)
  | value (ref : ν)
deriving DecidableEq, Repr

/-- One operand position of an operation. -/
inductive Place (ν β : Type) where
  | operand (o : Operand ν)
  | block (b : β)
deriving DecidableEq, Repr

/-- What an instruction does, with references of type `ν` to values and `β` to blocks. -/
inductive Operation (ν β : Type) where
  | binary (op : BinaryOp) (lhs rhs : Operand ν)
  | cast (op : CastOp) (operand : Operand ν)
  | icmp (predicate : Predicate) (lhs rhs : Operand ν)
  | alloca
  | load (address : Operand ν)
  | store (stored address : Operand ν)
  | br (target : β)
  | condBr (condition : Operand ν) (onTrue onFalse : β)
  | ret (result : Option (Operand ν))
  | call (callee : String) (args : List (Operand ν))
  | phi (incoming : List (Operand ν × β))
deriving DecidableEq, Repr

namespace Operand

/-- Replaces the value reference, if there is one. -/
def resolve {m : Type → Type} [Monad m] {ν ν' : Type} (f : ν → m ν') : Operand ν → m (Operand ν')
  | int n bits => pure (int n bits)
  | float x => pure (float x)
  | value v => return value (← f v)

end Operand

namespace Operation

variable {ν ν' β β' : Type}

def opcode : Operation ν β → Opcode
  | binary op _ _ => .binary op
  | cast op _ => .cast op
  | icmp .. => .icmp
  | alloca => .alloca
  | load _ => .load
  | store .. => .store
  | br _ | condBr .. => .br
  | ret _ => .ret
  | call .. => .call
  | phi _ => .phi

/-- The operand positions in order; those of a phi alternate value and block. -/
def places : Operation ν β → List (Place ν β)
  | binary _ a b | icmp _ a b | store a b => [.operand a, .operand b]
  | cast _ a | load a => [.operand a]
  | alloca => []
  | br t => [.block t]
  | condBr c t f => [.operand c, .block t, .block f]
  | ret v => v.toList.map .operand
  | call _ args => args.map .operand
  | phi incoming => incoming.flatMap fun (v, b) ↦ [.operand v, .block b]

/-- The blocks named, in order and with repetition. -/
def blocks (op : Operation ν β) : List β :=
  op.places.filterMap fun
    | .block b => some b
    | .operand _ => none

def predicate? : Operation ν β → Option Predicate
  | icmp p _ _ => some p
  | _ => none

def callee? : Operation ν β → Option String
  | call f _ => some f
  | _ => none

def incoming : Operation ν β → List (Operand ν × β)
  | phi pairs => pairs
  | _ => []

def isPhi : Operation ν β → Bool
  | phi _ => true
  | _ => false

/-- Replaces every value reference by `f` and every block reference by `g`, left to right. -/
def resolve {m : Type → Type} [Monad m] (f : ν → m ν') (g : β → m β') :
    Operation ν β → m (Operation ν' β')
  | binary op a b => return binary op (← a.resolve f) (← b.resolve f)
  | cast op a => return cast op (← a.resolve f)
  | icmp p a b => return icmp p (← a.resolve f) (← b.resolve f)
  | alloca => return alloca
  | load a => return load (← a.resolve f)
  | store a b => return store (← a.resolve f) (← b.resolve f)
  | br t => return br (← g t)
  | condBr c t e => return condBr (← c.resolve f) (← g t) (← g e)
  | ret none => return ret none
  | ret (some a) => return ret (some (← a.resolve f))
  | call callee args => return call callee (← args.mapM (·.resolve f))
  | phi pairs => return phi (← pairs.mapM fun (a, b) ↦ return (← a.resolve f, ← g b))

end Operation

end TreeCover.Ir
