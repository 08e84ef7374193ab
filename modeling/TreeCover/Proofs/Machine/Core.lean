import TreeCover.Proofs.Machine.Bytes

/-!
# The machine with virtual registers

One machine runs both the code that selection emits and the code that is left once every virtual
register has its place: virtual registers are registers beside the sixteen physical ones. Memory is
shared by all accesses, those through `pushq` included, and a call hands the stack pointer and the
memory to a callee that is a parameter of the machine.

All other instructions have one shape. Its `Form` says with how many bytes each operand is read,
how many bytes of the last operand are written, which physical registers take part unnamed, and what
is computed from the values that were read. An instruction that no assembler would accept, with two
operands in memory, a destination that has to be a register and is none, or a constant that does not
fit, has no effect at all: it does not run.
-/

namespace TreeCover.Machine

/-! ## Conditions -/

namespace Flags

/-- Whether a condition holds after a comparison. -/
def holds (f : Flags) : Ir.Predicate → Bool
  | .eq => f.zero
  | .ne => !f.zero
  | .slt => f.sign != f.overflow
  | .sle => f.zero || f.sign != f.overflow
  | .sgt => !f.zero && f.sign == f.overflow
  | .sge => f.sign == f.overflow
  | .ult => f.carry
  | .ule => f.carry || f.zero
  | .ugt => !f.carry && !f.zero
  | .uge => !f.carry

/-- The flags that tell of a result. -/
def ofResult (r : Word) (carry overflow : Bool) : Flags where
  carry := carry
  parity := (List.range 8).countP r.getLsbD % 2 == 0
  zero := r == 0
  sign := r.msb
  overflow := overflow

/-- The flags after `y - x`. -/
def ofSub (y x : Word) : Flags := ofResult (y - x) (y < x) (BitVec.ssubOverflow y x)

end Flags

/-! ## Forms of instructions -/

/-- What is done with an operand that is read. -/
inductive Reading where
  /-- Some bytes of its value. -/
  | value (bytes : Nat)
  /-- The address it names, without an access. -/
  | address
deriving DecidableEq, Repr

/-- What an instruction computes. -/
structure Outcome where
  /-- The value for the last operand, if that is written. -/
  result : Word := 0
  flags : Flags
  /-- The values for the registers that are written unnamed. -/
  outputs : List Word := []

/-- The shape of an instruction. -/
structure Form where
  /-- Registers that are read though no operand names them. -/
  inputs : List PhysReg := []
  /-- Registers that are written though no operand names them. -/
  outputs : List PhysReg := []
  /-- What is done with the operands that are read, which come first. -/
  uses : List Reading
  /-- How many bytes of the last operand are written. -/
  target : Option Nat := none
  /-- Whether the last operand must be a register. -/
  regTarget : Bool := false
  /-- Whether constants may have all 64 bits. -/
  wide : Bool := false
  /-- What is computed from the flags, the unnamed registers, and the operands that are read. -/
  act : Flags → List Word → List Word → Option Outcome

namespace Form

def move (bytes : Nat) : Form where
  uses := [.value bytes]
  target := some bytes
  act f _
    | [x] => some { result := x, flags := f }
    | _ => none

def lea : Form := { move 8 with uses := [.address], regTarget := true }

/-- A move that turns some low bytes into a word. -/
def extend (bytes : Nat) (g : Word → Word) : Form where
  uses := [.value bytes]
  target := some 8
  regTarget := true
  act f _
    | [x] => some { result := g x, flags := f }
    | _ => none

/-- An operation on two operands, the second of which comes first in it. -/
def binary (regTarget : Bool) (g : Word → Word → Word) (flags : Word → Word → Flags) : Form where
  uses := [.value 8, .value 8]
  target := some 8
  regTarget := regTarget
  act _ _
    | [x, y] => some { result := g y x, flags := flags y x }
    | _ => none

def logic (g : Word → Word → Word) : Form :=
  binary false g fun y x ↦ .ofResult (g y x) false false

def multiplyFlags (y x : Word) : Flags :=
  .ofResult (y * x) (BitVec.smulOverflow y x) (BitVec.smulOverflow y x)

/-- The product of the operands that are read: both, or the two before the destination. -/
def multiply : Form := binary true (· * ·) multiplyFlags

/-- A shift by the low six bits of a byte. A shift by zero leaves the flags alone. -/
def shift (g : Word → Nat → Word) (carry : Word → Nat → Bool) : Form where
  uses := [.value 1, .value 8]
  target := some 8
  act f _
    | [x, y] =>
      let n := x.toNat % 64
      some
        { result := g y n
          flags := if n = 0 then f else .ofResult (g y n) (carry y n) (y.msb != (g y n).msb) }
    | _ => none

def negate : Form where
  uses := [.value 8]
  target := some 8
  act _ _
    | [y] => some { result := -y, flags := .ofSub 0 y }
    | _ => none

/-- An instruction that sets the flags only. -/
def compare (flags : Word → Word → Flags) : Form where
  uses := [.value 8, .value 8]
  act _ _
    | [x, y] => some { flags := flags y x }
    | _ => none

/-- A condition as a byte. -/
def set (p : Ir.Predicate) : Form where
  uses := []
  target := some 1
  act f _ _ := some { result := if f.holds p then 1 else 0, flags := f }

/-- The sign of `rax` in all bits of `rdx`. -/
def spreadSign : Form where
  inputs := [.rax]
  outputs := [.rdx]
  uses := []
  act f
    | [a], _ => some { flags := f, outputs := [if a.msb then -1 else 0] }
    | _, _ => none

/-- The division of `rdx:rax`, which traps if there is no quotient or it does not fit a word. -/
def divide : Form where
  inputs := [.rax, .rdx]
  outputs := [.rax, .rdx]
  uses := [.value 8]
  act f
    | [a, d], [x] =>
      let dividend := (d ++ a).toInt
      let quotient := dividend.tdiv x.toInt
      if x = 0 ∨ !fitsSigned 64 quotient then none
      else some
        { flags := f
          outputs := [BitVec.ofInt 64 quotient, BitVec.ofInt 64 (dividend.tmod x.toInt)] }
    | _, _ => none

end Form

/-- The condition of an instruction that sets a byte. -/
def setCondition? (mnemonic : String) : Option Ir.Predicate :=
  [.eq, .ne, .slt, .sle, .sgt, .sge, .ult, .ule, .ugt, .uge].find? (setMnemonic · == mnemonic)

/-- The form of an instruction with some number of operands. -/
def formOf (mnemonic : String) (operands : Nat) : Option Form :=
  match mnemonic, operands with
  | "movb", 2 => some (.move 1)
  | "movw", 2 => some (.move 2)
  | "movl", 2 => some (.move 4)
  | "movq", 2 => some (.move 8)
  | "movabsq", 2 => some { Form.move 8 with regTarget := true, wide := true }
  | "leaq", 2 => some .lea
  | "movzbq", 2 => some (.extend 1 id)
  | "movzwq", 2 => some (.extend 2 id)
  | "movsbq", 2 => some (.extend 1 fun x ↦ (x.setWidth 8).signExtend 64)
  | "movswq", 2 => some (.extend 2 fun x ↦ (x.setWidth 16).signExtend 64)
  | "movslq", 2 => some (.extend 4 fun x ↦ (x.setWidth 32).signExtend 64)
  | "addq", 2 => some (.binary false (· + ·) fun y x ↦
      .ofResult (y + x) (y + x < y) (BitVec.saddOverflow y x))
  | "subq", 2 => some (.binary false (· - ·) .ofSub)
  | "andq", 2 => some (.logic (· &&& ·))
  | "orq", 2 => some (.logic (· ||| ·))
  | "xorq", 2 => some (.logic (· ^^^ ·))
  | "imulq", 2 | "imulq", 3 => some .multiply
  | "shlq", 2 => some (.shift (· <<< ·) fun y n ↦ y.getLsbD (64 - n))
  | "shrq", 2 => some (.shift (· >>> ·) fun y n ↦ y.getLsbD (n - 1))
  | "sarq", 2 => some (.shift BitVec.sshiftRight fun y n ↦ y.getLsbD (n - 1))
  | "negq", 1 => some .negate
  | "cmpq", 2 => some (.compare .ofSub)
  | "testq", 2 => some (.compare fun y x ↦ .ofResult (y &&& x) false false)
  | "cqto", 0 => some .spreadSign
  | "idivq", 1 => some .divide
  | m, 1 => (setCondition? m).map .set
  | _, _ => none

/-! ## States -/

/-- What a call does, given the name of the callee, the stack pointer and the memory: the memory
afterwards, and the registers and flags as it leaves them. -/
structure Callee where
  mem : String → Word → Memory → Memory
  regs : String → Word → Memory → PhysReg → Word
  flags : String → Word → Memory → Flags

/-- The registers that a callee may leave changed. -/
def callerSaved : List PhysReg := [.rax, .rcx, .rdx, .r10, .r11]

/-- A state of the machine with virtual registers. -/
structure Core where
  regs : Reg → Word
  mem : Memory
  flags : Flags

namespace Core

variable {s s' : Core} {r r' : Reg} {w : Word} {n : Nat}

def setReg (s : Core) (r : Reg) (w : Word) : Core :=
  { s with regs := fun r' ↦ if r' = r then w else s.regs r' }

def setRegs (s : Core) (ws : List (PhysReg × Word)) : Core :=
  ws.foldl (fun s x ↦ s.setReg (.phys x.1) x.2) s

def setFlags (s : Core) (f : Flags) : Core := { s with flags := f }

def store (s : Core) (a : Word) (n : Nat) (w : Word) : Core :=
  { s with mem := s.mem.store a n w.toNat }

@[simp]
theorem regs_setReg_self : (s.setReg r w).regs r = w := if_pos rfl

theorem regs_setReg_of_ne (h : r' ≠ r) : (s.setReg r w).regs r' = s.regs r' := if_neg h

@[simp]
theorem mem_setReg : (s.setReg r w).mem = s.mem := rfl

@[simp]
theorem flags_setReg : (s.setReg r w).flags = s.flags := rfl

@[simp]
theorem setReg_regs : s.setReg r (s.regs r) = s := by
  have hregs : (s.setReg r (s.regs r)).regs = s.regs := by
    funext q
    by_cases hq : q = r
    · rw [hq, regs_setReg_self]
    · rw [regs_setReg_of_ne hq]
  exact congrArg (fun regs ↦ (⟨regs, s.mem, s.flags⟩ : Core)) hregs

@[simp]
theorem regs_setFlags {f : Flags} : (s.setFlags f).regs = s.regs := rfl

@[simp]
theorem mem_setFlags {f : Flags} : (s.setFlags f).mem = s.mem := rfl

@[simp]
theorem flags_setFlags {f : Flags} : (s.setFlags f).flags = f := rfl

@[simp]
theorem regs_store {a : Word} : (s.store a n w).regs = s.regs := rfl

@[simp]
theorem mem_store {a : Word} : (s.store a n w).mem = s.mem.store a n w.toNat := rfl

@[simp]
theorem flags_store {a : Word} : (s.store a n w).flags = s.flags := rfl

/-! ## Operands -/

/-- The address that a memory operand names. -/
def address (s : Core) (m : Mem) : Word :=
  s.regs m.base + BitVec.ofInt 64 m.disp +
    match m.index with
    | none => 0
    | some (r, scale) => s.regs r * BitVec.ofNat 64 scale

theorem address_congr {m : Mem} (h : ∀ r ∈ m.regs, s'.regs r = s.regs r) :
    s'.address m = s.address m := by
  have hbase : s'.regs m.base = s.regs m.base := h _ List.mem_cons_self
  cases hindex : m.index with
  | none => rw [address, address, hbase, hindex]
  | some part =>
    have hpart : s'.regs part.1 = s.regs part.1 := h _ (by simp [Mem.regs, hindex])
    rw [address, address, hbase, hindex]
    simp only [hpart]

/-- Some bytes of an operand; a register is read with the width it is named with. -/
def read (s : Core) (n : Nat) : Operand → Option Word
  | .imm w => some (lowBytes n w)
  | .reg r width => if width = n then some (lowBytes n (s.regs r)) else none
  | .mem m => some (BitVec.ofNat 64 (s.mem.load (s.address m) n))
  | _ => none

/-- What an instruction gets from an operand that it reads. -/
def use (s : Core) : Reading → Operand → Option Word
  | .value n, o => s.read n o
  | .address, .mem m => some (s.address m)
  | .address, _ => none

/-- What an instruction gets from its first operands. -/
def gather (s : Core) : List Reading → List Operand → Option (List Word)
  | [], _ => some []
  | u :: us, o :: os => do
    let x ← s.use u o
    let xs ← s.gather us os
    return x :: xs
  | _ :: _, [] => none

/-- Writes some bytes of an operand. -/
def write (s : Core) (n : Nat) (w : Word) : Operand → Option Core
  | .reg r width => if width = n then some (s.setReg r (mergeBytes n (s.regs r) w)) else none
  | .mem m => some (s.store (s.address m) n w)
  | _ => none

/-! ## Instructions -/

/-- Whether an operand can be encoded as it is. -/
def fits (wide : Bool) : Operand → Bool
  | .imm w => wide || fitsImm32 w
  | _ => true

/-- Whether there is an instruction of this form with these operands. -/
def isEncodable (form : Form) (ops : List Operand) : Bool :=
  decide (ops.countP Operand.isMem ≤ 1) && ops.all (fits form.wide) &&
    (!form.regTarget || ops.getLast?.any Operand.isReg)

/-- Takes over what an instruction has computed. -/
def finish (s : Core) (form : Form) (ops : List Operand) (out : Outcome) : Option Core :=
  let s := (s.setRegs (form.outputs.zip out.outputs)).setFlags out.flags
  match form.target with
  | none => some s
  | some n => ops.getLast?.bind (s.write n out.result)

theorem finish_of_none {form : Form} {ops : List Operand} {out : Outcome}
    (h : form.target = none) :
    s.finish form ops out = some ((s.setRegs (form.outputs.zip out.outputs)).setFlags out.flags) := by
  rw [finish, h]

theorem finish_of_last {form : Form} {ops : List Operand} {out : Outcome} {o : Operand}
    (h : form.target = some n) (houtputs : form.outputs = []) (hlast : ops.getLast? = some o) :
    s.finish form ops out = (s.setFlags out.flags).write n out.result o := by
  rw [finish, h, houtputs, hlast]
  rfl

/-- Executes an instruction of a form. -/
def perform (s : Core) (form : Form) (ops : List Operand) : Option Core :=
  if isEncodable form ops then do
    let xs ← s.gather form.uses ops
    let out ← form.act s.flags (form.inputs.map fun r ↦ s.regs (.phys r)) xs
    s.finish form ops out
  else none

/-- Puts a word on the stack. -/
def push (s : Core) (w : Word) : Core :=
  let top := s.regs (.phys .rsp) - 8
  (s.setReg (.phys .rsp) top).store top 8 w

/-- A call, which comes back with the stack as it was. -/
def call (c : Callee) (name : String) (s : Core) : Core where
  regs
    | .virt v => s.regs (.virt v)
    | .phys r =>
      if r ∈ callerSaved then c.regs name (s.regs (.phys .rsp)) s.mem r else s.regs (.phys r)
  mem := c.mem name (s.regs (.phys .rsp)) s.mem
  flags := c.flags name (s.regs (.phys .rsp)) s.mem

/-- One instruction. -/
def step (c : Callee) (s : Core) (i : Inst) : Option Core :=
  match i.mnemonic, i.operands with
  | "call", [.symbol name] => some (s.call c name)
  | "pushq", [o] => if fits false o then (s.read 8 o).map s.push else none
  | m, ops => (formOf m ops.length).bind fun form ↦ s.perform form ops

/-- Instructions in order. -/
def run (c : Callee) (is : List Inst) (s : Core) : Option Core := is.foldlM (step c) s

@[simp]
theorem run_nil (c : Callee) (s : Core) : run c [] s = some s := rfl

theorem run_cons (c : Callee) (i : Inst) (is : List Inst) (s : Core) :
    run c (i :: is) s = (s.step c i).bind (run c is) := rfl

theorem run_append (c : Callee) (is js : List Inst) (s : Core) :
    run c (is ++ js) s = (run c is s).bind (run c js) := List.foldlM_append

/-! ## Accesses -/

/-- The bytes in memory that an operand stands for, if it is read or written with some width. -/
def span (s : Core) (n : Nat) : Operand → List (Word × Nat)
  | .mem m => [(s.address m, n)]
  | _ => []

/-- The bytes in memory that an instruction of a form reads or writes. -/
def spans (s : Core) (form : Form) (ops : List Operand) : List (Word × Nat) :=
  (form.uses.zip ops).flatMap (fun
    | (.value n, o) => s.span n o
    | (.address, _) => []) ++
  (form.target.map fun n ↦ ops.getLast?.toList.flatMap (s.span n)).getD []

theorem mem_spans_of_use {form : Form} {ops : List Operand} {m : Mem}
    (h : (.value n, .mem m) ∈ form.uses.zip ops) : (s.address m, n) ∈ s.spans form ops :=
  List.mem_append_left _ (List.mem_flatMap.mpr ⟨_, h, List.mem_singleton_self _⟩)

theorem mem_spans_of_target {form : Form} {ops : List Operand} {m : Mem}
    (h : form.target = some n) (hlast : ops.getLast? = some (.mem m)) :
    (s.address m, n) ∈ s.spans form ops := by
  refine List.mem_append_right _ ?_
  rw [h, hlast]
  exact List.mem_singleton_self _

/-- The bytes in memory that an instruction reads or writes, those of a callee apart. -/
def accesses (s : Core) (i : Inst) : List (Word × Nat) :=
  match i.mnemonic, i.operands with
  | "call", [.symbol _] => []
  | "pushq", [o] => (s.regs (.phys .rsp) - 8, 8) :: s.span 8 o
  | m, ops => ((formOf m ops.length).map fun form ↦ s.spans form ops).getD []

/-! ## Steps -/

theorem step_of_plain {c : Callee} {i : Inst} (hcall : i.mnemonic ≠ "call")
    (hpush : i.mnemonic ≠ "pushq") :
    s.step c i = (formOf i.mnemonic i.operands.length).bind fun form ↦ s.perform form i.operands := by
  rw [step]
  split
  next heq _ => exact absurd heq hcall
  next heq _ => exact absurd heq hpush
  next => rfl

theorem accesses_of_plain {i : Inst} (hcall : i.mnemonic ≠ "call") (hpush : i.mnemonic ≠ "pushq") :
    s.accesses i = ((formOf i.mnemonic i.operands.length).map fun form ↦
      s.spans form i.operands).getD [] := by
  rw [accesses]
  split
  next heq _ => exact absurd heq hcall
  next heq _ => exact absurd heq hpush
  next => rfl

theorem step_move {c : Callee} {i : Inst} {src dst : Operand} (hn : n ∈ [1, 2, 4, 8])
    (hname : i.mnemonic = moveMnemonic n) (hops : i.operands = [src, dst]) :
    s.step c i = s.perform (.move n) [src, dst] := by
  have hform : moveMnemonic n ≠ "call" ∧ moveMnemonic n ≠ "pushq" ∧
      formOf (moveMnemonic n) 2 = some (.move n) := by
    simp only [List.mem_cons, List.not_mem_nil, or_false] at hn
    rcases hn with rfl | rfl | rfl | rfl <;> exact ⟨by decide, by decide, rfl⟩
  obtain ⟨hcall, hpush, hform⟩ := hform
  rw [step_of_plain (hname ▸ hcall) (hname ▸ hpush), hname, hops]
  exact congrArg (Option.bind · fun form ↦ s.perform form [src, dst]) hform

theorem perform_move {src dst : Operand} (h : isEncodable (.move n) [src, dst] = true) :
    s.perform (.move n) [src, dst] = (s.read n src).bind (s.write n · dst) := by
  rw [perform, if_pos h, Form.move, gather, use]
  cases s.read n src with
  | none => rfl
  | some x => rfl

/-- A part of a word in memory is moved to a register. -/
theorem step_fetch {c : Callee} {i : Inst} {m : Mem} {q : PhysReg} (hn : n ∈ [1, 2, 4, 8])
    (hname : i.mnemonic = moveMnemonic n) (hops : i.operands = [.mem m, .reg (.phys q) n]) :
    s.step c i = some (s.setReg (.phys q)
      (mergeBytes n (s.regs (.phys q)) (BitVec.ofNat 64 (s.mem.load (s.address m) n)))) := by
  rw [step_move hn hname hops, perform_move rfl, Core.read, Option.bind_some, write, if_pos rfl]

/-- A word in memory is moved to a register. -/
theorem step_load {c : Callee} {i : Inst} {m : Mem} {q : PhysReg} (hname : i.mnemonic = "movq")
    (hops : i.operands = [.mem m, .phys q]) :
    s.step c i = some (s.setReg (.phys q) (s.mem.word (s.address m))) := by
  rw [step_fetch (by decide : 8 ∈ [1, 2, 4, 8]) hname hops, mergeBytes_eight]
  rfl

/-- A register is moved to a word in memory. -/
theorem step_save {c : Callee} {i : Inst} {m : Mem} {q : PhysReg} (hname : i.mnemonic = "movq")
    (hops : i.operands = [.phys q, .mem m]) :
    s.step c i = some (s.store (s.address m) 8 (s.regs (.phys q))) := by
  rw [step_move (by decide : 8 ∈ [1, 2, 4, 8]) hname hops, perform_move rfl, Operand.phys, Core.read,
    if_pos rfl, Option.bind_some, lowBytes_eight]
  rfl

theorem encodable_of_perform {form : Form} {ops : List Operand}
    (h : s.perform form ops = some s') : isEncodable form ops = true := by
  refine Decidable.byContradiction fun hnot ↦ ?_
  rw [perform, if_neg hnot] at h
  exact absurd h (by simp)

/-- The first operand that is read gives a value. -/
theorem use_of_perform {form : Form} {u : Reading} {us : List Reading} {o : Operand}
    {os : List Operand} (h : s.perform form (o :: os) = some s') (huses : form.uses = u :: us) :
    ∃ x, s.use u o = some x := by
  rw [perform, if_pos (encodable_of_perform h), huses, gather] at h
  simp only [Option.bind_eq_bind, Option.bind_eq_some_iff] at h
  obtain ⟨_, ⟨x, hx, -⟩, -⟩ := h
  exact ⟨x, hx⟩

/-- A move of a register onto itself changes nothing. -/
theorem perform_identity {q : Operand} (h : s.perform (.move 8) [q, q] = some s') : s' = s := by
  have hencodable := encodable_of_perform h
  rw [perform_move hencodable] at h
  cases q with
  | reg r width =>
    rw [Core.read] at h
    split at h
    next hwidth =>
      rw [Option.bind_some, write, if_pos hwidth, lowBytes_eight, mergeBytes_eight, setReg_regs] at h
      exact (Option.some.inj h).symm
    next => exact absurd h (by simp)
  | mem m => exact absurd hencodable (by simp [isEncodable, List.countP_cons, Operand.isMem])
  | _ => exact absurd h (by simp [Core.read, write])

end Core

end TreeCover.Machine
