import TreeCover.Workspace

/-!
# Actions

An action turns the results of a rule's leaves into machine instructions, appended to the current
block, and says what the reduced node stands for. An operation that overwrites its first operand
works on a copy in a new register, so that an operand shared with others is never lost.
-/

namespace TreeCover

open Ir Machine

/-! ## Instructions -/

/-- An unconditional jump. -/
def jumpTo (label : LabelId) : Inst :=
  { mnemonic := "jmp", operands := [.label label], kind := .jump }

/-- A conditional jump. -/
def branchTo (mnemonic : String) (label : LabelId) : Inst :=
  { mnemonic, operands := [.label label], kind := .branch }

/-- The access size for a value of some bits. -/
def accessBytes (bits : Nat) : Nat :=
  if bits ≤ 8 then 1 else if bits ≤ 16 then 2 else if bits ≤ 32 then 4 else 8

/-- The move that loads a value of some bits into a whole register. -/
def loadMnemonic (bits : Nat) : String :=
  match bits with
  | 1 => "movzbq"
  | 8 => "movsbq"
  | 16 => "movswq"
  | 32 => "movslq"
  | _ => "movq"

/-- Extends the low `bits` bits of `src` into `dst`. A single bit is masked out first; the 32-bit
move clears the upper half by itself. -/
def extendInsts (signed : Bool) (bits : Nat) (src dst : VReg) : List Inst :=
  if bits = 1 then
    [moveTo dst (.vreg src), .update "andq" [.imm 1, .vreg dst]] ++
      if signed then [.update "negq" [.vreg dst]] else []
  else if bits = 32 ∧ !signed then
    [Inst.intoReg (.define "movl" [.reg (.virt src) 4, .reg (.virt dst) 4])]
  else
    let bytes := accessBytes bits
    let mnemonic := match bytes, signed with
      | 1, true => "movsbq"
      | 2, true => "movswq"
      | 4, true => "movslq"
      | 1, false => "movzbq"
      | _, _ => "movzwq"
    [Inst.intoReg (.define mnemonic [.reg (.virt src) bytes, .vreg dst])]

/-! ## Results as operands -/

namespace Work

def failBinding {α : Type} (r : Rule) (fault : BindingFault) : Work α :=
  throw (.binding r.name fault)

/-- The result of leaf number `idx`. -/
def leafResult (r : Rule) (kids : List Bound) (idx : Nat) : Work Bound :=
  match kids[idx]? with
  | some b => return b
  | none => failBinding r (.missing idx)

/-- A result as a source operand. -/
def asOperand (r : Rule) : Bound → Work Machine.Operand
  | .reg v => return .vreg v
  | .imm value => return .imm value
  | .mem m | .addr m => return .mem m
  | other => failBinding r (.isNot other .value)

def asReg (r : Rule) : Bound → Work VReg
  | .reg v => return v
  | other => failBinding r (.isNot other .register)

def asImm (r : Rule) : Bound → Work Word
  | .imm value => return value
  | other => failBinding r (.isNot other .immediate)

/-- A result as an address; a register is an address without displacement. -/
def asAddress (r : Rule) : Bound → Work Mem
  | .addr m | .mem m => return m
  | .reg v => return .based (.virt v) 0
  | other => failBinding r (.isNot other .address)

def asLabel (r : Rule) : Bound → Work LabelId
  | .label id => return id
  | other => failBinding r (.isNot other .label)

def asCond (r : Rule) : Bound → Work Ir.Predicate
  | .cond p => return p
  | other => failBinding r (.isNot other .condition)

def emitAll (is : List Inst) : Work Unit := is.forM emit

/-! ## Single actions -/

/-- Shifts a displacement; the sum must fit 32 bits. -/
def displace (r : Rule) (m : Mem) (offset : Word) : Work Mem :=
  let disp := m.disp + offset.toInt
  if fitsImm32 offset && fitsSigned 32 disp then return { m with disp }
  else failBinding r .displacementRange

/-- Copies `lhs` and works on the copy. -/
def emitOnCopy (lhs : VReg) (operation : VReg → Inst) : Work Bound := do
  let dst ← freshVReg
  emit (moveTo dst (.vreg lhs))
  emit (operation dst)
  return .reg dst

/-- Divides in `rax` and `rdx`, one of which then holds the result. -/
def emitDivision (remainder : Bool) (lhs rhs : VReg) : Work Bound := do
  emit (.define "movq" [.vreg lhs, .phys .rax])
  emit { mnemonic := "cqto", operands := [] }
  emit { mnemonic := "idivq", operands := [.vreg rhs] }
  let dst ← freshVReg
  emit (moveTo dst (.phys (if remainder then .rdx else .rax)))
  return .reg dst

/-- The width of the first child's value. -/
def firstKidWidth (id : NodeId) : Work Nat := do
  let f := (← get).forest
  return ((f.node id).kids.head?.map fun k ↦ (f.node (f.owner k)).width).getD 64

/-- Extends the first child to a whole register, unless it fills one. -/
def emitExtension (signed : Bool) (id : NodeId) (src : VReg) : Work Bound := do
  let bits ← firstKidWidth id
  if 64 ≤ bits then return .reg src
  let dst ← freshVReg
  emitAll (extendInsts signed bits src dst)
  return .reg dst

/-- Stores the low bytes of a value. -/
def emitStore (r : Rule) (id : NodeId) (kids : List Bound) : Work Bound := do
  let bytes := accessBytes (← node id).width
  let value ← match ← leafResult r kids 0 with
    | .reg v => pure (Machine.Operand.reg (.virt v) bytes)
    | .imm value => pure (.imm value)
    | other => failBinding r (.cannotStore other)
  let m ← asAddress r (← leafResult r kids 1)
  emit { mnemonic := moveMnemonic bytes, operands := [value, .mem m] }
  return .none

/-- Pushes the arguments, last one first, and takes them off the stack after the call. A call of
no width has no result. -/
def emitCall (r : Rule) (id : NodeId) (args : List Bound) : Work Bound := do
  args.reverse.forM fun a ↦ do emit { mnemonic := "pushq", operands := [← asOperand r a] }
  let n ← node id
  emit { mnemonic := "call", operands := [.symbol (n.callee.getD "")], kind := .call }
  unless args.isEmpty do
    emit (.update "addq" [.imm (BitVec.ofNat 64 (8 * args.length)), .phys .rsp])
  if n.width = 0 then return .none
  let dst ← freshVReg
  emit (moveTo dst (.phys .rax))
  return .reg dst

/-- Records the value that the current block hands to a phi. -/
def recordPhiInput (r : Rule) (id : NodeId) (value : Machine.Operand) : Work Bound := do
  match (← node id).phiTarget with
  | none => failBinding r .phiMoveWithoutTarget
  | some (owner, succ) =>
    match (← node owner).slot with
    | .vreg dst =>
      modifyCode (·.addPhiInput succ dst value)
      return .none
    | _ => failBinding r .phiWithoutRegister

/-! ## All actions -/

/-- Runs the action of a rule for a node whose leaves have been reduced to `kids`. -/
def applyRule (r : Rule) (id : NodeId) (kids : List Bound) : Work Bound := do
  match r.action with
  | .immediate =>
    match (← node id).slot with
    | .imm value => return .imm value
    | _ => failBinding r .constantWithoutImmediate
  | .register =>
    match (← node id).slot with
    | .vreg v => return .reg v
    | _ => failBinding r .computedWithoutRegister
  | .memory =>
    match (← node id).slot with
    | .mem m => return .mem m
    | _ => failBinding r .argumentWithoutSlot
  | .label =>
    match (← node id).slot with
    | .label l => return .label l
    | _ => failBinding r .labelWithoutLabel
  | .nothing | .discard => return .none
  | .loadImm =>
    let value ← asImm r (← leafResult r kids 0)
    let dst ← freshVReg
    emit (loadConstant value (.vreg dst))
    return .reg dst
  | .loadMem =>
    match ← leafResult r kids 0 with
    | .reg v => return .reg v
    | .mem m =>
      let dst ← freshVReg
      emit (moveTo dst (.mem m))
      return .reg dst
    | other => failBinding r (.isNot other .memory)
  | .lea =>
    let m ← asAddress r (← leafResult r kids 0)
    match m with
    | ⟨.virt base, 0, none⟩ => return .reg base
    | _ =>
      let dst ← freshVReg
      emit (.intoReg (.define "leaq" [.mem m, .vreg dst]))
      return .reg dst
  | .addrBase => return .addr (← asAddress r (← leafResult r kids 0))
  | .setCond =>
    let p ← asCond r (← leafResult r kids 0)
    let dst ← freshVReg
    emit (.define (setMnemonic p) [.reg (.virt dst) 1])
    emit (.intoReg (.define "movzbq" [.reg (.virt dst) 1, .vreg dst]))
    return .reg dst
  | .fold =>
    match (← node id).opcode? with
    | none => failBinding r .foldedNonInstruction
    | some op =>
      let a ← asImm r (← leafResult r kids 0)
      let b ← asImm r (← leafResult r kids 1)
      match op.fold? a b with
      | some value => return .imm value
      | none => failBinding r (.doesNotFold op)
  | .frameSlot =>
    let n ← node id
    match n.source with
    | none => failBinding r .allocaWithoutSource
    | some source =>
      let m ← requestSlot (.value source) n.allocBytes
      modifyForest (·.update id fun n ↦ { n with roles := { n.roles with memory := true } })
      return .addr m
  | .addrDisp =>
    let m ← asAddress r (← leafResult r kids 0)
    return .addr (← displace r m (← asImm r (← leafResult r kids 1)))
  | .addrIndex =>
    let base ← asReg r (← leafResult r kids 0)
    let index ← asReg r (← leafResult r kids 1)
    let scale ← match kids[2]? with
      | some b => pure (1 <<< (max 0 (min 3 (← asImm r b).toInt)).toNat)
      | none => pure 1
    return .addr ⟨.virt base, 0, some (.virt index, scale)⟩
  | .memFromAddr => return .mem (← asAddress r (← leafResult r kids 0))
  | .load =>
    let m ← asAddress r (← leafResult r kids 0)
    let mnemonic := loadMnemonic (← node id).width
    let dst ← freshVReg
    emit { Inst.define mnemonic [.mem m, .vreg dst] with needsRegDst := mnemonic ≠ "movq" }
    return .reg dst
  | .store => emitStore r id kids
  | .binary mnemonic =>
    let lhs ← asReg r (← leafResult r kids 0)
    let rhs ← asOperand r (← leafResult r kids 1)
    emitOnCopy lhs fun dst ↦
      { Inst.update mnemonic [rhs, .vreg dst] with needsRegDst := mnemonic = "imulq" }
  | .mulImm =>
    let lhs ← asReg r (← leafResult r kids 0)
    let factor ← asImm r (← leafResult r kids 1)
    let dst ← freshVReg
    emit (.intoReg (.define "imulq" [.imm factor, .vreg lhs, .vreg dst]))
    return .reg dst
  | .divide remainder =>
    let lhs ← asReg r (← leafResult r kids 0)
    let rhs ← asReg r (← leafResult r kids 1)
    emitDivision remainder lhs rhs
  | .shift mnemonic =>
    let lhs ← asReg r (← leafResult r kids 0)
    let amount := (← asImm r (← leafResult r kids 1)) &&& 63
    emitOnCopy lhs fun dst ↦ .update mnemonic [.imm amount, .vreg dst]
  | .shiftByReg mnemonic =>
    let lhs ← asReg r (← leafResult r kids 0)
    let amount ← asReg r (← leafResult r kids 1)
    emit (.define "movq" [.vreg amount, .phys .rcx])
    emitOnCopy lhs fun dst ↦ .update mnemonic [.reg (.phys .rcx) 1, .vreg dst]
  | .compare =>
    let lhs ← asReg r (← leafResult r kids 0)
    let rhs ← asOperand r (← leafResult r kids 1)
    match (← node id).predicate with
    | none => failBinding r .comparisonWithoutPredicate
    | some p =>
      emit { mnemonic := "cmpq", operands := [rhs, .vreg lhs] }
      return .cond p
  | .signExtend => emitExtension true id (← asReg r (← leafResult r kids 0))
  | .zeroExtend => emitExtension false id (← asReg r (← leafResult r kids 0))
  | .rename => return .reg (← asReg r (← leafResult r kids 0))
  | .jump =>
    emit (jumpTo (← asLabel r (← leafResult r kids 0)))
    return .none
  | .branchCond =>
    let p ← asCond r (← leafResult r kids 0)
    let taken ← asLabel r (← leafResult r kids 1)
    let other ← asLabel r (← leafResult r kids 2)
    emit (branchTo (jumpMnemonic p) taken)
    emit (jumpTo other)
    return .none
  | .branchTest =>
    let v ← asReg r (← leafResult r kids 0)
    let taken ← asLabel r (← leafResult r kids 1)
    let other ← asLabel r (← leafResult r kids 2)
    emit { mnemonic := "testq", operands := [.vreg v, .vreg v] }
    emit (branchTo "jne" taken)
    emit (jumpTo other)
    return .none
  | .ret =>
    match kids.head? with
    | none => pure ()
    | some (.imm value) => emit (loadConstant value (.phys .rax))
    | some other => emit (.define "movq" [← asOperand r other, .phys .rax])
    emit { mnemonic := "ret", operands := [], kind := .ret }
    return .none
  | .arguments => return .args kids
  | .call =>
    match ← leafResult r kids 0 with
    | .args args => emitCall r id args
    | other => failBinding r (.isNot other .arguments)
  | .phiInput =>
    let value ← asOperand r (← leafResult r kids 0)
    recordPhiInput r id value

end Work

end TreeCover
