import TreeCover.Allocation.LinearScan
import TreeCover.Session.Error

/-!
# Placing operands

Every virtual register is replaced by its location. What cannot be encoded after that is repaired
through the scratch registers: a part of an address that lives in the frame is loaded into `r10`
or `r11` first, and `rax` stands in for a destination that must be a register and for the first of
two memory operands.
-/

namespace TreeCover

open Machine

/-- Work that needs the location of every register it meets. -/
abbrev Placing := Except CompileError

/-- The location of a virtual register, which must have one. -/
def Allocation.locate (a : Allocation) (v : VReg) : Placing Location :=
  match a.location? v with
  | some l => .ok l
  | none => .error (.noLocation v)

namespace Placement

/-- A physical register for a part of an address, with the load that fills it. -/
def addressReg (a : Allocation) (r : Reg) (scratch : PhysReg) : Placing (List Inst × Reg) :=
  match r with
  | .phys _ => return ([], r)
  | .virt v => do
    match ← a.locate v with
    | .register p => return ([], .phys p)
    | .stack slot => return ([.define "movq" [.mem slot, .phys scratch]], .phys scratch)

/-- An address of physical registers, with the loads that fill them. -/
def address (a : Allocation) (m : Mem) : Placing (List Inst × Mem) := do
  let (loads, base) ← addressReg a m.base .baseScratch
  match m.index with
  | none => return (loads, { m with base })
  | some (r, scale) =>
    let (more, index) ← addressReg a r .indexScratch
    return (loads ++ more, { m with base, index := some (index, scale) })

/-- An operand and the number of bytes it is accessed with. -/
abbrev Sized := Operand × Nat

/-- An operand without virtual registers, with the loads it needs. -/
def operand (a : Allocation) : Operand → Placing (List Inst × Sized)
  | .reg (.virt v) width => do
    match ← a.locate v with
    | .register p => return ([], .reg (.phys p) width, width)
    | .stack slot => return ([], .mem slot, width)
  | .mem m => do
    let (loads, m) ← address a m
    return (loads, .mem m, 8)
  | other => return ([], other, 8)

/-- Operands in order, with all loads they need. -/
def operands (a : Allocation) : List Operand → Placing (List Inst × List Sized)
  | [] => return ([], [])
  | o :: os => do
    let (loads, o) ← operand a o
    let (more, os) ← operands a os
    return (loads ++ more, o :: os)

/-- Operands with the instructions that go before and after the one that uses them. -/
structure Repaired where
  before : List Inst
  operands : List Sized
  after : List Inst

/-- Puts `rax` in place of a destination in memory if the instruction needs a register. -/
def repairDestination (i : Inst) (ops : List Sized) : Repaired :=
  match ops.getLast? with
  | some (.mem slot, width) =>
    if i.needsRegDst && i.effect ≠ .none then
      { before :=
          if i.effect = .update then [.define "movq" [.mem slot, .phys .valueScratch]] else []
        operands := ops.dropLast ++ [(.reg (.phys .valueScratch) width, width)]
        after := [{ mnemonic := "movq", operands := [.phys .valueScratch, .mem slot] }] }
    else ⟨[], ops, []⟩
  | _ => ⟨[], ops, []⟩

/-- Puts `rax` in place of the first memory operand. -/
def fetchFirst : List Sized → List Inst × List Sized
  | [] => ([], [])
  | (o, width) :: ops =>
    if o.isMem then
      let scratch : Operand := .reg (.phys .valueScratch) width
      ([.define (moveMnemonic width) [o, scratch]], (scratch, width) :: ops)
    else
      let (fetch, ops) := fetchFirst ops
      (fetch, (o, width) :: ops)

/-- Leaves at most one of two operands in memory. -/
def repairMemory (ops : List Sized) : List Inst × List Sized :=
  if 1 < ops.countP (·.1.isMem) then fetchFirst ops else ([], ops)

/-- Whether an instruction moves a word onto itself. -/
def isIdentityMove (i : Inst) : Bool :=
  i.mnemonic == "movq" &&
    match i.operands with
    | [a, b] => a == b
    | _ => false

/-- The instructions that do on the machine what `i` does on virtual registers. -/
def inst (a : Allocation) (i : Inst) : Placing (List Inst) := do
  let (loads, ops) ← operands a i.operands
  let r := repairDestination i ops
  let (fetch, ops) := repairMemory r.operands
  let final := { i with operands := ops.map (·.1) }
  let run := if isIdentityMove final then [] else final :: r.after
  return loads ++ r.before ++ fetch ++ run

end Placement

end TreeCover
