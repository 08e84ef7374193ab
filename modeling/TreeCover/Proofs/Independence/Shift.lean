import TreeCover.Compile

/-!
# Shifting labels

Labels are numbered within a session, so a function that is compiled behind others gets higher
numbers than in a session of its own. `shift k` adds `k` to every label of a thing: of an operand,
an instruction, a block, a node, a result or an error. Labels occur in few places; whatever does
not look at them, such as the registers that an instruction writes, is the same after a shift.
-/

namespace TreeCover

open Ir Machine

variable {k : Nat}

/-! ## Instructions -/

namespace Machine

namespace Operand

def shift (k : Nat) : Operand → Operand
  | label id => label (id + k)
  | o => o

@[simp]
theorem shift_eq_shift {o p : Operand} : o.shift k = p.shift k ↔ o = p := by
  constructor
  · intro h
    cases o <;> cases p <;> simp_all [shift]
  · exact congrArg (shift k)

@[simp]
theorem isMem_shift (o : Operand) : (o.shift k).isMem = o.isMem := by cases o <;> rfl

@[simp]
theorem isReg_shift (o : Operand) : (o.shift k).isReg = o.isReg := by cases o <;> rfl

@[simp]
theorem vregs_shift (o : Operand) : (o.shift k).vregs = o.vregs := by cases o <;> rfl

end Operand

def Kind.shift (k : Nat) : Kind → Kind
  | label id => label (id + k)
  | kind => kind

namespace Inst

def shift (k : Nat) (i : Inst) : Inst :=
  { i with operands := i.operands.map (·.shift k), kind := i.kind.shift k }

@[simp]
theorem kind_shift_eq_ret {i : Inst} : (i.shift k).kind = .ret ↔ i.kind = .ret := by
  rw [shift]
  cases i.kind <;> simp [Kind.shift]

@[simp]
theorem kind_shift_eq_jump {i : Inst} : (i.shift k).kind = .jump ↔ i.kind = .jump := by
  rw [shift]
  cases i.kind <;> simp [Kind.shift]

@[simp]
theorem kind_shift_eq_branch {i : Inst} : (i.shift k).kind = .branch ↔ i.kind = .branch := by
  rw [shift]
  cases i.kind <;> simp [Kind.shift]

@[simp]
theorem isBranch_shift (i : Inst) : (i.shift k).isBranch = i.isBranch := by simp [isBranch]

/-- The registers that an instruction writes are no labels. -/
@[simp]
theorem defs_shift (i : Inst) : (i.shift k).defs = i.defs := by
  rw [defs, defs, dst?, dst?, shift, List.getLast?_map]
  by_cases heffect : i.effect = .none
  · rw [if_pos heffect, if_pos heffect]
  · rw [if_neg heffect, if_neg heffect]
    cases i.operands.getLast? with
    | none => rfl
    | some o => cases o <;> rfl

theorem readOperands_shift (i : Inst) :
    (i.shift k).readOperands = i.readOperands.map (·.shift k) := by
  have hlast : (i.operands.map (·.shift k)).getLast?.any Operand.isReg =
      i.operands.getLast?.any Operand.isReg := by
    rw [List.getLast?_map, Option.any_map]
    simp only [Operand.isReg_shift]
  rw [readOperands, readOperands, shift]
  simp only [hlast]
  split
  · rw [List.map_dropLast]
  · rfl

/-- Neither are those that it reads. -/
@[simp]
theorem uses_shift (i : Inst) : (i.shift k).uses = i.uses := by
  rw [uses, uses, readOperands_shift, List.flatMap_map]
  simp only [Operand.vregs_shift]

end Inst

def Phi.shift (k : Nat) (phi : Phi) : Phi :=
  { phi with incoming := phi.incoming.map fun (o, pred) ↦ (o.shift k, pred) }

@[simp]
theorem Phi.dst_shift (phi : Phi) : (phi.shift k).dst = phi.dst := rfl

theorem Phi.inputsFrom_shift (phi : Phi) (pred : Nat) :
    (phi.shift k).inputsFrom pred = (phi.inputsFrom pred).map (·.shift k) := by
  rw [inputsFrom, inputsFrom, shift, List.filter_map, List.map_map, List.map_map]
  rfl

/-- A block with its own label shifted and those that are named in it. -/
def Block.shift (k : Nat) (b : Block) : Block :=
  { b with
    label := b.label.map (· + k)
    insts := b.insts.map (·.shift k)
    phis := b.phis.map (·.shift k) }

/-! ## Code -/

def Code.shift (k : Nat) (c : Code) : Code := { c with blocks := c.blocks.map (·.shift k) }

namespace Code

variable {f g : Block → Block}

theorem updateBlock_shift (c : Code) (b : Nat)
    (h : ∀ block, g (block.shift k) = (f block).shift k) :
    (c.shift k).updateBlock b g = (c.updateBlock b f).shift k := by
  simp only [updateBlock, shift, mk.injEq, and_true, true_and]
  refine List.ext_getElem? fun n ↦ ?_
  rw [List.getElem?_modify, List.getElem?_map, List.getElem?_map, List.getElem?_modify]
  cases c.blocks[n]? with
  | none => rfl
  | some block =>
    simp only [Option.map_some]
    split
    · exact congrArg some (h block)
    · rfl

theorem beginBlock_shift (c : Code) (b : Nat) (label : Option LabelId) :
    (c.shift k).beginBlock b (label.map (· + k)) = (c.beginBlock b label).shift k :=
  updateBlock_shift { c with current := b } b fun _ ↦ rfl

theorem emit_shift (c : Code) (i : Inst) : (c.shift k).emit (i.shift k) = (c.emit i).shift k := by
  refine c.updateBlock_shift _ fun block ↦ ?_
  rw [Block.shift, Block.shift, List.map_append]
  rfl

theorem declarePhi_shift (c : Code) (b : Nat) (dst : VReg) :
    (c.shift k).declarePhi b dst = (c.declarePhi b dst).shift k := by
  refine c.updateBlock_shift b fun block ↦ ?_
  rw [Block.shift, Block.shift, List.map_append]
  rfl

theorem addInput_shift (dst : VReg) (input : Operand × Nat) (phis : List Phi) :
    addInput dst (input.1.shift k, input.2) (phis.map (·.shift k)) =
      (addInput dst input phis).map (·.shift k) := by
  induction phis with
  | nil => rfl
  | cons phi phis ih =>
    rw [List.map_cons, addInput, addInput, Phi.dst_shift]
    by_cases hdst : phi.dst = dst
    · rw [if_pos hdst, if_pos hdst, List.map_cons, Phi.shift, Phi.shift, List.map_append]
      rfl
    · rw [if_neg hdst, if_neg hdst, List.map_cons, ih]

theorem addPhiInput_shift (c : Code) (succ : Nat) (dst : VReg) (value : Operand) :
    (c.shift k).addPhiInput succ dst (value.shift k) = (c.addPhiInput succ dst value).shift k := by
  refine c.updateBlock_shift succ fun block ↦ ?_
  have hinput := addInput_shift (k := k) dst (value, c.current) block.phis
  rw [Block.shift, Block.shift, ← hinput]
  rfl

end Code

end Machine

/-! ## Results and errors -/

mutual

def Bound.shift (k : Nat) : Bound → Bound
  | .label id => .label (id + k)
  | .args bs => .args (Bound.shiftAll k bs)
  | .none => .none
  | .reg v => .reg v
  | .imm value => .imm value
  | .mem m => .mem m
  | .addr m => .addr m
  | .cond p => .cond p

def Bound.shiftAll (k : Nat) : List Bound → List Bound
  | [] => []
  | b :: bs => b.shift k :: Bound.shiftAll k bs

end

theorem Bound.shiftAll_eq_map (bs : List Bound) : Bound.shiftAll k bs = bs.map (·.shift k) := by
  induction bs with
  | nil => rfl
  | cons b bs ih => rw [shiftAll, List.map_cons, ih]

def BindingFault.shift (k : Nat) : BindingFault → BindingFault
  | isNot found use => isNot (found.shift k) use
  | cannotStore found => cannotStore (found.shift k)
  | fault => fault

def CompileError.shift (k : Nat) : CompileError → CompileError
  | binding rule fault => binding rule (fault.shift k)
  | e => e

/-! ## Nodes -/

def Slot.shift (k : Nat) : Slot → Slot
  | label id => label (id + k)
  | slot => slot

def Node.shift (k : Nat) (n : Node) : Node := { n with slot := n.slot.shift k }

def Forest.shift (k : Nat) (f : Forest) : Forest := ⟨f.nodes.map (·.shift k)⟩

end TreeCover
