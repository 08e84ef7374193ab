import Mathlib.Data.List.Forall2
import TreeCover.Proofs.Tiling.Results

/-!
# What actions emit

`Expands` says for each action which instructions it emits for the results of a rule's leaves, and
what the node then stands for: one constructor per way to go, with the register that is drawn, if
any. Every action that succeeds goes one of these ways.
-/

namespace TreeCover

open Ir Machine Work

/-! ## Results as operands -/

namespace Bound

/-- A result as a source operand. -/
def operand? : Bound → Option Machine.Operand
  | reg v => some (.vreg v)
  | imm w => some (.imm w)
  | mem m | addr m => some (.mem m)
  | _ => Option.none

/-- A result as an address. -/
def address? : Bound → Option Mem
  | addr m | mem m => some m
  | reg v => some (.based (.virt v) 0)
  | _ => Option.none

end Bound

/-! ## Expansions -/

/-- The address of a base and an index, scaled by the shift in the third place if there is one. -/
def indexedAddress (base index : VReg) (shift : Option Word) : Mem :=
  let scale := (shift.map fun w ↦ 1 <<< (max 0 (min 3 w.toInt)).toNat).getD 1
  ⟨.virt base, 0, some (.virt index, scale)⟩

/-- Takes some words off the stack. -/
def popCode (words : Nat) : List Machine.Inst :=
  if words = 0 then [] else [.update "addq" [.imm (BitVec.ofNat 64 (8 * words)), .phys .rsp]]

/-- The instructions of a call: the arguments are pushed, last one first, and taken off again
afterwards, and the result is fetched from `rax`. -/
def callCode (callee : String) (args : List Machine.Operand) (result? : Option VReg) :
    List Machine.Inst :=
  args.reverse.map (fun o ↦ { mnemonic := "pushq", operands := [o] }) ++
    ({ mnemonic := "call", operands := [.symbol callee], kind := .call } :: popCode args.length) ++
    (result?.map fun dst ↦ moveTo dst (.phys .rax)).toList

/-- `Expands action n frame kids v is b` says that the action, for a node `n`, emits `is` and gives
`b`, if the leaves gave `kids`, the next register is `v` and the frame is `frame`. -/
inductive Expands (n : Node) (frame : Frame) (kids : List Bound) (v : VReg) :
    Action → List Machine.Inst → Bound → Prop
  | immediate {w : Word} (h : n.slot = .imm w) : Expands n frame kids v .immediate [] (.imm w)
  | register {u : VReg} (h : n.slot = .vreg u) : Expands n frame kids v .register [] (.reg u)
  | memory {m : Mem} (h : n.slot = .mem m) : Expands n frame kids v .memory [] (.mem m)
  | label {l : LabelId} (h : n.slot = .label l) : Expands n frame kids v .label [] (.label l)
  | nothing : Expands n frame kids v .nothing [] .none
  | discard : Expands n frame kids v .discard [] .none
  | loadImm {w : Word} (h : kids[0]? = some (.imm w)) :
      Expands n frame kids v .loadImm [loadConstant w (.vreg v)] (.reg v)
  | loadMemReg {u : VReg} (h : kids[0]? = some (.reg u)) :
      Expands n frame kids v .loadMem [] (.reg u)
  | loadMem {m : Mem} (h : kids[0]? = some (.mem m)) :
      Expands n frame kids v .loadMem [moveTo v (.mem m)] (.reg v)
  | leaBase {u : VReg} (h : kids[0]?.bind Bound.address? = some (.based (.virt u) 0)) :
      Expands n frame kids v .lea [] (.reg u)
  | lea {m : Mem} (h : kids[0]?.bind Bound.address? = some m) :
      Expands n frame kids v .lea [.intoReg (.define "leaq" [.mem m, .vreg v])] (.reg v)
  | addrBase {m : Mem} (h : kids[0]?.bind Bound.address? = some m) :
      Expands n frame kids v .addrBase [] (.addr m)
  | setCond {p : Predicate} (h : kids[0]? = some (.cond p)) :
      Expands n frame kids v .setCond
        [.define (setMnemonic p) [.reg (.virt v) 1],
          .intoReg (.define "movzbq" [.reg (.virt v) 1, .vreg v])] (.reg v)
  | fold {op : Opcode} {a b c : Word} (hop : n.opcode? = some op) (ha : kids[0]? = some (.imm a))
      (hb : kids[1]? = some (.imm b)) (hc : op.fold? a b = some c) :
      Expands n frame kids v .fold [] (.imm c)
  | frameSlot {i : InstId} (h : n.source = some i) :
      Expands n frame kids v .frameSlot [] (.addr (frame.request (.value i) n.allocBytes).1)
  | addrDisp {m : Mem} {w : Word} (hm : kids[0]?.bind Bound.address? = some m)
      (hw : kids[1]? = some (.imm w))
      (hfits : fitsImm32 w = true ∧ fitsSigned 32 (m.disp + w.toInt) = true) :
      Expands n frame kids v .addrDisp [] (.addr { m with disp := m.disp + w.toInt })
  | addrIndex {base index : VReg} (hbase : kids[0]? = some (.reg base))
      (hindex : kids[1]? = some (.reg index)) (hkids : kids[2]? = none) :
      Expands n frame kids v .addrIndex [] (.addr (indexedAddress base index none))
  | addrScaled {base index : VReg} {w : Word} (hbase : kids[0]? = some (.reg base))
      (hindex : kids[1]? = some (.reg index)) (hw : kids[2]? = some (.imm w)) :
      Expands n frame kids v .addrIndex [] (.addr (indexedAddress base index (some w)))
  | memFromAddr {m : Mem} (h : kids[0]?.bind Bound.address? = some m) :
      Expands n frame kids v .memFromAddr [] (.mem m)
  | load {m : Mem} (h : kids[0]?.bind Bound.address? = some m) :
      Expands n frame kids v .load
        [{ Inst.define (loadMnemonic n.width) [.mem m, .vreg v] with
            needsRegDst := loadMnemonic n.width ≠ "movq" }] (.reg v)
  | storeReg {u : VReg} {m : Mem} (hu : kids[0]? = some (.reg u))
      (hm : kids[1]?.bind Bound.address? = some m) :
      Expands n frame kids v .store
        [{ mnemonic := moveMnemonic (accessBytes n.width)
           operands := [.reg (.virt u) (accessBytes n.width), .mem m] }] .none
  | storeImm {w : Word} {m : Mem} (hw : kids[0]? = some (.imm w))
      (hm : kids[1]?.bind Bound.address? = some m) :
      Expands n frame kids v .store
        [{ mnemonic := moveMnemonic (accessBytes n.width), operands := [.imm w, .mem m] }] .none
  | binary {mnemonic : String} {lhs : VReg} {rhs : Machine.Operand}
      (hlhs : kids[0]? = some (.reg lhs)) (hrhs : kids[1]?.bind Bound.operand? = some rhs) :
      Expands n frame kids v (.binary mnemonic)
        [moveTo v (.vreg lhs),
          { Inst.update mnemonic [rhs, .vreg v] with needsRegDst := mnemonic = "imulq" }] (.reg v)
  | mulImm {lhs : VReg} {w : Word} (hlhs : kids[0]? = some (.reg lhs))
      (hw : kids[1]? = some (.imm w)) :
      Expands n frame kids v .mulImm
        [.intoReg (.define "imulq" [.imm w, .vreg lhs, .vreg v])] (.reg v)
  | divide {remainder : Bool} {lhs rhs : VReg} (hlhs : kids[0]? = some (.reg lhs))
      (hrhs : kids[1]? = some (.reg rhs)) :
      Expands n frame kids v (.divide remainder)
        [.define "movq" [.vreg lhs, .phys .rax], { mnemonic := "cqto", operands := [] },
          { mnemonic := "idivq", operands := [.vreg rhs] },
          moveTo v (.phys (if remainder then .rdx else .rax))] (.reg v)
  | shift {mnemonic : String} {lhs : VReg} {w : Word} (hlhs : kids[0]? = some (.reg lhs))
      (hw : kids[1]? = some (.imm w)) :
      Expands n frame kids v (.shift mnemonic)
        [moveTo v (.vreg lhs), .update mnemonic [.imm (w &&& 63), .vreg v]] (.reg v)
  | shiftByReg {mnemonic : String} {lhs amount : VReg} (hlhs : kids[0]? = some (.reg lhs))
      (hamount : kids[1]? = some (.reg amount)) :
      Expands n frame kids v (.shiftByReg mnemonic)
        [.define "movq" [.vreg amount, .phys .rcx], moveTo v (.vreg lhs),
          .update mnemonic [.reg (.phys .rcx) 1, .vreg v]] (.reg v)
  | compare {p : Predicate} {lhs : VReg} {rhs : Machine.Operand}
      (hlhs : kids[0]? = some (.reg lhs)) (hrhs : kids[1]?.bind Bound.operand? = some rhs)
      (hp : n.predicate = some p) :
      Expands n frame kids v .compare
        [{ mnemonic := "cmpq", operands := [rhs, .vreg lhs] }] (.cond p)
  | extendWhole {action : Action} {u : VReg} (h : action = .signExtend ∨ action = .zeroExtend)
      (hu : kids[0]? = some (.reg u)) : Expands n frame kids v action [] (.reg u)
  | signExtend {u : VReg} {bits : Nat} (hu : kids[0]? = some (.reg u)) (hbits : bits < 64) :
      Expands n frame kids v .signExtend (extendInsts true bits u v) (.reg v)
  | zeroExtend {u : VReg} {bits : Nat} (hu : kids[0]? = some (.reg u)) (hbits : bits < 64) :
      Expands n frame kids v .zeroExtend (extendInsts false bits u v) (.reg v)
  | rename {u : VReg} (hu : kids[0]? = some (.reg u)) : Expands n frame kids v .rename [] (.reg u)
  | jump {l : LabelId} (hl : kids[0]? = some (.label l)) :
      Expands n frame kids v .jump [jumpTo l] .none
  | branchCond {p : Predicate} {l l' : LabelId} (hp : kids[0]? = some (.cond p))
      (hl : kids[1]? = some (.label l)) (hl' : kids[2]? = some (.label l')) :
      Expands n frame kids v .branchCond [branchTo (jumpMnemonic p) l, jumpTo l'] .none
  | branchTest {u : VReg} {l l' : LabelId} (hu : kids[0]? = some (.reg u))
      (hl : kids[1]? = some (.label l)) (hl' : kids[2]? = some (.label l')) :
      Expands n frame kids v .branchTest
        [{ mnemonic := "testq", operands := [.vreg u, .vreg u] }, branchTo "jne" l, jumpTo l'] .none
  | retVoid (h : kids = []) :
      Expands n frame kids v .ret [{ mnemonic := "ret", operands := [], kind := .ret }] .none
  | retImm {w : Word} (h : kids[0]? = some (.imm w)) :
      Expands n frame kids v .ret
        [loadConstant w (.phys .rax), { mnemonic := "ret", operands := [], kind := .ret }] .none
  | ret {o : Machine.Operand} (h : kids[0]?.bind Bound.operand? = some o)
      (hvariable : ∀ w, o ≠ .imm w) :
      Expands n frame kids v .ret
        [.define "movq" [o, .phys .rax], { mnemonic := "ret", operands := [], kind := .ret }] .none
  | arguments : Expands n frame kids v .arguments [] (.args kids)
  | callVoid {args : List Bound} {os : List Machine.Operand} (h : kids[0]? = some (.args args))
      (hos : List.Forall₂ (fun b o ↦ b.operand? = some o) args os) (hwidth : n.width = 0) :
      Expands n frame kids v .call (callCode (n.callee.getD "") os none) .none
  | call {args : List Bound} {os : List Machine.Operand} (h : kids[0]? = some (.args args))
      (hos : List.Forall₂ (fun b o ↦ b.operand? = some o) args os) (hwidth : n.width ≠ 0) :
      Expands n frame kids v .call (callCode (n.callee.getD "") os (some v)) (.reg v)
  | phiInput {o : Machine.Operand} (h : kids[0]?.bind Bound.operand? = some o) :
      Expands n frame kids v .phiInput [] .none

/-! ## Steps of actions -/

/-- The state after drawing a register. -/
def Workspace.drawn (w : Workspace) : Workspace := { w with code := w.code.freshVReg.2 }

/-- The state after emitting an instruction. -/
def Workspace.emitted (w : Workspace) (i : Machine.Inst) : Workspace :=
  { w with
    session := (w.session.countInst i.mnemonic).report (.emitted w.code.name i)
    code := w.code.emit i }

theorem Workspace.emits_drawn (w : Workspace) : Emits w w.drawn [] :=
  ⟨rfl, (modify_append_nil _ _).symm, Nat.le_succ _, .refl _, rfl, rfl, rfl⟩

theorem Workspace.emits_emitted (w : Workspace) (i : Machine.Inst) : Emits w (w.emitted i) [i] :=
  ⟨rfl, rfl, Nat.le_refl _, .refl _, rfl, rfl, rfl⟩

theorem Workspace.emits_foldl (w : Workspace) (is : List Machine.Inst) :
    Emits w (is.foldl emitted w) is := by
  induction is generalizing w with
  | nil => exact .refl w
  | cons i is ih => exact (w.emits_emitted i).trans (ih (w.emitted i))

section Steps

variable {r : Rule} {id : NodeId} {kids : List Bound} {b : Bound} {w w' : Workspace} {v : VReg}
  {idx : Nat} {o : Machine.Operand} {i : Machine.Inst}

theorem failBinding_ne_ok {α : Type} {f : BindingFault} {x : α} :
    (failBinding r f : Work α) w ≠ .ok x w' := throw_ne_ok

theorem leafResult_ok_iff : leafResult r kids idx w = .ok b w' ↔ kids[idx]? = some b ∧ w' = w := by
  rw [leafResult]
  cases h : kids[idx]? with
  | some b' => simp [eq_comm (a := b)]
  | none => simp [failBinding_ne_ok]

theorem asOperand_ok_iff : asOperand r b w = .ok o w' ↔ b.operand? = some o ∧ w' = w := by
  cases b <;> simp [asOperand, Bound.operand?, failBinding_ne_ok, eq_comm (a := o)]

theorem asReg_ok_iff : asReg r b w = .ok v w' ↔ b = .reg v ∧ w' = w := by
  cases b <;> simp [asReg, failBinding_ne_ok, eq_comm (a := v)]

theorem asImm_ok_iff {x : Word} : asImm r b w = .ok x w' ↔ b = .imm x ∧ w' = w := by
  cases b <;> simp [asImm, failBinding_ne_ok, eq_comm (a := x)]

theorem asAddress_ok_iff {m : Mem} : asAddress r b w = .ok m w' ↔ b.address? = some m ∧ w' = w := by
  cases b <;> simp [asAddress, Bound.address?, failBinding_ne_ok, eq_comm (a := m)]

theorem asLabel_ok_iff {l : LabelId} : asLabel r b w = .ok l w' ↔ b = .label l ∧ w' = w := by
  cases b <;> simp [asLabel, failBinding_ne_ok, eq_comm (a := l)]

theorem asCond_ok_iff {p : Predicate} : asCond r b w = .ok p w' ↔ b = .cond p ∧ w' = w := by
  cases b <;> simp [asCond, failBinding_ne_ok, eq_comm (a := p)]

theorem node_ok_iff {n : Node} : node id w = .ok n w' ↔ n = w.forest.node id ∧ w' = w := by
  simp [node, and_comm]

theorem freshVReg_ok_iff : Work.freshVReg w = .ok v w' ↔ v = w.code.vregs ∧ w' = w.drawn :=
  modifyGet_eq_ok

theorem emit_ok_iff {u : Unit} : Work.emit i w = .ok u w' ↔ w' = w.emitted i := by
  simp [Work.emit, Work.append, report, modifySession, modifyCode, Workspace.emitted]

theorem emitAll_ok_iff {is : List Machine.Inst} {u : Unit} :
    emitAll is w = .ok u w' ↔ w' = is.foldl Workspace.emitted w := by
  induction is generalizing w with
  | nil => simp [emitAll]
  | cons i is ih =>
    have hcons : emitAll (i :: is) = (do emit i; emitAll is) := rfl
    rw [hcons, bind_eq_ok, List.foldl_cons]
    simp only [emit_ok_iff, ih, exists_eq_left, exists_const]

theorem emitOnCopy_ok_iff {lhs : VReg} {operation : VReg → Machine.Inst} :
    emitOnCopy lhs operation w = .ok b w' ↔ b = .reg w.code.vregs ∧
      w' = [moveTo w.code.vregs (.vreg lhs), operation w.code.vregs].foldl Workspace.emitted
        w.drawn := by
  simp only [emitOnCopy, bind_eq_ok, freshVReg_ok_iff, emit_ok_iff, pure_eq_ok, List.foldl_cons,
    List.foldl_nil]
  constructor
  · rintro ⟨_, _, ⟨rfl, rfl⟩, _, _, rfl, _, _, rfl, rfl, rfl⟩
    exact ⟨rfl, rfl⟩
  · rintro ⟨rfl, rfl⟩
    exact ⟨_, _, ⟨rfl, rfl⟩, (), _, rfl, (), _, rfl, rfl, rfl⟩

/-- Drawing a register and then emitting instructions. -/
theorem Workspace.emits_drawn_foldl (w : Workspace) (is : List Machine.Inst) :
    Emits w (is.foldl emitted w.drawn) is :=
  w.emits_drawn.trans (w.drawn.emits_foldl is)

@[simp]
theorem Workspace.forest_drawn (w : Workspace) : w.drawn.forest = w.forest := rfl

@[simp]
theorem Workspace.forest_foldl (w : Workspace) (is : List Machine.Inst) :
    (is.foldl emitted w).forest = w.forest := by
  induction is generalizing w with
  | nil => rfl
  | cons i is ih => exact ih (w.emitted i)

end Steps

/-! ## All actions -/

section Actions

variable {r : Rule} {id : NodeId} {kids : List Bound} {b : Bound} {w w' : Workspace} {v : VReg}
  {is : List Machine.Inst} {action : Action}

/-- What an action does: it emits instructions and gives a result. -/
def Does (w : Workspace) (id : NodeId) (kids : List Bound) (action : Action) (b : Bound)
    (w' : Workspace) : Prop :=
  ∃ is, Expands (w.forest.node id) w.code.frame kids w.code.vregs action is b ∧ Emits w w' is ∧
    w.forest.SameButRoles w'.forest

theorem Does.nothing (h : Expands (w.forest.node id) w.code.frame kids w.code.vregs action [] b) :
    Does w id kids action b w :=
  ⟨[], h, .refl _, .refl _⟩

theorem Does.emit (h : Expands (w.forest.node id) w.code.frame kids w.code.vregs action is b) :
    Does w id kids action b (is.foldl Workspace.emitted w) :=
  ⟨is, h, w.emits_foldl is, by rw [Workspace.forest_foldl]; exact .refl _⟩

theorem Does.draw (h : Expands (w.forest.node id) w.code.frame kids w.code.vregs action is b) :
    Does w id kids action b (is.foldl Workspace.emitted w.drawn) :=
  ⟨is, h, w.emits_drawn_foldl is, by rw [Workspace.forest_foldl]; exact .refl _⟩

@[simp]
theorem Workspace.vregs_foldl (w : Workspace) (is : List Machine.Inst) :
    (is.foldl emitted w).code.vregs = w.code.vregs := by
  induction is generalizing w with
  | nil => rfl
  | cons i is ih => exact ih (w.emitted i)

theorem address?_of_kid {idx : Nat} {m : Mem} (h : kids[idx]? = some b) (hm : b.address? = some m) :
    kids[idx]?.bind Bound.address? = some m := by
  rw [h]
  exact hm

theorem operand?_of_kid {idx : Nat} {o : Machine.Operand} (h : kids[idx]? = some b)
    (ho : b.operand? = some o) : kids[idx]?.bind Bound.operand? = some o := by
  rw [h]
  exact ho

theorem emitExtension_eq_ok {signed : Bool} {src : VReg} (h : emitExtension signed id src w = .ok b w') :
    b = .reg src ∧ w' = w ∨ ∃ bits < 64, b = .reg w.code.vregs ∧
      w' = (extendInsts signed bits src w.code.vregs).foldl Workspace.emitted w.drawn := by
  simp only [emitExtension, firstKidWidth, bind_eq_ok, get_eq_ok, pure_eq_ok] at h
  obtain ⟨bits, _, ⟨_, _, ⟨rfl, rfl⟩, -, rfl⟩, h⟩ := h
  split at h
  next => exact Or.inl (pure_eq_ok.mp h)
  next hbits =>
    simp only [bind_eq_ok, freshVReg_ok_iff, emitAll_ok_iff, pure_eq_ok] at h
    obtain ⟨_, _, ⟨rfl, rfl⟩, _, _, rfl, rfl, rfl⟩ := h
    exact Or.inr ⟨bits, Nat.lt_of_not_le hbits, rfl, rfl⟩

theorem emitStore_does (h : emitStore r id kids w = .ok b w') : Does w id kids .store b w' := by
  simp only [emitStore, bind_eq_ok, node_ok_iff, leafResult_ok_iff] at h
  obtain ⟨n, _, ⟨rfl, rfl⟩, kid, _, ⟨hkid, rfl⟩, h⟩ := h
  cases kid with
  | reg v =>
    simp only [pure_bind, bind_eq_ok, leafResult_ok_iff, asAddress_ok_iff, emit_ok_iff,
      pure_eq_ok] at h
    obtain ⟨kid', _, ⟨hkid', rfl⟩, m, _, ⟨hm, rfl⟩, _, _, rfl, rfl, rfl⟩ := h
    exact .emit (.storeReg hkid (address?_of_kid hkid' hm))
  | imm value =>
    simp only [pure_bind, bind_eq_ok, leafResult_ok_iff, asAddress_ok_iff, emit_ok_iff,
      pure_eq_ok] at h
    obtain ⟨kid', _, ⟨hkid', rfl⟩, m, _, ⟨hm, rfl⟩, _, _, rfl, rfl, rfl⟩ := h
    exact .emit (.storeImm hkid (address?_of_kid hkid' hm))
  | _ =>
    obtain ⟨_, _, hfail, -⟩ := bind_eq_ok.mp h
    exact absurd hfail failBinding_ne_ok

/-- Pushing arguments one after the other. -/
theorem pushAll_eq_ok {args : List Bound} {u : Unit}
    (h : (args.forM fun a ↦ do
      Work.emit { mnemonic := "pushq", operands := [← asOperand r a] } : Work Unit) w = .ok u w') :
    ∃ os, List.Forall₂ (fun b o ↦ b.operand? = some o) args os ∧
      w' = (os.map fun o ↦ { mnemonic := "pushq", operands := [o] }).foldl Workspace.emitted w := by
  induction args generalizing w with
  | nil =>
    obtain ⟨-, rfl⟩ := pure_eq_ok.mp h
    exact ⟨[], .nil, rfl⟩
  | cons a args ih =>
    obtain ⟨_, w₁, ha, hargs⟩ := bind_eq_ok.mp h
    simp only [bind_eq_ok, asOperand_ok_iff, emit_ok_iff] at ha
    obtain ⟨o, _, ⟨ho, rfl⟩, rfl⟩ := ha
    obtain ⟨os, hos, rfl⟩ := ih hargs
    exact ⟨o :: os, .cons ho hos, rfl⟩

/-- The end of a call, once the arguments are off the stack. -/
theorem callResult_eq_ok {width : Nat}
    (h : (do
      if width = 0 then return Bound.none
      let dst ← freshVReg
      Work.emit (moveTo dst (.phys .rax))
      return Bound.reg dst : Work Bound) w = .ok b w') :
    width = 0 ∧ b = .none ∧ w' = w ∨ width ≠ 0 ∧ b = .reg w.code.vregs ∧
      w' = w.drawn.emitted (moveTo w.code.vregs (.phys .rax)) := by
  split at h
  next hwidth =>
    obtain ⟨rfl, rfl⟩ := pure_eq_ok.mp h
    exact Or.inl ⟨hwidth, rfl, rfl⟩
  next hwidth =>
    simp only [bind_eq_ok, freshVReg_ok_iff, emit_ok_iff, pure_eq_ok] at h
    obtain ⟨_, _, ⟨rfl, rfl⟩, _, _, rfl, rfl, rfl⟩ := h
    exact Or.inr ⟨hwidth, rfl, rfl⟩

/-- Taking the arguments of a call off the stack. -/
theorem popArguments_eq_ok {args : List Bound} {x : Work Bound}
    (h : (if args.isEmpty then x else do
      Work.emit (.update "addq" [.imm (BitVec.ofNat 64 (8 * args.length)), .phys .rsp])
      x : Work Bound) w = .ok b w') :
    x ((popCode args.length).foldl Workspace.emitted w) = .ok b w' := by
  cases args with
  | nil => exact h
  | cons a args =>
    obtain ⟨_, _, hemit, h⟩ := bind_eq_ok.mp h
    obtain rfl := emit_ok_iff.mp hemit
    exact h

theorem callCode_append (callee : String) (os : List Machine.Operand) (v : VReg) :
    callCode callee os (some v) = callCode callee os none ++ [moveTo v (.phys .rax)] := by
  simp [callCode]

theorem emitCall_does {args : List Bound} (hkid : kids[0]? = some (.args args))
    (h : emitCall r id args w = .ok b w') : Does w id kids .call b w' := by
  rw [emitCall, bind_eq_ok] at h
  obtain ⟨_, w₁, hpush, h⟩ := h
  obtain ⟨os, hos, rfl⟩ := pushAll_eq_ok hpush
  have hargs : List.Forall₂ (fun b o ↦ b.operand? = some o) args os.reverse := by
    rw [← List.forall₂_reverse_iff, List.reverse_reverse]
    exact hos
  simp only [bind_eq_ok, node_ok_iff, emit_ok_iff, Workspace.forest_foldl] at h
  obtain ⟨n, _, ⟨rfl, rfl⟩, _, _, rfl, h⟩ := h
  -- the state once the arguments are off the stack again
  obtain ⟨w₂, hw₂⟩ : ∃ w₂, w₂ =
      (callCode ((w.forest.node id).callee.getD "") os.reverse none).foldl Workspace.emitted w :=
    ⟨_, rfl⟩
  have hstate : (popCode args.length).foldl Workspace.emitted
      (((os.map fun o ↦ { mnemonic := "pushq", operands := [o] }).foldl Workspace.emitted w).emitted
        { mnemonic := "call", operands := [.symbol ((w.forest.node id).callee.getD "")],
          kind := .call }) = w₂ := by
    rw [hw₂, callCode, List.reverse_reverse, Option.map_none, Option.toList_none, List.append_nil,
      List.foldl_append, List.foldl_cons, hargs.length_eq]
  have hresult := popArguments_eq_ok h
  rw [hstate] at hresult
  have hvregs : w₂.code.vregs = w.code.vregs := by rw [hw₂, Workspace.vregs_foldl]
  have hforest : w₂.forest = w.forest := by rw [hw₂, Workspace.forest_foldl]
  have hemits : Emits w w₂ (callCode ((w.forest.node id).callee.getD "") os.reverse none) :=
    hw₂ ▸ w.emits_foldl _
  rcases callResult_eq_ok hresult with ⟨hwidth, rfl, rfl⟩ | ⟨hwidth, rfl, rfl⟩
  · exact ⟨_, .callVoid hkid hargs hwidth, hemits, hforest ▸ .refl _⟩
  · rw [hvregs]
    refine ⟨_, .call hkid hargs hwidth, ?_, ?_⟩
    · rw [callCode_append]
      exact hemits.trans (w₂.emits_drawn_foldl [_])
    · change w.forest.SameButRoles w₂.forest
      exact hforest ▸ .refl _

/-- **Actions.** An action that succeeds emits one of its expansions, and gives the result of that. -/
theorem applyRule_expands (h : applyRule r id kids w = .ok b w') (hphi : r.action ≠ .phiInput) :
    Does w id kids r.action b w' := by
  rw [applyRule] at h
  cases haction : r.action with
  | immediate =>
    simp only [haction, bind_eq_ok, node_ok_iff] at h
    obtain ⟨n, _, ⟨hn, rfl⟩, h⟩ := h
    cases hslot : n.slot with
    | imm value =>
      rw [hslot] at h
      obtain ⟨rfl, rfl⟩ := pure_eq_ok.mp h
      exact .nothing (.immediate (hn ▸ hslot))
    | _ =>
      rw [hslot] at h
      exact absurd h failBinding_ne_ok
  | register =>
    simp only [haction, bind_eq_ok, node_ok_iff] at h
    obtain ⟨n, _, ⟨hn, rfl⟩, h⟩ := h
    cases hslot : n.slot with
    | vreg v =>
      rw [hslot] at h
      obtain ⟨rfl, rfl⟩ := pure_eq_ok.mp h
      exact .nothing (.register (hn ▸ hslot))
    | _ =>
      rw [hslot] at h
      exact absurd h failBinding_ne_ok
  | memory =>
    simp only [haction, bind_eq_ok, node_ok_iff] at h
    obtain ⟨n, _, ⟨hn, rfl⟩, h⟩ := h
    cases hslot : n.slot with
    | mem m =>
      rw [hslot] at h
      obtain ⟨rfl, rfl⟩ := pure_eq_ok.mp h
      exact .nothing (.memory (hn ▸ hslot))
    | _ =>
      rw [hslot] at h
      exact absurd h failBinding_ne_ok
  | label =>
    simp only [haction, bind_eq_ok, node_ok_iff] at h
    obtain ⟨n, _, ⟨hn, rfl⟩, h⟩ := h
    cases hslot : n.slot with
    | label l =>
      rw [hslot] at h
      obtain ⟨rfl, rfl⟩ := pure_eq_ok.mp h
      exact .nothing (.label (hn ▸ hslot))
    | _ =>
      rw [hslot] at h
      exact absurd h failBinding_ne_ok
  | nothing =>
    simp only [haction, pure_eq_ok] at h
    obtain ⟨rfl, rfl⟩ := h
    exact .nothing .nothing
  | discard =>
    simp only [haction, pure_eq_ok] at h
    obtain ⟨rfl, rfl⟩ := h
    exact .nothing .discard
  | loadImm =>
    simp only [haction, bind_eq_ok, leafResult_ok_iff, asImm_ok_iff, freshVReg_ok_iff, emit_ok_iff,
      pure_eq_ok] at h
    obtain ⟨_, _, ⟨hkid, rfl⟩, value, _, ⟨rfl, rfl⟩, _, _, ⟨rfl, rfl⟩, _, _, rfl, rfl, rfl⟩ := h
    exact .draw (.loadImm hkid)
  | loadMem =>
    simp only [haction, bind_eq_ok, leafResult_ok_iff] at h
    obtain ⟨kid, _, ⟨hkid, rfl⟩, h⟩ := h
    cases kid with
    | reg v =>
      obtain ⟨rfl, rfl⟩ := pure_eq_ok.mp h
      exact .nothing (.loadMemReg hkid)
    | mem m =>
      simp only [bind_eq_ok, freshVReg_ok_iff, emit_ok_iff, pure_eq_ok] at h
      obtain ⟨_, _, ⟨rfl, rfl⟩, _, _, rfl, rfl, rfl⟩ := h
      exact .draw (.loadMem hkid)
    | _ => exact absurd h failBinding_ne_ok
  | lea =>
    simp only [haction, bind_eq_ok, leafResult_ok_iff, asAddress_ok_iff] at h
    obtain ⟨kid, _, ⟨hkid, rfl⟩, m, _, ⟨hm, rfl⟩, h⟩ := h
    split at h
    next base =>
      obtain ⟨rfl, rfl⟩ := pure_eq_ok.mp h
      exact .nothing (.leaBase (address?_of_kid hkid hm))
    next =>
      simp only [bind_eq_ok, freshVReg_ok_iff, emit_ok_iff, pure_eq_ok] at h
      obtain ⟨_, _, ⟨rfl, rfl⟩, _, _, rfl, rfl, rfl⟩ := h
      exact .draw (.lea (address?_of_kid hkid hm))
  | addrBase =>
    simp only [haction, bind_eq_ok, leafResult_ok_iff, asAddress_ok_iff, pure_eq_ok] at h
    obtain ⟨kid, _, ⟨hkid, rfl⟩, m, _, ⟨hm, rfl⟩, rfl, rfl⟩ := h
    exact .nothing (.addrBase (address?_of_kid hkid hm))
  | setCond =>
    simp only [haction, bind_eq_ok, leafResult_ok_iff, asCond_ok_iff, freshVReg_ok_iff, emit_ok_iff,
      pure_eq_ok] at h
    obtain ⟨_, _, ⟨hkid, rfl⟩, p, _, ⟨rfl, rfl⟩, _, _, ⟨rfl, rfl⟩, _, _, rfl, _, _, rfl, rfl, rfl⟩ := h
    exact .draw (.setCond hkid)
  | fold =>
    simp only [haction, bind_eq_ok, node_ok_iff] at h
    obtain ⟨n, _, ⟨hn, rfl⟩, h⟩ := h
    cases hop : n.opcode? with
    | none =>
      rw [hop] at h
      exact absurd h failBinding_ne_ok
    | some op =>
      simp only [hop, bind_eq_ok, leafResult_ok_iff, asImm_ok_iff] at h
      obtain ⟨_, _, ⟨ha, rfl⟩, x, _, ⟨rfl, rfl⟩, _, _, ⟨hb, rfl⟩, y, _, ⟨rfl, rfl⟩, h⟩ := h
      cases hvalue : op.fold? x y with
      | some value =>
        rw [hvalue] at h
        obtain ⟨rfl, rfl⟩ := pure_eq_ok.mp h
        exact .nothing (.fold (hn ▸ hop) ha hb hvalue)
      | none =>
        rw [hvalue] at h
        exact absurd h failBinding_ne_ok
  | frameSlot =>
    simp only [haction, bind_eq_ok, node_ok_iff] at h
    obtain ⟨n, _, ⟨hn, rfl⟩, h⟩ := h
    cases hsource : n.source with
    | none =>
      rw [hsource] at h
      exact absurd h failBinding_ne_ok
    | some source =>
      simp only [hsource, bind_eq_ok, pure_eq_ok] at h
      obtain ⟨m, w₁, hm, _, w₂, hroles, rfl, rfl⟩ := h
      have hemits := emits_requestSlot hm
      obtain ⟨rfl, session, -, rfl⟩ := requestSlot_eq_ok hm
      obtain rfl := modify_eq_ok.mp hroles
      refine ⟨[], ?_, hemits.trans
        ⟨rfl, (modify_append_nil _ _).symm, Nat.le_refl _, .refl _, rfl, rfl, rfl⟩,
        .updateRoles _ id fun roles ↦ { roles with memory := true }⟩
      rw [hn]
      exact .frameSlot (hn ▸ hsource)
  | addrDisp =>
    simp only [haction, bind_eq_ok, leafResult_ok_iff, asAddress_ok_iff, asImm_ok_iff] at h
    obtain ⟨kid, _, ⟨hkid, rfl⟩, m, _, ⟨hm, rfl⟩, kid', _, ⟨hkid', rfl⟩, value, _, ⟨rfl, rfl⟩, h⟩ := h
    obtain ⟨m', _, hdisplace, hpure⟩ := h
    obtain ⟨rfl, rfl⟩ := pure_eq_ok.mp hpure
    rw [displace] at hdisplace
    split at hdisplace
    next hfits =>
      obtain ⟨rfl, rfl⟩ := pure_eq_ok.mp hdisplace
      rw [Bool.and_eq_true] at hfits
      exact .nothing (.addrDisp (address?_of_kid hkid hm) hkid' hfits)
    next => exact absurd hdisplace failBinding_ne_ok
  | addrIndex =>
    simp only [haction, bind_eq_ok, leafResult_ok_iff, asReg_ok_iff] at h
    obtain ⟨_, _, ⟨hbase, rfl⟩, base, _, ⟨rfl, rfl⟩, _, _, ⟨hindex, rfl⟩, index, _, ⟨rfl, rfl⟩, h⟩ := h
    cases hkid : kids[2]? with
    | none =>
      simp only [hkid, bind_eq_ok, pure_eq_ok] at h
      obtain ⟨_, _, ⟨rfl, rfl⟩, rfl, rfl⟩ := h
      exact .nothing (.addrIndex hbase hindex hkid)
    | some kid =>
      simp only [hkid, bind_eq_ok, asImm_ok_iff, pure_eq_ok] at h
      obtain ⟨value, _, ⟨rfl, rfl⟩, _, _, ⟨rfl, rfl⟩, rfl, rfl⟩ := h
      exact .nothing (.addrScaled hbase hindex hkid)
  | memFromAddr =>
    simp only [haction, bind_eq_ok, leafResult_ok_iff, asAddress_ok_iff, pure_eq_ok] at h
    obtain ⟨kid, _, ⟨hkid, rfl⟩, m, _, ⟨hm, rfl⟩, rfl, rfl⟩ := h
    exact .nothing (.memFromAddr (address?_of_kid hkid hm))
  | load =>
    simp only [haction, bind_eq_ok, leafResult_ok_iff, asAddress_ok_iff, node_ok_iff,
      freshVReg_ok_iff, emit_ok_iff, pure_eq_ok] at h
    obtain ⟨kid, _, ⟨hkid, rfl⟩, m, _, ⟨hm, rfl⟩, n, _, ⟨rfl, rfl⟩, _, _, ⟨rfl, rfl⟩, _, _, rfl, rfl,
      rfl⟩ := h
    exact .draw (.load (address?_of_kid hkid hm))
  | store =>
    rw [haction] at h
    exact emitStore_does h
  | binary mnemonic =>
    simp only [haction, bind_eq_ok, leafResult_ok_iff, asReg_ok_iff, asOperand_ok_iff,
      emitOnCopy_ok_iff] at h
    obtain ⟨_, _, ⟨hlhs, rfl⟩, lhs, _, ⟨rfl, rfl⟩, kid, _, ⟨hkid, rfl⟩, rhs, _, ⟨hrhs, rfl⟩, rfl,
      rfl⟩ := h
    exact .draw (.binary hlhs (operand?_of_kid hkid hrhs))
  | mulImm =>
    simp only [haction, bind_eq_ok, leafResult_ok_iff, asReg_ok_iff, asImm_ok_iff,
      freshVReg_ok_iff, emit_ok_iff, pure_eq_ok] at h
    obtain ⟨_, _, ⟨hlhs, rfl⟩, lhs, _, ⟨rfl, rfl⟩, _, _, ⟨hkid, rfl⟩, value, _, ⟨rfl, rfl⟩, _, _,
      ⟨rfl, rfl⟩, _, _, rfl, rfl, rfl⟩ := h
    exact .draw (.mulImm hlhs hkid)
  | divide remainder =>
    simp only [haction, bind_eq_ok, leafResult_ok_iff, asReg_ok_iff, emitDivision,
      freshVReg_ok_iff, emit_ok_iff, pure_eq_ok] at h
    obtain ⟨_, _, ⟨hlhs, rfl⟩, lhs, _, ⟨rfl, rfl⟩, _, _, ⟨hrhs, rfl⟩, rhs, _, ⟨rfl, rfl⟩, _, _, rfl,
      _, _, rfl, _, _, rfl, _, _, ⟨rfl, rfl⟩, _, _, rfl, rfl, rfl⟩ := h
    -- the register for the result is drawn after the division itself
    exact ⟨_, .divide hlhs hrhs, ((Workspace.emits_foldl _ [_, _, _]).trans
      (Workspace.emits_drawn _)).trans (Workspace.emits_emitted _ _), .refl _⟩
  | shift mnemonic =>
    simp only [haction, bind_eq_ok, leafResult_ok_iff, asReg_ok_iff, asImm_ok_iff,
      emitOnCopy_ok_iff] at h
    obtain ⟨_, _, ⟨hlhs, rfl⟩, lhs, _, ⟨rfl, rfl⟩, _, _, ⟨hkid, rfl⟩, value, _, ⟨rfl, rfl⟩, rfl,
      rfl⟩ := h
    exact .draw (.shift hlhs hkid)
  | shiftByReg mnemonic =>
    simp only [haction, bind_eq_ok, leafResult_ok_iff, asReg_ok_iff, emit_ok_iff,
      emitOnCopy_ok_iff] at h
    obtain ⟨_, _, ⟨hlhs, rfl⟩, lhs, _, ⟨rfl, rfl⟩, _, _, ⟨hkid, rfl⟩, amount, _, ⟨rfl, rfl⟩, _, _,
      rfl, rfl, rfl⟩ := h
    exact ⟨_, .shiftByReg hlhs hkid, (Workspace.emits_emitted _ _).trans
      (Workspace.emits_drawn_foldl _ _), .refl _⟩
  | compare =>
    simp only [haction, bind_eq_ok, leafResult_ok_iff, asReg_ok_iff, asOperand_ok_iff,
      node_ok_iff] at h
    obtain ⟨_, _, ⟨hlhs, rfl⟩, lhs, _, ⟨rfl, rfl⟩, kid, _, ⟨hkid, rfl⟩, rhs, _, ⟨hrhs, rfl⟩, n, _,
      ⟨hn, rfl⟩, h⟩ := h
    cases hp : n.predicate with
    | none =>
      rw [hp] at h
      exact absurd h failBinding_ne_ok
    | some p =>
      simp only [hp, bind_eq_ok, emit_ok_iff, pure_eq_ok] at h
      obtain ⟨_, _, rfl, rfl, rfl⟩ := h
      exact .emit (.compare hlhs (operand?_of_kid hkid hrhs) (hn ▸ hp))
  | signExtend =>
    simp only [haction, bind_eq_ok, leafResult_ok_iff, asReg_ok_iff] at h
    obtain ⟨_, _, ⟨hkid, rfl⟩, src, _, ⟨rfl, rfl⟩, h⟩ := h
    rcases emitExtension_eq_ok h with ⟨rfl, rfl⟩ | ⟨bits, hbits, rfl, rfl⟩
    · exact .nothing (.extendWhole (Or.inl rfl) hkid)
    · exact .draw (.signExtend hkid hbits)
  | zeroExtend =>
    simp only [haction, bind_eq_ok, leafResult_ok_iff, asReg_ok_iff] at h
    obtain ⟨_, _, ⟨hkid, rfl⟩, src, _, ⟨rfl, rfl⟩, h⟩ := h
    rcases emitExtension_eq_ok h with ⟨rfl, rfl⟩ | ⟨bits, hbits, rfl, rfl⟩
    · exact .nothing (.extendWhole (Or.inr rfl) hkid)
    · exact .draw (.zeroExtend hkid hbits)
  | rename =>
    simp only [haction, bind_eq_ok, leafResult_ok_iff, asReg_ok_iff, pure_eq_ok] at h
    obtain ⟨_, _, ⟨hkid, rfl⟩, src, _, ⟨rfl, rfl⟩, rfl, rfl⟩ := h
    exact .nothing (.rename hkid)
  | jump =>
    simp only [haction, bind_eq_ok, leafResult_ok_iff, asLabel_ok_iff, emit_ok_iff,
      pure_eq_ok] at h
    obtain ⟨_, _, ⟨hkid, rfl⟩, l, _, ⟨rfl, rfl⟩, _, _, rfl, rfl, rfl⟩ := h
    exact .emit (.jump hkid)
  | branchCond =>
    simp only [haction, bind_eq_ok, leafResult_ok_iff, asLabel_ok_iff, asCond_ok_iff, emit_ok_iff,
      pure_eq_ok] at h
    obtain ⟨_, _, ⟨hkid, rfl⟩, p, _, ⟨rfl, rfl⟩, _, _, ⟨hl, rfl⟩, l, _, ⟨rfl, rfl⟩, _, _,
      ⟨hl', rfl⟩, l', _, ⟨rfl, rfl⟩, _, _, rfl, _, _, rfl, rfl, rfl⟩ := h
    exact .emit (.branchCond hkid hl hl')
  | branchTest =>
    simp only [haction, bind_eq_ok, leafResult_ok_iff, asLabel_ok_iff, asReg_ok_iff, emit_ok_iff,
      pure_eq_ok] at h
    obtain ⟨_, _, ⟨hkid, rfl⟩, p, _, ⟨rfl, rfl⟩, _, _, ⟨hl, rfl⟩, l, _, ⟨rfl, rfl⟩, _, _,
      ⟨hl', rfl⟩, l', _, ⟨rfl, rfl⟩, _, _, rfl, _, _, rfl, _, _, rfl, rfl, rfl⟩ := h
    exact .emit (.branchTest hkid hl hl')
  | ret =>
    rw [haction] at h
    cases kids with
    | nil =>
      simp only [List.head?_nil, bind_eq_ok, emit_ok_iff, pure_eq_ok] at h
      obtain ⟨_, _, rfl, rfl, rfl⟩ := h
      exact .emit (.retVoid rfl)
    | cons kid kids =>
      cases kid with
      | imm value =>
        simp only [List.head?_cons, bind_eq_ok, emit_ok_iff, pure_eq_ok] at h
        obtain ⟨_, _, rfl, _, _, rfl, rfl, rfl⟩ := h
        exact .emit (.retImm rfl)
      | _ =>
        simp only [List.head?_cons, bind_eq_ok, asOperand_ok_iff, emit_ok_iff, pure_eq_ok] at h
        obtain ⟨o, _, ⟨ho, rfl⟩, _, _, rfl, _, _, rfl, rfl, rfl⟩ := h
        refine .emit (.ret (operand?_of_kid (List.getElem?_cons_zero) ho) ?_)
        rintro value rfl
        exact absurd ho (by simp [Bound.operand?])
  | arguments =>
    simp only [haction, pure_eq_ok] at h
    obtain ⟨rfl, rfl⟩ := h
    exact .nothing .arguments
  | call =>
    simp only [haction, bind_eq_ok, leafResult_ok_iff] at h
    obtain ⟨kid, _, ⟨hkid, rfl⟩, h⟩ := h
    cases kid with
    | args args => exact emitCall_does hkid h
    | _ => exact absurd h failBinding_ne_ok
  | phiInput => exact absurd haction hphi

/-- The action of a phi move hands the result of its leaf to the phi, and emits nothing. -/
theorem applyRule_phiInput (haction : r.action = .phiInput)
    (h : applyRule r id kids w = .ok b w') :
    ∃ owner succ dst value, (w.forest.node id).phiTarget = some (owner, succ) ∧
      (w.forest.node owner).slot = .vreg dst ∧ kids[0]?.bind Bound.operand? = some value ∧
      b = .none ∧ w' = { w with code := w.code.addPhiInput succ dst value } := by
  rw [applyRule, haction] at h
  simp only [bind_eq_ok, leafResult_ok_iff, asOperand_ok_iff, recordPhiInput, node_ok_iff] at h
  obtain ⟨kid, _, ⟨hkid, rfl⟩, value, _, ⟨hvalue, rfl⟩, _, _, ⟨rfl, rfl⟩, h⟩ := h
  rename Workspace => w
  cases htarget : (w.forest.node id).phiTarget with
  | none =>
    rw [htarget] at h
    exact absurd h failBinding_ne_ok
  | some target =>
    obtain ⟨owner, succ⟩ := target
    simp only [htarget, bind_eq_ok, node_ok_iff] at h
    obtain ⟨_, _, ⟨rfl, rfl⟩, h⟩ := h
    rename Workspace => w
    cases hslot : (w.forest.node owner).slot with
    | vreg dst =>
      rw [hslot] at h
      simp only [modifyCode, bind_eq_ok, modify_eq_ok, pure_eq_ok] at h
      obtain ⟨_, _, rfl, rfl, rfl⟩ := h
      exact ⟨owner, succ, dst, value, rfl, hslot, operand?_of_kid hkid hvalue, rfl, rfl⟩
    | _ =>
      rw [hslot] at h
      exact absurd h failBinding_ne_ok

end Actions

end TreeCover
