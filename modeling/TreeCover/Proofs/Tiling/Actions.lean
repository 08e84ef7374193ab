import TreeCover.Proofs.Tiling.Emission
import TreeCover.Tiling.Actions

/-!
# Actions are tidy

Every action reads the registers of its leaves and what it wrote itself, and writes only registers
that it draws. Three actions depend on the state of their node: those that name the register or the
slot of a value, and the one that records the input of a phi.
-/

namespace TreeCover

open Ir Machine Work

variable {given own : List VReg} {r : Rule} {id : NodeId} {kids : List Bound} {v lhs rhs : VReg}

/-! ## Registers -/

/-- The virtual registers of an address. -/
abbrev Machine.Mem.vregs (m : Mem) : List VReg := (Machine.Operand.mem m).vregs

/-- The registers that a result mentions. -/
def Bound.vregs : Bound → List VReg
  | reg v => [v]
  | mem m | addr m => m.vregs
  | args bs => bs.flatMap vregs
  | _ => []

attribute [simp] Machine.Operand.vreg Machine.Operand.phys

@[simp]
theorem vregs_reg (v : VReg) (width : Nat) : (Machine.Operand.reg (.virt v) width).vregs = [v] :=
  rfl

@[simp]
theorem vregs_phys (r : PhysReg) (width : Nat) : (Machine.Operand.reg (.phys r) width).vregs = [] :=
  rfl

@[simp]
theorem vregs_imm (w : Word) : (Machine.Operand.imm w).vregs = [] := rfl

@[simp]
theorem vregs_symbol (name : String) : (Machine.Operand.symbol name).vregs = [] := rfl

@[simp]
theorem vregs_label (l : LabelId) : (Machine.Operand.label l).vregs = [] := rfl

@[simp]
theorem vregs_frame (d : Int) : (Mem.frame d).vregs = [] := rfl

@[simp]
theorem vregs_based (v : VReg) (d : Int) : (Mem.based (.virt v) d).vregs = [v] := rfl

/-! ## Instructions -/

variable (mnemonic : String) (src : Machine.Operand) (width : Nat)

@[simp]
theorem defs_plain (ops : List Machine.Operand) (kind : Kind) (needsRegDst : Bool) :
    (Inst.mk mnemonic ops .none kind needsRegDst).defs = [] := rfl

@[simp]
theorem uses_plain (ops : List Machine.Operand) (kind : Kind) (needsRegDst : Bool) :
    (Inst.mk mnemonic ops .none kind needsRegDst).uses = ops.flatMap (·.vregs) := by
  simp [Inst.uses, Inst.readOperands]

@[simp]
theorem defs_intoReg (i : Machine.Inst) : i.intoReg.defs = i.defs := rfl

@[simp]
theorem uses_intoReg (i : Machine.Inst) : i.intoReg.uses = i.uses := rfl

@[simp]
theorem defs_define : (Inst.define mnemonic [src, .reg (.virt v) width]).defs = [v] := rfl

@[simp]
theorem defs_define_phys (q : PhysReg) :
    (Inst.define mnemonic [src, .reg (.phys q) width]).defs = [] := rfl

@[simp]
theorem uses_define (q : Reg) : (Inst.define mnemonic [src, .reg q width]).uses = src.vregs :=
  List.flatMap_singleton _ _

@[simp]
theorem defs_define_self : (Inst.define mnemonic [.reg (.virt v) width]).defs = [v] := rfl

@[simp]
theorem uses_define_self (q : Reg) : (Inst.define mnemonic [.reg q width]).uses = [] := rfl

@[simp]
theorem defs_define_three (src' : Machine.Operand) :
    (Inst.define mnemonic [src, src', .reg (.virt v) width]).defs = [v] := rfl

@[simp]
theorem uses_define_three (src' : Machine.Operand) (q : Reg) :
    (Inst.define mnemonic [src, src', .reg q width]).uses = src.vregs ++ src'.vregs := by
  simp [Inst.uses, Inst.readOperands, Inst.define, Machine.Operand.isReg]

@[simp]
theorem defs_update : (Inst.update mnemonic [src, .reg (.virt v) width]).defs = [v] := rfl

@[simp]
theorem uses_update :
    (Inst.update mnemonic [src, .reg (.virt v) width]).uses = src.vregs ++ [v] := by
  simp [Inst.uses, Inst.readOperands, Inst.update]

@[simp]
theorem defs_update_phys (q : PhysReg) :
    (Inst.update mnemonic [src, .reg (.phys q) width]).defs = [] := rfl

@[simp]
theorem uses_update_phys (q : PhysReg) :
    (Inst.update mnemonic [src, .reg (.phys q) width]).uses = src.vregs := by
  simp [Inst.uses, Inst.readOperands, Inst.update]

@[simp]
theorem defs_update_self : (Inst.update mnemonic [.reg (.virt v) width]).defs = [v] := rfl

@[simp]
theorem uses_update_self : (Inst.update mnemonic [.reg (.virt v) width]).uses = [v] := rfl

@[simp]
theorem defs_moveTo : (moveTo v src).defs = [v] := rfl

@[simp]
theorem uses_moveTo : (moveTo v src).uses = src.vregs := uses_define _ _ _ _

@[simp]
theorem defs_loadConstant (w : Word) : (loadConstant w (.reg (.virt v) 8)).defs = [v] := by
  rw [loadConstant]
  split <;> rfl

@[simp]
theorem defs_loadConstant_phys (w : Word) (q : PhysReg) :
    (loadConstant w (.reg (.phys q) 8)).defs = [] := by
  rw [loadConstant]
  split <;> rfl

@[simp]
theorem uses_loadConstant (w : Word) (q : Reg) : (loadConstant w (.reg q 8)).uses = [] := by
  rw [loadConstant]
  split <;> rfl

/-! ## Results as operands -/

variable {α : Type} {out : α → List VReg} {b : Bound}

@[simp]
theorem Bound.vregs_reg (v : VReg) : (Bound.reg v).vregs = [v] := by rw [vregs]

@[simp]
theorem Bound.vregs_mem (m : Mem) : (Bound.mem m).vregs = m.vregs := by rw [vregs]

@[simp]
theorem Bound.vregs_addr (m : Mem) : (Bound.addr m).vregs = m.vregs := by rw [vregs]

@[simp]
theorem Bound.vregs_args (bs : List Bound) : (Bound.args bs).vregs = bs.flatMap vregs := by
  rw [vregs]

@[simp]
theorem Bound.vregs_none : Bound.none.vregs = [] := by simp [vregs]

@[simp]
theorem Bound.vregs_imm (w : Word) : (Bound.imm w).vregs = [] := by simp [vregs]

@[simp]
theorem Bound.vregs_cond (p : Predicate) : (Bound.cond p).vregs = [] := by simp [vregs]

@[simp]
theorem Bound.vregs_label (l : LabelId) : (Bound.label l).vregs = [] := by simp [vregs]

theorem Tidily.asOperand {f : Machine.Operand → Work α} (h : b.vregs ⊆ given)
    (hf : ∀ o : Machine.Operand, o.vregs ⊆ given → Tidily own given (f o) out) :
    Tidily own given (Work.asOperand r b >>= f) out := by
  cases b with
  | reg v => exact hf _ (by simpa using h)
  | imm value => exact hf _ (List.nil_subset _)
  | mem m => exact hf _ (by simpa using h)
  | addr m => exact hf _ (by simpa using h)
  | _ => exact .throw_bind

theorem Tidily.asReg {f : VReg → Work α} (h : b.vregs ⊆ given)
    (hf : ∀ v ∈ given, Tidily own given (f v) out) :
    Tidily own given (Work.asReg r b >>= f) out := by
  cases b with
  | reg v => exact hf v (by simpa using h)
  | _ => exact .throw_bind

theorem Tidily.asImm {f : Word → Work α} (hf : ∀ w, Tidily own given (f w) out) :
    Tidily own given (Work.asImm r b >>= f) out := by
  cases b with
  | imm value => exact hf value
  | _ => exact .throw_bind

theorem Tidily.asAddress {f : Mem → Work α} (h : b.vregs ⊆ given)
    (hf : ∀ m : Mem, m.vregs ⊆ given → Tidily own given (f m) out) :
    Tidily own given (Work.asAddress r b >>= f) out := by
  cases b with
  | addr m => exact hf m (by simpa using h)
  | mem m => exact hf m (by simpa using h)
  | reg v => exact hf _ (by simpa [vregs_based] using h)
  | _ => exact .throw_bind

theorem Tidily.asLabel {f : LabelId → Work α} (hf : ∀ l, Tidily own given (f l) out) :
    Tidily own given (Work.asLabel r b >>= f) out := by
  cases b with
  | label l => exact hf l
  | _ => exact .throw_bind

theorem Tidily.asCond {f : Predicate → Work α} (hf : ∀ p, Tidily own given (f p) out) :
    Tidily own given (Work.asCond r b >>= f) out := by
  cases b with
  | cond p => exact hf p
  | _ => exact .throw_bind

/-! ## The leaves of a rule -/

section Leaves

variable (hkids : ∀ b ∈ kids, b.vregs ⊆ given)
include hkids

theorem Tidily.leaf {f : Bound → Work α} (idx : Nat)
    (hf : ∀ b : Bound, b.vregs ⊆ given → Tidily own given (f b) out) :
    Tidily own given (leafResult r kids idx >>= f) out := by
  rw [leafResult]
  cases hk : kids[idx]? with
  | some b => exact hf b (hkids b (List.mem_of_getElem? hk))
  | none => exact .throw_bind

theorem Tidily.leafOperand {f : Machine.Operand → Work α} (idx : Nat)
    (hf : ∀ o : Machine.Operand, o.vregs ⊆ given → Tidily own given (f o) out) :
    Tidily own given (leafResult r kids idx >>= fun b ↦ Work.asOperand r b >>= f) out :=
  .leaf hkids idx fun _ hb ↦ .asOperand hb hf

theorem Tidily.leafReg {f : VReg → Work α} (idx : Nat)
    (hf : ∀ v ∈ given, Tidily own given (f v) out) :
    Tidily own given (leafResult r kids idx >>= fun b ↦ Work.asReg r b >>= f) out :=
  .leaf hkids idx fun _ hb ↦ .asReg hb hf

theorem Tidily.leafImm {f : Word → Work α} (idx : Nat)
    (hf : ∀ w, Tidily own given (f w) out) :
    Tidily own given (leafResult r kids idx >>= fun b ↦ Work.asImm r b >>= f) out :=
  .leaf hkids idx fun _ _ ↦ .asImm hf

theorem Tidily.leafAddress {f : Mem → Work α} (idx : Nat)
    (hf : ∀ m : Mem, m.vregs ⊆ given → Tidily own given (f m) out) :
    Tidily own given (leafResult r kids idx >>= fun b ↦ Work.asAddress r b >>= f) out :=
  .leaf hkids idx fun _ hb ↦ .asAddress hb hf

theorem Tidily.leafLabel {f : LabelId → Work α} (idx : Nat)
    (hf : ∀ l, Tidily own given (f l) out) :
    Tidily own given (leafResult r kids idx >>= fun b ↦ Work.asLabel r b >>= f) out :=
  .leaf hkids idx fun _ _ ↦ .asLabel hf

theorem Tidily.leafCond {f : Predicate → Work α} (idx : Nat)
    (hf : ∀ p, Tidily own given (f p) out) :
    Tidily own given (leafResult r kids idx >>= fun b ↦ Work.asCond r b >>= f) out :=
  .leaf hkids idx fun _ _ ↦ .asCond hf

end Leaves

/-! ## Emitting -/

theorem Tidily.emits {i : Machine.Inst} {f : Unit → Work α} (huses : i.uses ⊆ given)
    (hdefs : i.defs ⊆ own) (hf : Tidily own (i.defs ++ given) (f ()) out) :
    Tidily own given (Work.emit i >>= f) out :=
  (Tidily.emit huses hdefs).bind fun _ ↦ hf

theorem Tidily.ofNode {k : NodeId} {f : Node → Work α} (hf : ∀ n, Tidily own given (f n) out) :
    Tidily own given (Work.node k >>= f) out :=
  (Tidily.node k).bind hf

/-- An instruction that puts a value into a new register. -/
theorem Tidily.define {i : VReg → Machine.Inst} (huses : ∀ v, (i v).uses ⊆ given)
    (hdefs : ∀ v, (i v).defs = [v]) :
    Tidily own given (do let dst ← Work.freshVReg; Work.emit (i dst); return .reg dst)
      Bound.vregs := by
  refine .freshVReg fun v ↦ .emits (huses v) ?_ (.pure ?_)
  · rw [hdefs]
    simp
  · rw [hdefs]
    simp

theorem Tidily.emitOnCopy {operation : VReg → Machine.Inst} (hlhs : lhs ∈ given)
    (huses : ∀ v, (operation v).uses ⊆ v :: given) (hdefs : ∀ v, (operation v).defs = [v]) :
    Tidily own given (Work.emitOnCopy lhs operation) Bound.vregs := by
  refine .freshVReg fun v ↦ .emits ?_ (by simp) (.emits ?_ ?_ (.pure ?_))
  · simpa using hlhs
  · simpa using huses v
  · rw [hdefs]
    simp
  · simp

theorem Tidily.emitDivision (remainder : Bool) (hlhs : lhs ∈ given) (hrhs : rhs ∈ given) :
    Tidily own given (Work.emitDivision remainder lhs rhs) Bound.vregs := by
  refine .emits ?_ (by simp) (.emits (by simp) (by simp) (.emits ?_ (by simp) (.define ?_ ?_)))
  · simpa using hlhs
  · simpa using hrhs
  · cases remainder <;> simp
  · simp

theorem Tidily.emitAll {is : List Machine.Inst} {f : Unit → Work α} (hreads : ReadsFrom (· ∈ given) is)
    (hdefs : defsOf is ⊆ own) (hf : Tidily own (defsOf is ++ given) (f ()) out) :
    Tidily own given (Work.emitAll is >>= f) out := by
  induction is generalizing given with
  | nil => exact hf
  | cons i is ih =>
    rw [defsOf, List.flatMap_cons] at hdefs hf
    obtain ⟨hi, his⟩ := List.append_subset.mp hdefs
    change Tidily own given ((Work.emit i >>= fun _ ↦ Work.emitAll is) >>= f) out
    rw [bind_assoc]
    refine .emits hreads.1 hi (ih (hreads.2.mono fun v hv ↦ List.mem_append.mpr hv) his
      (hf.mono (List.Subset.refl _) fun v hv ↦ ?_))
    simp only [List.mem_append, defsOf] at hv ⊢
    tauto

private theorem mem_defsOf_extendInsts (signed : Bool) (bits : Nat) {src dst : VReg} :
    v ∈ defsOf (extendInsts signed bits src dst) ↔ v = dst := by
  rw [extendInsts]
  split
  next => cases signed <;> simp [defsOf]
  next => split <;> simp [defsOf]

private theorem readsFrom_extendInsts (signed : Bool) (bits : Nat) {src : VReg} (dst : VReg)
    (hsrc : src ∈ given) : ReadsFrom (· ∈ given) (extendInsts signed bits src dst) := by
  rw [extendInsts]
  split
  next =>
    cases signed <;> simp [ReadsFrom, hsrc]
  next => split <;> simp [ReadsFrom, hsrc]

theorem Tidily.emitExtension {src : VReg} (signed : Bool) (id : NodeId) (hsrc : src ∈ given) :
    Tidily own given (Work.emitExtension signed id src) Bound.vregs := by
  rw [Work.emitExtension, firstKidWidth]
  simp only [bind_assoc, pure_bind]
  refine .get fun w ↦ ?_
  split
  next => exact .pure (by simpa using hsrc)
  next =>
    refine .freshVReg fun v ↦ .emitAll (readsFrom_extendInsts _ _ v hsrc) (fun u hu ↦ ?_)
      (.pure fun u hu ↦ ?_)
    · rw [(mem_defsOf_extendInsts _ _).mp hu]
      exact List.mem_cons_self
    · obtain rfl : u = v := by simpa using hu
      exact List.mem_append_left _ ((mem_defsOf_extendInsts _ _).mpr rfl)

theorem Tidily.emitStore (hkids : ∀ b ∈ kids, b.vregs ⊆ given) :
    Tidily own given (Work.emitStore r id kids) Bound.vregs := by
  rw [Work.emitStore]
  refine .ofNode fun n ↦ .leaf hkids 0 fun b hb ↦ ?_
  have hstore : ∀ o : Machine.Operand, o.vregs ⊆ given →
      Tidily own given (do
        let m ← Work.asAddress r (← leafResult r kids 1)
        Work.emit
          { mnemonic := moveMnemonic (accessBytes n.width), operands := [o, .mem m] }
        return .none) Bound.vregs := fun o ho ↦
    .leafAddress hkids 1 fun m hm ↦ .emits (by simpa using ⟨ho, hm⟩) (by simp) (.pure (by simp))
  cases b with
  | reg v => exact hstore _ (by simpa using hb)
  | imm w => exact hstore _ (by simp)
  | _ => exact .throw_bind

theorem Tidily.forM {ι : Type} {xs : List ι} {g : ι → Work Unit} {f : Unit → Work α}
    (hg : ∀ x ∈ xs, Tidily own given (g x) fun _ ↦ []) (hf : Tidily own given (f ()) out) :
    Tidily own given (xs.forM g >>= f) out := by
  induction xs with
  | nil => exact hf
  | cons x xs ih =>
    obtain ⟨hx, hxs⟩ := List.forall_mem_cons.mp hg
    change Tidily own given ((g x >>= fun _ ↦ xs.forM g) >>= f) out
    rw [bind_assoc]
    exact hx.bind fun _ ↦ ih hxs

theorem Tidily.emitCall {args : List Bound} (hargs : ∀ b ∈ args, b.vregs ⊆ given) :
    Tidily own given (Work.emitCall r id args) Bound.vregs := by
  have hresult : ∀ n : Node, Tidily own given (do
      if n.width = 0 then return .none
      let dst ← Work.freshVReg
      Work.emit (moveTo dst (.phys .rax))
      return .reg dst) Bound.vregs := by
    intro n
    split
    next => exact .pure (by simp)
    next => exact .define (by simp) (by simp)
  rw [Work.emitCall]
  refine .forM (fun b hb ↦ ?_) (.ofNode fun n ↦ .emits (by simp) (by simp) ?_)
  · refine .asOperand (hargs b (List.mem_reverse.mp hb)) fun o ho ↦ ?_
    exact .emit (by simpa using ho) (by simp)
  · change Tidily own given (if args.isEmpty then _ else _) _
    split
    next => exact hresult n
    next => exact .emits (by simp) (by simp) (hresult n)

/-- A request for a slot changes the frame and nothing else, but that it may be reported. -/
theorem requestSlot_eq_ok {key : LocalKey} {bytes : Nat} {m : Mem} {w w' : Workspace}
    (h : Work.requestSlot key bytes w = .ok m w') :
    m = (w.code.frame.request key bytes).1 ∧ ∃ session, session.config = w.session.config ∧
      w' = { w with
        code := { w.code with frame := (w.code.frame.request key bytes).2 }
        session } := by
  rw [Work.requestSlot] at h
  simp only [bind_eq_ok, get_eq_ok] at h
  obtain ⟨_, _, ⟨rfl, rfl⟩, h⟩ := h
  rename Workspace => w
  split at h
  next =>
    simp only [report, modifyCode, bind_eq_ok, modify_eq_ok, pure_eq_ok] at h
    obtain ⟨_, _, rfl, _, _, rfl, rfl, rfl⟩ := h
    exact ⟨rfl, w.session.report _, rfl, rfl⟩
  next =>
    simp only [modifyCode, bind_eq_ok, modify_eq_ok, pure_eq_ok] at h
    obtain ⟨_, _, rfl, rfl, rfl⟩ := h
    exact ⟨rfl, w.session, rfl, rfl⟩

theorem emits_requestSlot {inst bytes : Nat} {m : Mem} {w w' : Workspace}
    (h : Work.requestSlot (.value inst) bytes w = .ok m w') : Emits w w' [] := by
  obtain ⟨-, session, hconfig, rfl⟩ := requestSlot_eq_ok h
  exact ⟨rfl, (modify_append_nil _ _).symm, Nat.le_refl _, .request _ inst bytes, rfl, hconfig, rfl⟩

theorem Tidily.requestSlot (inst bytes : Nat) :
    Tidily own given (Work.requestSlot (.value inst) bytes) Mem.vregs := by
  intro w m w' hframe h
  have hemits := emits_requestSlot h
  obtain ⟨hm, session, -, rfl⟩ := requestSlot_eq_ok h
  obtain ⟨d, hd⟩ := (hframe.request (.value inst) bytes).1
  refine ⟨[], hemits, .refl _, trivial,
    fun v hv ↦ absurd hv List.not_mem_nil, fun v hv ↦ ?_⟩
  rw [hm, hd] at hv
  exact absurd hv List.not_mem_nil

theorem Forest.SameButRoles.updateRoles (f : Forest) (id : NodeId) (roles : Roles → Roles) :
    f.SameButRoles (f.update id fun n ↦ { n with roles := roles n.roles }) :=
  ⟨Forest.size_update _ _ _, Forest.update_keeps (R := fun n n' ↦ ∃ roles, n' = { n with roles })
    (fun n ↦ ⟨n.roles, rfl⟩) _ _ fun _ ↦ ⟨_, rfl⟩⟩

theorem Tidily.updateRoles (id : NodeId) (roles : Roles → Roles) :
    Tidily own given (modifyForest (·.update id fun n ↦ { n with roles := roles n.roles }))
      fun _ ↦ [] := by
  refine .of_emits_nil fun w u w' h ↦ ?_
  obtain rfl := modify_eq_ok.mp h
  exact ⟨⟨rfl, (modify_append_nil _ _).symm, Nat.le_refl _, .refl _, rfl, rfl, rfl⟩,
    .updateRoles w.forest id roles, List.nil_subset _⟩

/-! ## All actions -/

/-- Whether an action looks at the state of its node, or at the phi that its node feeds. -/
def Action.isLocal : Action → Bool
  | .register | .memory | .phiInput => false
  | _ => true

/-- **Actions are tidy.** -/
theorem applyRule_tidily (hkids : ∀ b ∈ kids, b.vregs ⊆ given) (hlocal : r.action.isLocal = true) :
    Tidily [] given (applyRule r id kids) Bound.vregs := by
  rw [applyRule]
  cases haction : r.action with
  | register => rw [haction] at hlocal; exact absurd hlocal (by decide)
  | memory => rw [haction] at hlocal; exact absurd hlocal (by decide)
  | phiInput => rw [haction] at hlocal; exact absurd hlocal (by decide)
  | immediate =>
    refine .ofNode fun n ↦ ?_
    cases n.slot with
    | imm w => exact .pure (by simp)
    | _ => exact .throw
  | label =>
    refine .ofNode fun n ↦ ?_
    cases n.slot with
    | label l => exact .pure (by simp)
    | _ => exact .throw
  | nothing => exact .pure (by simp)
  | discard => exact .pure (by simp)
  | loadImm => exact .leafImm hkids 0 fun w ↦ .define (by simp) (by simp)
  | loadMem =>
    refine .leaf hkids 0 fun b hb ↦ ?_
    cases b with
    | reg v => exact .pure hb
    | mem m => exact .define (by simpa using hb) (by simp)
    | _ => exact .throw
  | lea =>
    refine .leafAddress hkids 0 fun m hm ↦ ?_
    split
    next => exact .pure (by simpa [Operand.vregs, Mem.regs, Reg.virt?] using hm)
    next => exact .define (by simpa using hm) (by simp)
  | addrBase => exact .leafAddress hkids 0 fun m hm ↦ .pure (by simpa using hm)
  | setCond =>
    exact .leafCond hkids 0 fun p ↦ .freshVReg fun v ↦
      .emits (by simp) (by simp) (.emits (by simp) (by simp) (.pure (by simp)))
  | fold =>
    refine .ofNode fun n ↦ ?_
    cases n.opcode? with
    | none => exact .throw
    | some op =>
      refine .leafImm hkids 0 fun a ↦ .leafImm hkids 1 fun b ↦ ?_
      cases op.fold? a b with
      | some w => exact .pure (by simp)
      | none => exact .throw
  | frameSlot =>
    refine .ofNode fun n ↦ ?_
    cases n.source with
    | none => exact .throw
    | some source =>
      refine (Tidily.requestSlot _ _).bind fun m ↦
        (Tidily.updateRoles id fun r ↦ { r with memory := true }).bind fun _ ↦ .pure ?_
      rw [Bound.vregs_addr]
      exact List.subset_append_left _ _
  | addrDisp =>
    refine .leafAddress hkids 0 fun m hm ↦ .leafImm hkids 1 fun w ↦ ?_
    rw [displace]
    split
    next =>
      refine .pure ?_
      rw [Bound.vregs_addr]
      exact hm
    next => exact .throw_bind
  | addrIndex =>
    refine .leafReg hkids 0 fun base hbase ↦ .leafReg hkids 1 fun index hindex ↦ ?_
    have haddr : ∀ scale, Tidily [] given
        (Pure.pure (Bound.addr ⟨.virt base, 0, some (.virt index, scale)⟩)) Bound.vregs := by
      intro scale
      exact .pure (by simpa [Operand.vregs, Mem.regs, Reg.virt?] using ⟨hbase, hindex⟩)
    cases kids[2]? with
    | none => exact haddr 1
    | some b =>
      refine .asImm fun w ↦ ?_
      exact haddr _
  | memFromAddr => exact .leafAddress hkids 0 fun m hm ↦ .pure (by simpa using hm)
  | load =>
    refine .leafAddress hkids 0 fun m hm ↦ .ofNode fun n ↦ .define (fun v ↦ ?_) fun v ↦ ?_
    · change (Inst.define (loadMnemonic n.width) [.mem m, .vreg v]).uses ⊆ given
      simpa using hm
    · rfl
  | store => exact .emitStore hkids
  | binary mnemonic =>
    refine .leafReg hkids 0 fun lhs hlhs ↦ .leafOperand hkids 1 fun rhs hrhs ↦
      .emitOnCopy hlhs (fun v ↦ ?_) fun v ↦ rfl
    change (Inst.update mnemonic [rhs, .vreg v]).uses ⊆ v :: given
    rw [Machine.Operand.vreg, uses_update]
    exact List.append_subset.mpr ⟨List.subset_cons_of_subset v hrhs, by simp⟩
  | mulImm =>
    exact .leafReg hkids 0 fun lhs hlhs ↦ .leafImm hkids 1 fun w ↦
      .define (by simpa using hlhs) (by simp)
  | divide remainder =>
    exact .leafReg hkids 0 fun lhs hlhs ↦ .leafReg hkids 1 fun rhs hrhs ↦
      .emitDivision remainder hlhs hrhs
  | shift mnemonic =>
    exact .leafReg hkids 0 fun lhs hlhs ↦ .leafImm hkids 1 fun w ↦
      .emitOnCopy hlhs (by simp) (by simp)
  | shiftByReg mnemonic =>
    refine .leafReg hkids 0 fun lhs hlhs ↦ .leafReg hkids 1 fun amount hamount ↦
      .emits (by simpa using hamount) (by simp) (.emitOnCopy hlhs (by simp) (by simp))
  | compare =>
    refine .leafReg hkids 0 fun lhs hlhs ↦ .leafOperand hkids 1 fun rhs hrhs ↦ .ofNode fun n ↦ ?_
    cases n.predicate with
    | none => exact .throw
    | some p => exact .emits (by simpa using ⟨hrhs, hlhs⟩) (by simp) (.pure (by simp))
  | signExtend => exact .leafReg hkids 0 fun v hv ↦ .emitExtension true id hv
  | zeroExtend => exact .leafReg hkids 0 fun v hv ↦ .emitExtension false id hv
  | rename => exact .leafReg hkids 0 fun v hv ↦ .pure (by simpa using hv)
  | jump =>
    exact .leafLabel hkids 0 fun l ↦ .emits (by simp [jumpTo]) (by simp [jumpTo]) (.pure (by simp))
  | branchCond =>
    exact .leafCond hkids 0 fun p ↦ .leafLabel hkids 1 fun l ↦ .leafLabel hkids 2 fun l' ↦
      .emits (by simp [branchTo]) (by simp [branchTo])
        (.emits (by simp [jumpTo]) (by simp [jumpTo]) (.pure (by simp)))
  | branchTest =>
    exact .leafReg hkids 0 fun v hv ↦ .leafLabel hkids 1 fun l ↦ .leafLabel hkids 2 fun l' ↦
      .emits (by simpa using hv) (by simp) (.emits (by simp [branchTo]) (by simp [branchTo])
        (.emits (by simp [jumpTo]) (by simp [jumpTo]) (.pure (by simp))))
  | ret =>
    have hret : ∀ given', Tidily [] given' (do
        Work.emit { mnemonic := "ret", operands := [], kind := .ret }
        return .none) Bound.vregs := fun given' ↦ .emits (by simp) (by simp) (.pure (by simp))
    cases kids with
    | nil => exact hret given
    | cons b kids =>
      have hb : b.vregs ⊆ given := hkids b List.mem_cons_self
      have hmove : Tidily [] given (do
          let o ← Work.asOperand r b
          Work.emit (.define "movq" [o, .phys .rax])
          Work.emit { mnemonic := "ret", operands := [], kind := .ret }
          return .none) Bound.vregs :=
        .asOperand hb fun o ho ↦ .emits (by simpa using ho) (by simp) (hret _)
      cases b with
      | imm w => exact .emits (by simp) (by simp) (hret _)
      | _ => exact hmove
  | arguments =>
    refine .pure fun v hv ↦ ?_
    rw [Bound.vregs_args] at hv
    obtain ⟨b, hb, hv⟩ := List.mem_flatMap.mp hv
    exact hkids b hb hv
  | call =>
    refine .leaf hkids 0 fun b hb ↦ ?_
    cases b with
    | args bs =>
      refine .emitCall fun b hmem v hv ↦ hb ?_
      rw [Bound.vregs_args]
      exact List.mem_flatMap.mpr ⟨b, hmem, hv⟩
    | _ => exact .throw

end TreeCover
