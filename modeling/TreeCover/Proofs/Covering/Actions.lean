import TreeCover.Proofs.Tiling.Expansion

/-!
# Actions that succeed

`Expands` lists what an action can do, and an action does succeed whenever one of these ways is open to
it. The one way that may be closed although every leaf gave what it should is to add to the
displacement of an address.
-/

namespace TreeCover

open Ir Machine Work

variable {r : Rule} {id : NodeId} {kids args : List Bound} {b : Bound} {w w₁ w' : Workspace} {v : VReg}
  {is : List Machine.Inst} {frame : Frame} {action : Action} {m : Mem} {x : Word}

/-- Whether some work succeeds. -/
def Succeeds {α : Type} (x : Work α) (w : Workspace) : Prop := ∃ a w', x w = .ok a w'

namespace Succeeds

theorem bind {α β : Type} {x : Work α} {p : α → Work β} {a : α} (hx : x w = .ok a w₁)
    (hp : Succeeds (p a) w₁) : Succeeds (x >>= p) w := by
  obtain ⟨b, w', hp⟩ := hp
  exact ⟨b, w', bind_eq_ok.mpr ⟨a, w₁, hx, hp⟩⟩

/-- To draw a register and to emit an instruction into it. -/
theorem draw (i : VReg → Machine.Inst) (w : Workspace) :
    Succeeds (do let dst ← freshVReg; emit (i dst); return Bound.reg dst) w :=
  ⟨_, _, rfl⟩

theorem emitExtension (signed : Bool) (u : VReg) (w : Workspace) :
    Succeeds (Work.emitExtension signed id u) w := by
  refine bind (a := ((w.forest.node id).kids.head?.map fun k ↦
    (w.forest.node (w.forest.owner k)).width).getD 64) rfl ?_
  split
  next => exact ⟨_, _, rfl⟩
  next => exact ⟨_, _, bind_eq_ok.mpr ⟨_, _, rfl, bind_eq_ok.mpr ⟨(), _, emitAll_ok_iff.mpr rfl, rfl⟩⟩⟩

theorem requestSlot (key : LocalKey) (bytes : Nat) (w : Workspace) :
    Succeeds (Work.requestSlot key bytes) w := by
  refine bind (get_eq_ok.mpr ⟨rfl, rfl⟩) ?_
  cases hslot : (w.code.frame.slot? key).isNone <;> simp only [hslot, if_true] <;>
    exact ⟨_, _, rfl⟩

/-- To push operands. -/
theorem pushAll {os : List Machine.Operand} (hos : List.Forall₂ (fun b o ↦ b.operand? = some o) args os)
    (w : Workspace) : Succeeds
      (args.forM fun a ↦ do emit { mnemonic := "pushq", operands := [← asOperand r a] }) w := by
  induction hos generalizing w with
  | nil => exact ⟨_, _, rfl⟩
  | cons hb _ ih =>
    exact bind (a := ()) (bind_eq_ok.mpr ⟨_, _, asOperand_ok_iff.mpr ⟨hb, rfl⟩, emit_ok_iff.mpr rfl⟩)
      (ih _)

theorem emitCall {os : List Machine.Operand}
    (hos : List.Forall₂ (fun b o ↦ b.operand? = some o) args os) (w : Workspace) :
    Succeeds (Work.emitCall r id args) w := by
  obtain ⟨u, w₁, hpush⟩ := pushAll (r := r) (List.forall₂_reverse_iff.mpr hos) w
  refine bind hpush (bind (node_ok_iff.mpr ⟨rfl, rfl⟩) (bind (a := ()) (emit_ok_iff.mpr rfl) ?_))
  by_cases hargs : args.isEmpty = true <;> by_cases hwidth : (w₁.forest.node id).width = 0 <;>
    simp only [hargs, hwidth, if_true, if_false, Bool.false_eq_true] <;> exact ⟨_, _, rfl⟩

end Succeeds

/-- An action succeeds if there is a way for it to go. -/
theorem Expands.succeeds (h : Expands (w.forest.node id) frame kids v action is b)
    (haction : r.action = action) (hphi : action ≠ .phiInput) : Succeeds (applyRule r id kids) w := by
  rw [applyRule, haction]
  cases h with
  | immediate h | register h | memory h | label h => simp [Succeeds, bind_eq_ok, node_ok_iff, h]
  | nothing | discard | arguments => exact ⟨_, _, rfl⟩
  | loadImm h =>
    simp [Succeeds, bind_eq_ok, leafResult_ok_iff, asImm_ok_iff, h, freshVReg_ok_iff, emit_ok_iff]
  | loadMemReg h | loadMem h =>
    simp [Succeeds, bind_eq_ok, leafResult_ok_iff, h, freshVReg_ok_iff, emit_ok_iff]
  | leaBase h | lea h =>
    obtain ⟨b, hb, hm⟩ := Option.bind_eq_some_iff.mp h
    refine .bind (leafResult_ok_iff.mpr ⟨hb, rfl⟩) (.bind (asAddress_ok_iff.mpr ⟨hm, rfl⟩) ?_)
    split
    next => exact ⟨_, _, rfl⟩
    next => exact .draw _ _
  | addrBase h | memFromAddr h =>
    obtain ⟨b, hb, hm⟩ := Option.bind_eq_some_iff.mp h
    simp [Succeeds, bind_eq_ok, leafResult_ok_iff, asAddress_ok_iff, hb, hm]
  | setCond h =>
    simp [Succeeds, bind_eq_ok, leafResult_ok_iff, asCond_ok_iff, h, freshVReg_ok_iff, emit_ok_iff]
  | fold hop ha hb hc =>
    simp [Succeeds, bind_eq_ok, node_ok_iff, leafResult_ok_iff, asImm_ok_iff, hop, ha, hb, hc]
  | @frameSlot i h =>
    obtain ⟨m, w₁, hslot⟩ := Succeeds.requestSlot (.value i) (w.forest.node id).allocBytes w
    refine .bind (node_ok_iff.mpr ⟨rfl, rfl⟩) ?_
    rw [h]
    exact .bind hslot ⟨_, _, rfl⟩
  | addrDisp hm hw hfits =>
    obtain ⟨b, hb, hm⟩ := Option.bind_eq_some_iff.mp hm
    simp [Succeeds, bind_eq_ok, leafResult_ok_iff, asAddress_ok_iff, asImm_ok_iff, hb, hm, hw, displace, hfits]
  | addrIndex hbase hindex hkids =>
    simp [Succeeds, bind_eq_ok, leafResult_ok_iff, asReg_ok_iff, hbase, hindex, hkids]
  | addrScaled hbase hindex hw =>
    simp [Succeeds, bind_eq_ok, leafResult_ok_iff, asReg_ok_iff, asImm_ok_iff, hbase, hindex, hw]
  | load h =>
    obtain ⟨b, hb, hm⟩ := Option.bind_eq_some_iff.mp h
    simp [Succeeds, bind_eq_ok, leafResult_ok_iff, asAddress_ok_iff, hb, hm, node_ok_iff, freshVReg_ok_iff,
      emit_ok_iff]
  | storeReg hkid h | storeImm hkid h =>
    obtain ⟨b, hb, hm⟩ := Option.bind_eq_some_iff.mp h
    simp [Succeeds, emitStore, bind_eq_ok, leafResult_ok_iff, asAddress_ok_iff, hb, hm, hkid, node_ok_iff,
      emit_ok_iff]
  | binary hlhs hrhs =>
    obtain ⟨b, hb, ho⟩ := Option.bind_eq_some_iff.mp hrhs
    simp [Succeeds, bind_eq_ok, leafResult_ok_iff, asReg_ok_iff, asOperand_ok_iff, hlhs, hb, ho, emitOnCopy_ok_iff]
  | mulImm hlhs hw =>
    simp [Succeeds, bind_eq_ok, leafResult_ok_iff, asReg_ok_iff, asImm_ok_iff, hlhs, hw, freshVReg_ok_iff,
      emit_ok_iff]
  | divide hlhs hrhs =>
    simp [Succeeds, emitDivision, bind_eq_ok, leafResult_ok_iff, asReg_ok_iff, hlhs, hrhs, freshVReg_ok_iff,
      emit_ok_iff]
  | shift hlhs hw =>
    simp [Succeeds, bind_eq_ok, leafResult_ok_iff, asReg_ok_iff, asImm_ok_iff, hlhs, hw, emitOnCopy_ok_iff]
  | shiftByReg hlhs hamount =>
    simp [Succeeds, bind_eq_ok, leafResult_ok_iff, asReg_ok_iff, hlhs, hamount, emitOnCopy_ok_iff, emit_ok_iff]
  | compare hlhs hrhs hp =>
    obtain ⟨b, hb, ho⟩ := Option.bind_eq_some_iff.mp hrhs
    simp [Succeeds, bind_eq_ok, leafResult_ok_iff, asReg_ok_iff, asOperand_ok_iff, hlhs, hb, ho, node_ok_iff, hp,
      emit_ok_iff]
  | extendWhole h hu =>
    rcases h with rfl | rfl <;>
      exact .bind (leafResult_ok_iff.mpr ⟨hu, rfl⟩) (.bind (asReg_ok_iff.mpr ⟨rfl, rfl⟩)
        (.emitExtension _ _ _))
  | signExtend hu | zeroExtend hu =>
    exact .bind (leafResult_ok_iff.mpr ⟨hu, rfl⟩) (.bind (asReg_ok_iff.mpr ⟨rfl, rfl⟩)
      (.emitExtension _ _ _))
  | rename hu => simp [Succeeds, bind_eq_ok, leafResult_ok_iff, asReg_ok_iff, hu]
  | jump hl => simp [Succeeds, bind_eq_ok, leafResult_ok_iff, asLabel_ok_iff, hl, emit_ok_iff]
  | branchCond hp hl hl' =>
    simp [Succeeds, bind_eq_ok, leafResult_ok_iff, asLabel_ok_iff, asCond_ok_iff, hp, hl, hl', emit_ok_iff]
  | branchTest hu hl hl' =>
    simp [Succeeds, bind_eq_ok, leafResult_ok_iff, asLabel_ok_iff, asReg_ok_iff, hu, hl, hl', emit_ok_iff]
  | retVoid h => simp [Succeeds, h, emit_ok_iff]
  | retImm h =>
    rw [← List.head?_eq_getElem?] at h
    simp [Succeeds, h, bind_eq_ok, emit_ok_iff]
  | ret h hvariable =>
    obtain ⟨b, hb, ho⟩ := Option.bind_eq_some_iff.mp h
    rw [← List.head?_eq_getElem?] at hb
    cases b <;> simp_all [Succeeds, bind_eq_ok, emit_ok_iff, asOperand_ok_iff]
  | callVoid h hos | call h hos =>
    exact .bind (leafResult_ok_iff.mpr ⟨h, rfl⟩) (.emitCall hos w)
  | phiInput => exact absurd rfl hphi

/-- A phi move finds the register of its phi. -/
theorem succeeds_phiInput {owner : NodeId} {succ : BlockId} {o : Machine.Operand}
    (haction : r.action = .phiInput) (ho : kids[0]?.bind Bound.operand? = some o)
    (htarget : (w.forest.node id).phiTarget = some (owner, succ))
    (hslot : (w.forest.node owner).slot = .vreg v) : Succeeds (applyRule r id kids) w := by
  obtain ⟨b, hb, ho⟩ := Option.bind_eq_some_iff.mp ho
  rw [Succeeds, applyRule, haction]
  simp [bind_eq_ok, leafResult_ok_iff, asOperand_ok_iff, recordPhiInput, node_ok_iff, hb, ho, htarget,
    hslot, modifyCode]

/-- A displacement that leaves 32 bits. -/
theorem applyRule_overflow (haction : r.action = .addrDisp)
    (hm : kids[0]?.bind Bound.address? = some m) (hx : kids[1]? = some (.imm x))
    (hrange : fitsSigned 32 (m.disp + x.toInt) = false) :
    applyRule r id kids w = .error (.binding r.name .displacementRange) w := by
  obtain ⟨b, hb, hm⟩ := Option.bind_eq_some_iff.mp hm
  have hdisplace : displace r m x w = .error (.binding r.name .displacementRange) w := by
    rw [displace, hrange, Bool.and_false]
    rfl
  rw [applyRule, haction]
  refine bind_eq_error.mpr (Or.inr ⟨_, _, leafResult_ok_iff.mpr ⟨hb, rfl⟩, ?_⟩)
  refine bind_eq_error.mpr (Or.inr ⟨_, _, asAddress_ok_iff.mpr ⟨hm, rfl⟩, ?_⟩)
  refine bind_eq_error.mpr (Or.inr ⟨_, _, leafResult_ok_iff.mpr ⟨hx, rfl⟩, ?_⟩)
  refine bind_eq_error.mpr (Or.inr ⟨_, _, asImm_ok_iff.mpr ⟨rfl, rfl⟩, ?_⟩)
  exact bind_eq_error.mpr (Or.inl hdisplace)

end TreeCover
