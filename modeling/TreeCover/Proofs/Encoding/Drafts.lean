import Mathlib.Algebra.Group.Int.Defs
import Mathlib.Algebra.Group.Nat.Defs
import TreeCover.Proofs.Assembly.Templates
import TreeCover.Proofs.Encoding.Forms

/-!
# Drafts of actions

What an action emits has an encoding once it is placed, if the addresses among the results it works
on have encodings and the constants that it encodes as operands fit 32 bits.
-/

namespace TreeCover

open Ir Machine

variable {i : Machine.Inst} {is : List Machine.Inst} {o src dst : Machine.Operand} {n : Node}
  {frame : Frame} {kids bs : List Bound} {b : Bound} {v : VReg} {action : Action} {m : Mem} {w : Word}

/-! ## Instructions -/

namespace Machine.Inst

theorem draft_none (hops : i.operands = []) (hneeds : i.needsRegDst = false) : i.Draft := by
  refine ⟨?_, fun h ↦ absurd (hneeds.symm.trans h) Bool.false_ne_true, ?_, ?_, ?_⟩ <;> simp [hops]

theorem draft_single (hops : i.operands = [o]) (hneeds : i.needsRegDst = false)
    (ho : o.Encodable) (hconstant : ∀ w, o ≠ .imm w) : i.Draft := by
  refine ⟨List.countP_le_length.trans (by simp [hops]),
    fun h ↦ absurd (hneeds.symm.trans h) Bool.false_ne_true, fun w hw ↦ ?_, fun w hw ↦ ?_, ?_⟩
  · rw [hops] at hw
    exact hconstant w (Option.some.inj hw)
  · rw [hops] at hw
    exact absurd (List.mem_singleton.mp hw).symm (hconstant w)
  · simpa [hops] using ho

/-- A source and a destination. -/
theorem draft_pair (hops : i.operands = [src, dst]) (hsrc : src.Encodable) (hdst : dst.Encodable)
    (hplace : dst.isReg = true ∧ (i.needsRegDst = true → i.effect ≠ .none) ∨
      dst.isMem = true ∧ i.needsRegDst = false)
    (hconstant : ∀ w, src = .imm w → fitsImm32 w = true ∨
      i.mnemonic = "movabsq" ∧ i.needsRegDst = true) : i.Draft := by
  have hno : ∀ w, dst ≠ .imm w := by
    rintro w rfl
    exact absurd hplace (by simp [Operand.isReg, Operand.isMem])
  refine ⟨List.countP_le_length.trans (by simp [hops]), fun hneeds ↦ ?_, fun w hw ↦ ?_,
    fun w hw ↦ ?_, ?_⟩
  · rcases hplace with ⟨hreg, heffect⟩ | ⟨-, hnone⟩
    · exact ⟨heffect hneeds, by rw [hops]; exact hreg⟩
    · exact absurd (hnone.symm.trans hneeds) Bool.false_ne_true
  · rw [hops] at hw
    exact hno w (Option.some.inj hw)
  · rw [hops, List.mem_cons, List.mem_singleton] at hw
    exact hw.elim (fun h ↦ hconstant w h.symm) fun h ↦ absurd h.symm (hno w)
  · simp [hops, hsrc, hdst]

/-- A source that is no constant, and a register. -/
theorem draft_into (hops : i.operands = [src, dst]) (hsrc : src.Encodable)
    (hconstant : ∀ w, src ≠ .imm w) (hdst : dst.isReg = true)
    (heffect : i.needsRegDst = true → i.effect ≠ .none) : i.Draft := by
  refine draft_pair hops hsrc (Operand.encodable_of_not_mem ?_) (Or.inl ⟨hdst, heffect⟩)
    fun w hw ↦ absurd hw (hconstant w)
  cases dst with
  | reg r width => rfl
  | _ => exact absurd hdst Bool.false_ne_true

theorem draft_moveTo (hsrc : src.Encodable) (hconstant : ∀ w, src ≠ .imm w) :
    (moveTo v src).Draft :=
  draft_into rfl hsrc hconstant rfl fun h ↦ absurd h Bool.false_ne_true

theorem draft_copyTo {u : VReg} : (moveTo v (.vreg u)).Draft :=
  draft_moveTo (Operand.encodable_of_not_mem rfl) fun _ ↦ Operand.noConfusion

theorem draft_loadConstant (hdst : dst.isReg = true) : (loadConstant w dst).Draft := by
  have hencodable : dst.Encodable := by
    refine Operand.encodable_of_not_mem ?_
    cases dst with
    | reg r width => rfl
    | _ => exact absurd hdst Bool.false_ne_true
  have himm : (Operand.imm w).Encodable := Operand.encodable_of_not_mem rfl
  rw [loadConstant]
  split
  next hfits =>
    refine draft_pair rfl himm hencodable (Or.inl ⟨hdst, fun h ↦ absurd h Bool.false_ne_true⟩) ?_
    exact fun w' hw ↦ Or.inl (Operand.imm.inj hw ▸ hfits)
  next =>
    exact draft_pair rfl himm hencodable (Or.inl ⟨hdst, fun _ ↦ Effect.noConfusion⟩)
      fun _ _ ↦ Or.inr ⟨rfl, rfl⟩

theorem draft_extendInsts (signed : Bool) (bits : Nat) (u v : VReg) :
    ∀ i ∈ extendInsts signed bits u v, i.Draft := by
  have hvreg : ∀ {u : VReg} {width : Nat}, (Operand.reg (.virt u) width).Encodable :=
    Operand.encodable_of_not_mem rfl
  have hinto : ∀ mnemonic width width', (Inst.intoReg (.define mnemonic
      [.reg (.virt u) width, .reg (.virt v) width'])).Draft := fun mnemonic width width' ↦
    draft_into rfl hvreg (fun _ ↦ Operand.noConfusion) rfl fun _ ↦ Effect.noConfusion
  rw [extendInsts]
  split
  · refine List.forall_mem_append.mpr ⟨List.forall_mem_cons.mpr ⟨draft_copyTo,
      List.forall_mem_singleton.mpr ?_⟩, ?_⟩
    · refine draft_pair rfl (Operand.encodable_of_not_mem rfl) hvreg
        (Or.inl ⟨rfl, fun h ↦ absurd h Bool.false_ne_true⟩) fun w hw ↦ Or.inl ?_
      obtain rfl := Operand.imm.inj hw
      decide
    · split
      · exact List.forall_mem_singleton.mpr (draft_single rfl rfl hvreg fun _ ↦ Operand.noConfusion)
      · exact fun _ hi ↦ absurd hi List.not_mem_nil
  · split
    · exact List.forall_mem_singleton.mpr (hinto _ _ _)
    · exact List.forall_mem_singleton.mpr (hinto _ _ _)

end Machine.Inst

/-! ## Results -/

namespace Bound

/-- A result whose addresses have encodings. -/
def Encodable (b : Bound) : Prop := ∀ m ∈ b.mems, m.Encodable

@[simp]
theorem encodable_mem : (mem m).Encodable ↔ m.Encodable := by simp [Encodable, mems]

@[simp]
theorem encodable_addr : (addr m).Encodable ↔ m.Encodable := by simp [Encodable, mems]

@[simp]
theorem encodable_args : (args bs).Encodable ↔ ∀ b ∈ bs, b.Encodable := by
  simp only [Encodable, mems, List.mem_flatMap]
  refine ⟨fun h b hb m hm ↦ h m ⟨b, hb, hm⟩, fun h m hm ↦ ?_⟩
  obtain ⟨b, hb, hm⟩ := hm
  exact h b hb m hm

/-- A result without addresses. -/
theorem encodable_of_mems (h : b.mems = []) : b.Encodable := by simp [Encodable, h]

theorem Encodable.address (h : b.Encodable) (hm : b.address? = some m) : m.Encodable := by
  cases b with
  | addr m' | mem m' =>
    obtain rfl := Option.some.inj hm
    simpa using h
  | reg u =>
    obtain rfl := Option.some.inj hm
    exact Mem.encodable_based _ 0
  | _ => exact absurd hm (by simp [address?])

theorem Encodable.operand (h : b.Encodable) (ho : b.operand? = some o) : o.Encodable := by
  cases b with
  | mem m | addr m =>
    obtain rfl := Option.some.inj ho
    exact Operand.encodable_mem.mpr (by simpa using h)
  | reg u | imm w =>
    obtain rfl := Option.some.inj ho
    exact Operand.encodable_of_not_mem rfl
  | _ => exact absurd ho (by simp [operand?])

theorem operand?_eq_imm : b.operand? = some (.imm w) ↔ b = .imm w := by
  cases b <;> simp [operand?, Operand.vreg]

end Bound

/-! ## Actions -/

/-- Whether the second operand of an action may be a constant that becomes part of an instruction. -/
def Action.encodesSecond : Action → Bool
  | .binary _ | .mulImm | .compare => true
  | _ => false

/-- What the actions of rules are given: addresses that have encodings, constants that fit where they
become part of an instruction, and arguments in registers or in memory, of which there are few enough
to be taken off the stack at once. -/
structure Suits (action : Action) (kids : List Bound) : Prop where
  mems : ∀ b ∈ kids, b.Encodable
  first : action = .store → ∀ w, kids[0]? = some (.imm w) → fitsImm32 w = true
  second : action.encodesSecond = true → ∀ w, kids[1]? = some (.imm w) → fitsImm32 w = true
  args : action = .call → ∀ bs, kids[0]? = some (.args bs) →
    bs.length < 2 ^ 28 ∧ ∀ b ∈ bs, ∀ w, b ≠ .imm w

namespace Suits

variable {idx : Nat}

theorem address (h : Suits action kids) (hm : kids[idx]?.bind Bound.address? = some m) :
    m.Encodable := by
  obtain ⟨b, hb, hm⟩ := Option.bind_eq_some_iff.mp hm
  exact (h.mems b (List.mem_of_getElem? hb)).address hm

theorem operand (h : Suits action kids) (ho : kids[idx]?.bind Bound.operand? = some o) :
    o.Encodable := by
  obtain ⟨b, hb, ho⟩ := Option.bind_eq_some_iff.mp ho
  exact (h.mems b (List.mem_of_getElem? hb)).operand ho

theorem second_fits (h : Suits action kids) (haction : action.encodesSecond = true)
    (ho : kids[1]?.bind Bound.operand? = some (.imm w)) : fitsImm32 w = true := by
  obtain ⟨b, hb, ho⟩ := Option.bind_eq_some_iff.mp ho
  rw [Bound.operand?_eq_imm] at ho
  exact h.second haction w (ho ▸ hb)

/-- Arguments that are pushed. -/
theorem pushed (h : Suits .call kids) (hargs : kids[0]? = some (.args bs))
    {os : List Machine.Operand} (hos : List.Forall₂ (fun b o ↦ b.operand? = some o) bs os) :
    ∀ o ∈ os, o.Encodable ∧ ∀ w, o ≠ .imm w := by
  have hbs := Bound.encodable_args.mp (h.mems _ (List.mem_of_getElem? hargs))
  intro o ho
  obtain ⟨k, hk, rfl⟩ := List.mem_iff_getElem.mp ho
  have hoperand := hos.get (hos.length_eq ▸ hk) hk
  refine ⟨(hbs _ (List.get_mem _ _)).operand hoperand, fun w hw ↦ ?_⟩
  exact (h.args rfl bs hargs).2 _ (List.get_mem _ _) w
    (Bound.operand?_eq_imm.mp (hoperand.trans (congrArg some hw)))

end Suits

/-- The scale of an index is one of four. -/
theorem Mem.encodable_indexed (base index : VReg) (shift : Option Word) :
    (indexedAddress base index shift).Encodable := by
  intro r scale h
  obtain ⟨rfl, rfl⟩ := Prod.mk.inj (Option.some.inj h)
  refine ⟨Reg.noConfusion, ?_⟩
  cases shift with
  | none => decide
  | some w =>
    have hshift : ∀ k < 4, 1 <<< k ∈ [1, 2, 4, 8] := by decide
    refine hshift _ ?_
    omega

/-- The instructions of a call. -/
theorem draft_callCode {callee : String} {os : List Machine.Operand} {result? : Option VReg}
    (hos : ∀ o ∈ os, o.Encodable ∧ ∀ w, o ≠ .imm w) (hfew : os.length < 2 ^ 28) :
    ∀ i ∈ callCode callee os result?, i.Draft := by
  refine List.forall_mem_append.mpr ⟨List.forall_mem_append.mpr ⟨fun i hi ↦ ?_,
    List.forall_mem_cons.mpr ⟨?_, ?_⟩⟩, ?_⟩
  · obtain ⟨o, ho, rfl⟩ := List.mem_map.mp hi
    obtain ⟨ho, hconstant⟩ := hos o (List.mem_reverse.mp ho)
    exact Inst.draft_single rfl rfl ho hconstant
  · exact Inst.draft_single rfl rfl (Operand.encodable_of_not_mem rfl) fun _ ↦ Operand.noConfusion
  · rw [popCode]
    split
    · exact fun _ hi ↦ absurd hi List.not_mem_nil
    · refine List.forall_mem_singleton.mpr (Inst.draft_pair rfl (Operand.encodable_of_not_mem rfl)
        (Operand.encodable_of_not_mem rfl) (Or.inl ⟨rfl, fun h ↦ absurd h Bool.false_ne_true⟩)
        fun w hw ↦ Or.inl ?_)
      exact Operand.imm.inj hw ▸ fitsImm32_ofNat (by omega)
  · cases result? with
    | none => exact fun _ hi ↦ absurd hi List.not_mem_nil
    | some v =>
      exact List.forall_mem_singleton.mpr (Inst.draft_moveTo (Operand.encodable_of_not_mem rfl)
        fun _ ↦ Operand.noConfusion)

/-- **Drafts.** What an action emits for suitable results are drafts, and the addresses in its own
result have encodings again. -/
theorem Expands.drafts (h : Expands n frame kids v action is b) (hkids : Suits action kids)
    (hslot : ∀ m, action = .memory → n.slot = .mem m → m.Encodable) (hframe : frame.Addressed) :
    (∀ i ∈ is, i.Draft) ∧ b.Encodable := by
  have hnone : ∀ i ∈ ([] : List Machine.Inst), i.Draft := fun _ hi ↦ absurd hi List.not_mem_nil
  have hvreg : ∀ {u : VReg} {width : Nat}, (Operand.reg (.virt u) width).Encodable :=
    Operand.encodable_of_not_mem rfl
  have hreg : ∀ {u : VReg}, (Bound.reg u).Encodable := Bound.encodable_of_mems (by simp [Bound.mems])
  have hloaded : ∀ {idx : Nat} {m : Mem}, kids[idx]?.bind Bound.address? = some m →
      (Operand.mem m).Encodable := fun hm ↦ Operand.encodable_mem.mpr (hkids.address hm)
  have hbranch : ∀ {i : Machine.Inst} {l : LabelId}, i.operands = [.label l] →
      i.needsRegDst = false → i.Draft := fun hops hneeds ↦
    Inst.draft_single hops hneeds (Operand.encodable_of_not_mem rfl) fun _ ↦ Operand.noConfusion
  have hret : Inst.Draft { mnemonic := "ret", operands := [], kind := .ret } :=
    Inst.draft_none rfl rfl
  have hcode : ∀ {is : List Machine.Inst}, (∀ i ∈ is, i.Draft) →
      (∀ i ∈ is, i.Draft) ∧ (Bound.reg v).Encodable := fun h ↦ ⟨h, hreg⟩
  have hstmt : ∀ {is : List Machine.Inst}, (∀ i ∈ is, i.Draft) →
      (∀ i ∈ is, i.Draft) ∧ Bound.none.Encodable := fun h ↦ ⟨h, Bound.encodable_of_mems (by simp [Bound.mems])⟩
  cases h with
  | immediate | label | nothing | discard | fold | phiInput =>
    exact ⟨hnone, Bound.encodable_of_mems (by simp [Bound.mems])⟩
  | register | loadMemReg | leaBase | extendWhole | rename => exact ⟨hnone, hreg⟩
  | memory hm => exact ⟨hnone, Bound.encodable_mem.mpr (hslot _ rfl hm)⟩
  | loadImm => exact hcode (List.forall_mem_singleton.mpr (Inst.draft_loadConstant rfl))
  | loadMem hm =>
    refine hcode (List.forall_mem_singleton.mpr (Inst.draft_moveTo ?_ fun _ ↦ Operand.noConfusion))
    exact Operand.encodable_mem.mpr
      (Bound.encodable_mem.mp (hkids.mems _ (List.mem_of_getElem? hm)))
  | lea hm =>
    exact hcode (List.forall_mem_singleton.mpr (Inst.draft_into rfl (hloaded hm)
      (fun _ ↦ Operand.noConfusion) rfl fun _ ↦ Effect.noConfusion))
  | addrBase hm => exact ⟨hnone, Bound.encodable_addr.mpr (hkids.address hm)⟩
  | setCond =>
    exact hcode (List.forall_mem_cons.mpr
      ⟨Inst.draft_single rfl rfl hvreg fun _ ↦ Operand.noConfusion,
        List.forall_mem_singleton.mpr (Inst.draft_into rfl hvreg (fun _ ↦ Operand.noConfusion) rfl
          fun _ ↦ Effect.noConfusion)⟩)
  | frameSlot =>
    obtain ⟨d, hd⟩ := (hframe.request (.value _) n.allocBytes).1
    exact ⟨hnone, Bound.encodable_addr.mpr (hd ▸ Mem.encodable_frame d)⟩
  | addrDisp hm =>
    exact ⟨hnone, Bound.encodable_addr.mpr fun r scale h ↦ hkids.address hm r scale h⟩
  | addrIndex | addrScaled =>
    exact ⟨hnone, Bound.encodable_addr.mpr (Mem.encodable_indexed _ _ _)⟩
  | memFromAddr hm => exact ⟨hnone, Bound.encodable_mem.mpr (hkids.address hm)⟩
  | load hm =>
    exact hcode (List.forall_mem_singleton.mpr (Inst.draft_into rfl (hloaded hm)
      (fun _ ↦ Operand.noConfusion) rfl fun _ ↦ Effect.noConfusion))
  | storeReg _ hm =>
    exact hstmt (List.forall_mem_singleton.mpr (Inst.draft_pair rfl hvreg (hloaded hm)
      (Or.inr ⟨rfl, rfl⟩) fun _ ↦ Operand.noConfusion))
  | storeImm hw hm =>
    refine hstmt (List.forall_mem_singleton.mpr (Inst.draft_pair rfl
      (Operand.encodable_of_not_mem rfl) (hloaded hm) (Or.inr ⟨rfl, rfl⟩) fun w h ↦ Or.inl ?_))
    exact Operand.imm.inj h ▸ hkids.first rfl _ hw
  | binary _ hrhs =>
    refine hcode (List.forall_mem_cons.mpr ⟨Inst.draft_copyTo, List.forall_mem_singleton.mpr
      (Inst.draft_pair rfl (hkids.operand hrhs) hvreg (Or.inl ⟨rfl, fun _ ↦ Effect.noConfusion⟩)
        fun w h ↦ Or.inl ?_)⟩)
    exact hkids.second_fits rfl (h ▸ hrhs)
  | @mulImm lhs w _ hw =>
    refine hcode (List.forall_mem_singleton.mpr ⟨?_, fun _ ↦ ⟨Effect.noConfusion, rfl⟩,
      fun _ h ↦ Operand.noConfusion (Option.some.inj h), fun w' h ↦ Or.inl ?_, ?_⟩)
    · exact Nat.le_refl 2
    · have hmem : Operand.imm w' ∈ [Operand.imm w, .vreg lhs, .vreg v] := h
      obtain rfl : w' = w := by simpa [Operand.vreg] using hmem
      exact hkids.second rfl _ hw
    · change ∀ o ∈ [Operand.imm w, .vreg lhs, .vreg v], o.Encodable
      simp only [List.forall_mem_cons, List.not_mem_nil, false_imp_iff, implies_true, and_true]
      exact ⟨Operand.encodable_of_not_mem rfl, hvreg, hvreg⟩
  | divide =>
    have hphys : ∀ {q : PhysReg}, (Operand.phys q).Encodable := Operand.encodable_of_not_mem rfl
    exact hcode (List.forall_mem_cons.mpr
      ⟨Inst.draft_into rfl hvreg (fun _ ↦ Operand.noConfusion) rfl
          fun h ↦ absurd h Bool.false_ne_true,
        List.forall_mem_cons.mpr ⟨Inst.draft_none rfl rfl, List.forall_mem_cons.mpr
          ⟨Inst.draft_single rfl rfl hvreg fun _ ↦ Operand.noConfusion,
            List.forall_mem_singleton.mpr
              (Inst.draft_moveTo hphys fun _ ↦ Operand.noConfusion)⟩⟩⟩)
  | shift =>
    refine hcode (List.forall_mem_cons.mpr ⟨Inst.draft_copyTo, List.forall_mem_singleton.mpr
      (Inst.draft_pair rfl (Operand.encodable_of_not_mem rfl) hvreg
        (Or.inl ⟨rfl, fun h ↦ absurd h Bool.false_ne_true⟩) fun w h ↦ Or.inl ?_)⟩)
    exact Operand.imm.inj h ▸ fitsImm32_amount _
  | shiftByReg =>
    exact hcode (List.forall_mem_cons.mpr
      ⟨Inst.draft_into rfl hvreg (fun _ ↦ Operand.noConfusion) rfl
          fun h ↦ absurd h Bool.false_ne_true,
        List.forall_mem_cons.mpr ⟨Inst.draft_copyTo, List.forall_mem_singleton.mpr
          (Inst.draft_into rfl (Operand.encodable_of_not_mem rfl) (fun _ ↦ Operand.noConfusion) rfl
            fun h ↦ absurd h Bool.false_ne_true)⟩⟩)
  | compare _ hrhs =>
    refine ⟨List.forall_mem_singleton.mpr (Inst.draft_pair rfl (hkids.operand hrhs) hvreg
      (Or.inl ⟨rfl, fun h ↦ absurd h Bool.false_ne_true⟩) fun w h ↦ Or.inl ?_),
      Bound.encodable_of_mems (by simp [Bound.mems])⟩
    exact hkids.second_fits rfl (h ▸ hrhs)
  | signExtend | zeroExtend => exact hcode (Inst.draft_extendInsts _ _ _ _)
  | jump => exact hstmt (List.forall_mem_singleton.mpr (hbranch rfl rfl))
  | branchCond =>
    exact hstmt (List.forall_mem_cons.mpr ⟨hbranch rfl rfl,
      List.forall_mem_singleton.mpr (hbranch rfl rfl)⟩)
  | branchTest =>
    exact hstmt (List.forall_mem_cons.mpr
      ⟨Inst.draft_into rfl hvreg (fun _ ↦ Operand.noConfusion) rfl
          fun h ↦ absurd h Bool.false_ne_true,
        List.forall_mem_cons.mpr ⟨hbranch rfl rfl, List.forall_mem_singleton.mpr (hbranch rfl rfl)⟩⟩)
  | retVoid => exact hstmt (List.forall_mem_singleton.mpr hret)
  | retImm =>
    exact hstmt (List.forall_mem_cons.mpr ⟨Inst.draft_loadConstant rfl,
      List.forall_mem_singleton.mpr hret⟩)
  | ret ho hvariable =>
    exact hstmt (List.forall_mem_cons.mpr ⟨Inst.draft_into rfl (hkids.operand ho) hvariable rfl
      fun h ↦ absurd h Bool.false_ne_true, List.forall_mem_singleton.mpr hret⟩)
  | arguments => exact ⟨hnone, Bound.encodable_args.mpr hkids.mems⟩
  | callVoid hargs hos =>
    exact hstmt (draft_callCode (hkids.pushed hargs hos) (hos.length_eq ▸ (hkids.args rfl _ hargs).1))
  | call hargs hos =>
    exact hcode (draft_callCode (hkids.pushed hargs hos) (hos.length_eq ▸ (hkids.args rfl _ hargs).1))

end TreeCover
