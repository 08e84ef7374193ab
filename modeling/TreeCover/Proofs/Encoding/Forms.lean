import TreeCover.Proofs.Convention.Finished

/-!
# Forms that have an encoding

An instruction set encodes a few combinations of operands only: at most one operand in memory, a
constant only as a source and only if it fits, no index in the stack pointer. `Inst.Encodable` says so
of a finished instruction. A `Draft` is an instruction with virtual registers that becomes encodable
once it is placed, whichever of its registers live in the frame. Main statement: `inst_encodable`.
-/

namespace TreeCover

open Machine

variable {a : Allocation} {i j : Inst} {is loads : List Inst} {o src dst : Operand} {os : List Operand}
  {r r' : Reg} {q : PhysReg} {m m' : Mem} {z : Placement.Sized} {zs : List Placement.Sized}
  {v : VReg} {w : Word} {bytes : Nat} {mnemonic : String}

/-! ## Forms -/

namespace Machine

/-- An address whose index, if it has one, is not the stack pointer, and whose scale is the size of
a word that the machine knows. -/
def Mem.Encodable (m : Mem) : Prop :=
  ∀ r scale, m.index = some (r, scale) → r ≠ .phys .rsp ∧ scale ∈ [1, 2, 4, 8]

/-- An operand that is no address, or an address that has an encoding. -/
def Operand.Encodable (o : Operand) : Prop := ∀ m, o = .mem m → m.Encodable

/-- A finished instruction that has an encoding. -/
structure Inst.Encodable (i : Inst) : Prop where
  /-- Only physical registers are named. -/
  physical : ∀ o ∈ i.operands, o.vregs = []
  /-- At most one operand is in memory. -/
  single : i.operands.countP Operand.isMem ≤ 1
  /-- The destination is a register where one is needed. -/
  destination : i.needsRegDst = true → i.operands.getLast?.any Operand.isReg = true
  /-- Constants are sources. -/
  source : ∀ w, i.operands.getLast? ≠ some (.imm w)
  /-- They fit, unless they are moved into a register by the long form. -/
  constant : ∀ w, .imm w ∈ i.operands → fitsImm32 w = true ∨
    i.mnemonic = "movabsq" ∧ i.operands.getLast?.any Operand.isReg = true
  /-- Addresses have encodings. -/
  address : ∀ o ∈ i.operands, o.Encodable

/-- An instruction with virtual registers that has an encoding once it is placed. -/
structure Inst.Draft (i : Inst) : Prop where
  few : i.operands.countP Operand.mayBeMem ≤ 2
  destination : i.needsRegDst = true →
    i.effect ≠ .none ∧ i.operands.getLast?.any Operand.isReg = true
  source : ∀ w, i.operands.getLast? ≠ some (.imm w)
  constant : ∀ w, .imm w ∈ i.operands → fitsImm32 w = true ∨
    i.mnemonic = "movabsq" ∧ i.needsRegDst = true
  address : ∀ o ∈ i.operands, o.Encodable

theorem Mem.encodable_based (r : Reg) (d : Int) : (Mem.based r d).Encodable :=
  fun _ _ h ↦ absurd h (by simp [Mem.based])

theorem Mem.encodable_frame (d : Int) : (Mem.frame d).Encodable := Mem.encodable_based _ d

theorem Operand.encodable_mem : (Operand.mem m).Encodable ↔ m.Encodable :=
  ⟨fun h ↦ h m rfl, fun h _ hm ↦ Operand.mem.inj hm ▸ h⟩

theorem Operand.encodable_of_not_mem (h : o.isMem = false) : o.Encodable := by
  rintro m rfl
  exact absurd h (by simp [Operand.isMem])

/-! ## Instructions of two operands -/

/-- A physical operand that may stand in a finished instruction. -/
structure Operand.Finished (o : Operand) : Prop where
  physical : o.vregs = []
  address : o.Encodable

theorem Operand.finished_phys (q : PhysReg) (width : Nat) : (Operand.reg (.phys q) width).Finished :=
  ⟨rfl, encodable_of_not_mem rfl⟩

theorem Operand.finished_imm (w : Word) : (Operand.imm w).Finished := ⟨rfl, encodable_of_not_mem rfl⟩

theorem Operand.finished_frame (d : Int) : (Operand.mem (.frame d)).Finished :=
  ⟨rfl, encodable_mem.mpr (Mem.encodable_frame d)⟩

/-- A source and a destination that are not both in memory. -/
theorem Inst.encodable_pair (hops : i.operands = [src, dst]) (hsrc : src.Finished)
    (hdst : dst.Finished) (hplace : dst.isReg = true ∨ dst.isMem = true ∧ i.needsRegDst = false)
    (hmem : src.isMem = true → dst.isReg = true)
    (hconstant : ∀ w, src = .imm w → fitsImm32 w = true ∨ i.mnemonic = "movabsq" ∧ dst.isReg = true) :
    i.Encodable := by
  have hlast : i.operands.getLast? = some dst := by rw [hops]; rfl
  have hno : ∀ w, dst ≠ .imm w := by
    rintro w rfl
    exact absurd hplace (by simp [Operand.isReg, Operand.isMem])
  have hnot : dst.isReg = true → dst.isMem = false := by
    cases dst <;> simp [Operand.isReg, Operand.isMem]
  refine ⟨?_, ?_, fun hneeds ↦ ?_, fun w hw ↦ ?_, fun w hw ↦ ?_, ?_⟩
  · simp [hops, hsrc.physical, hdst.physical]
  · rw [hops, List.countP_cons, List.countP_singleton]
    by_cases hm : src.isMem = true
    · simp [hm, hnot (hmem hm)]
    · simp only [hm]
      split <;> simp
  · rw [hlast]
    exact hplace.resolve_right fun h ↦ absurd (h.2.symm.trans hneeds) (by simp)
  · exact hno w (Option.some.inj (hlast.symm.trans hw))
  · rw [hlast]
    rw [hops, List.mem_cons, List.mem_singleton] at hw
    exact hw.elim (fun h ↦ hconstant w h.symm) fun h ↦ absurd h.symm (hno w)
  · simp [hops, hsrc.address, hdst.address]

/-- An instruction whose operands are all labels or symbols. -/
theorem Inst.encodable_of_names (hneeds : i.needsRegDst = false)
    (h : ∀ o ∈ i.operands, (∃ l, o = .label l) ∨ ∃ s, o = .symbol s) : i.Encodable := by
  have hnone : ∀ o ∈ i.operands, o.vregs = [] ∧ o.isMem = false ∧ ∀ w, o ≠ .imm w := by
    intro o ho
    rcases h o ho with ⟨l, rfl⟩ | ⟨s, rfl⟩ <;> exact ⟨rfl, rfl, fun _ ↦ Operand.noConfusion⟩
  refine ⟨fun o ho ↦ (hnone o ho).1, ?_, fun h ↦ absurd (hneeds.symm.trans h) (by simp),
    fun w hw ↦ (hnone _ (List.mem_of_getLast? hw)).2.2 w rfl,
    fun w hw ↦ absurd rfl ((hnone _ hw).2.2 w),
    fun o ho ↦ Operand.encodable_of_not_mem (hnone o ho).2.1⟩
  rw [List.countP_eq_zero.mpr fun o ho ↦ by simp [(hnone o ho).2.1]]
  exact Nat.zero_le 1

/-- A move into a physical register. -/
theorem Inst.encodable_load (hm : src.Finished) (hconstant : ∀ w, src ≠ .imm w) (mnemonic : String)
    (q : PhysReg) (width : Nat) : (Inst.define mnemonic [src, .reg (.phys q) width]).Encodable :=
  Inst.encodable_pair rfl hm (Operand.finished_phys q width) (Or.inl rfl) (fun _ ↦ rfl)
    fun w hw ↦ absurd hw (hconstant w)

end Machine

/-! ## Placing -/

/-- An allocation that keeps values out of the stack pointer and addresses the frame plainly. -/
structure Allocation.Orderly (a : Allocation) : Prop where
  register : ∀ v q, a.location? v = some (.register q) → q ≠ .rsp
  slot : ∀ v m, a.location? v = some (.stack m) → ∃ d, m = .frame d

namespace Placement

/-- An operand after placing: it can stand in a finished instruction, and was not changed in kind. -/
structure Places (o : Operand) (z : Sized) : Prop extends z.1.Finished where
  memory : z.1.isMem = true → o.mayBeMem = true
  constant : ∀ w, z.1 = .imm w → o = .imm w
  register : o.isReg = true → z.1.isReg = true ∨ z.1.isMem = true

variable (ha : a.Orderly)
include ha

theorem addressReg_encodable (h : addressReg a r q = .ok (is, r')) (hq : q ≠ .rsp) :
    (∀ i ∈ is, i.Encodable) ∧ r'.virt? = none ∧ (r ≠ .phys .rsp → r' ≠ .phys .rsp) := by
  cases r with
  | phys p =>
    obtain ⟨rfl, rfl⟩ := Prod.mk.inj (Except.ok.inj h)
    exact ⟨fun _ hi ↦ absurd hi List.not_mem_nil, rfl, fun hr ↦ hr⟩
  | virt v =>
    obtain ⟨l, hl, h⟩ := Placing.bind_eq_ok.mp h
    have hlocation := Allocation.locate_eq_ok.mp hl
    cases l with
    | register p =>
      obtain ⟨rfl, rfl⟩ := Prod.mk.inj (Except.ok.inj h)
      exact ⟨fun _ hi ↦ absurd hi List.not_mem_nil, rfl,
        fun _ hp ↦ ha.register v p hlocation (Reg.phys.inj hp)⟩
    | stack slot =>
      obtain ⟨rfl, rfl⟩ := Prod.mk.inj (Except.ok.inj h)
      obtain ⟨d, rfl⟩ := ha.slot v slot hlocation
      exact ⟨List.forall_mem_singleton.mpr (Inst.encodable_load (Operand.finished_frame d)
        (fun _ ↦ Operand.noConfusion) _ _ _), rfl, fun _ hp ↦ hq (Reg.phys.inj hp)⟩

theorem address_encodable (h : address a m = .ok (is, m')) (hm : m.Encodable) :
    (∀ i ∈ is, i.Encodable) ∧ (Operand.mem m').vregs = [] ∧ m'.Encodable := by
  obtain ⟨⟨loads, base⟩, hbase, h⟩ := Placing.bind_eq_ok.mp h
  obtain ⟨hloads, hvirt⟩ := addressReg_encodable ha hbase (by decide)
  cases hindex : m.index with
  | none =>
    rw [hindex] at h
    obtain ⟨rfl, rfl⟩ := Prod.mk.inj (Except.ok.inj h)
    refine ⟨hloads, ?_, fun _ _ h ↦ absurd h (by simp)⟩
    simp [Operand.vregs, Mem.regs, hvirt]
  | some part =>
    rw [hindex] at h
    obtain ⟨⟨more, index⟩, hmore, h⟩ := Placing.bind_eq_ok.mp h
    obtain ⟨rfl, rfl⟩ := Prod.mk.inj (Except.ok.inj h)
    obtain ⟨hr, hscale⟩ := hm part.1 part.2 hindex
    obtain ⟨hloads', hvirt', hr'⟩ := addressReg_encodable ha hmore (by decide)
    refine ⟨List.forall_mem_append.mpr ⟨hloads, hloads'⟩, ?_, fun r scale h ↦ ?_⟩
    · simp [Operand.vregs, Mem.regs, hvirt, hvirt']
    · obtain ⟨rfl, rfl⟩ := Prod.mk.inj (Option.some.inj h)
      exact ⟨hr' hr, hscale⟩

theorem operand_encodable (h : operand a o = .ok (is, z)) (ho : o.Encodable) :
    (∀ i ∈ is, i.Encodable) ∧ Places o z := by
  cases o with
  | mem m =>
    obtain ⟨⟨loads, m'⟩, hm, h⟩ := Placing.bind_eq_ok.mp h
    obtain ⟨rfl, rfl⟩ := Prod.mk.inj (Except.ok.inj h)
    obtain ⟨hloads, hvregs, hm'⟩ := address_encodable ha hm (ho m rfl)
    exact ⟨hloads, ⟨hvregs, Operand.encodable_mem.mpr hm'⟩, fun _ ↦ rfl,
      fun _ ↦ Operand.noConfusion, fun h ↦ absurd h Bool.false_ne_true⟩
  | reg r width =>
    cases r with
    | phys p =>
      obtain ⟨rfl, rfl⟩ := Prod.mk.inj (Except.ok.inj h)
      exact ⟨fun _ hi ↦ absurd hi List.not_mem_nil, Operand.finished_phys p width,
        fun h ↦ absurd h Bool.false_ne_true, fun _ ↦ Operand.noConfusion, fun _ ↦ Or.inl rfl⟩
    | virt v =>
      obtain ⟨l, hl, h⟩ := Placing.bind_eq_ok.mp h
      cases l with
      | register p =>
        obtain ⟨rfl, rfl⟩ := Prod.mk.inj (Except.ok.inj h)
        exact ⟨fun _ hi ↦ absurd hi List.not_mem_nil, Operand.finished_phys p width,
          fun _ ↦ rfl, fun _ ↦ Operand.noConfusion, fun _ ↦ Or.inl rfl⟩
      | stack slot =>
        obtain ⟨rfl, rfl⟩ := Prod.mk.inj (Except.ok.inj h)
        obtain ⟨d, rfl⟩ := ha.slot v slot (Allocation.locate_eq_ok.mp hl)
        exact ⟨fun _ hi ↦ absurd hi List.not_mem_nil, Operand.finished_frame d,
          fun _ ↦ rfl, fun _ ↦ Operand.noConfusion, fun _ ↦ Or.inr rfl⟩
  | imm w =>
    obtain ⟨rfl, rfl⟩ := Prod.mk.inj (Except.ok.inj h)
    exact ⟨fun _ hi ↦ absurd hi List.not_mem_nil, Operand.finished_imm w,
      fun h ↦ absurd h Bool.false_ne_true, fun _ h ↦ h, fun h ↦ absurd h Bool.false_ne_true⟩
  | _ =>
    obtain ⟨rfl, rfl⟩ := Prod.mk.inj (Except.ok.inj h)
    exact ⟨fun _ hi ↦ absurd hi List.not_mem_nil, ⟨rfl, Operand.encodable_of_not_mem rfl⟩,
      fun h ↦ absurd h Bool.false_ne_true, fun _ ↦ Operand.noConfusion,
      fun h ↦ absurd h Bool.false_ne_true⟩

theorem operands_encodable (h : operands a os = .ok (is, zs)) (hos : ∀ o ∈ os, o.Encodable) :
    (∀ i ∈ is, i.Encodable) ∧ List.Forall₂ Places os zs := by
  induction os generalizing is zs with
  | nil =>
    obtain ⟨rfl, rfl⟩ := Prod.mk.inj (Except.ok.inj h)
    exact ⟨fun _ hi ↦ absurd hi List.not_mem_nil, .nil⟩
  | cons o os ih =>
    rw [List.forall_mem_cons] at hos
    obtain ⟨⟨loads, z⟩, ho, h⟩ := Placing.bind_eq_ok.mp h
    obtain ⟨⟨more, zs⟩, hmore, h⟩ := Placing.bind_eq_ok.mp h
    obtain ⟨rfl, rfl⟩ := Prod.mk.inj (Except.ok.inj h)
    obtain ⟨hloads, hz⟩ := operand_encodable ha ho hos.1
    obtain ⟨hloads', hzs⟩ := ih hmore hos.2
    exact ⟨List.forall_mem_append.mpr ⟨hloads, hloads'⟩, .cons hz hzs⟩

omit ha

/-! ## Repairs -/

/-- `rax`, accessed with some bytes. -/
def stand (width : Nat) : Sized := (.reg (.phys .valueScratch) width, width)

theorem mem_fetchFirst (hz : z ∈ (fetchFirst zs).2) : z ∈ zs ∨ ∃ width, z = stand width := by
  induction zs with
  | nil => exact absurd hz List.not_mem_nil
  | cons z' zs ih =>
    obtain ⟨o, width⟩ := z'
    rw [fetchFirst] at hz
    split at hz
    · rcases List.mem_cons.mp hz with rfl | hz
      · exact Or.inr ⟨width, rfl⟩
      · exact Or.inl (List.mem_cons_of_mem _ hz)
    · rcases List.mem_cons.mp hz with rfl | hz
      · exact Or.inl List.mem_cons_self
      · exact (ih hz).imp_left (List.mem_cons_of_mem _)

/-- One operand less is in memory. -/
theorem countP_fetchFirst (zs : List Sized) :
    (fetchFirst zs).2.countP (·.1.isMem) = zs.countP (·.1.isMem) - 1 := by
  induction zs with
  | nil => rfl
  | cons z zs ih =>
    obtain ⟨o, width⟩ := z
    rw [fetchFirst]
    split
    next ho =>
      rw [List.countP_cons_of_neg Bool.false_ne_true, List.countP_cons_of_pos (by exact ho),
        Nat.add_sub_cancel]
    next ho => rw [List.countP_cons_of_neg (by exact ho), List.countP_cons_of_neg (by exact ho), ih]

/-- What is fetched is one of the operands. -/
theorem fetchFirst_encodable (h : ∀ z ∈ zs, z.1.Finished) :
    ∀ i ∈ (fetchFirst zs).1, i.Encodable := by
  induction zs with
  | nil => exact fun _ hi ↦ absurd hi List.not_mem_nil
  | cons z zs ih =>
    obtain ⟨o, width⟩ := z
    rw [List.forall_mem_cons] at h
    rw [fetchFirst]
    split
    next ho =>
      refine List.forall_mem_singleton.mpr (Inst.encodable_load h.1 ?_ _ _ _)
      rintro w rfl
      exact absurd ho Bool.false_ne_true
    next => exact ih h.2

/-- Of two operands at most one is left in memory. -/
theorem repairMemory_encodable (h : ∀ z ∈ zs, z.1.Finished) (hfew : zs.countP (·.1.isMem) ≤ 2) :
    (∀ i ∈ (repairMemory zs).1, i.Encodable) ∧ (repairMemory zs).2.countP (·.1.isMem) ≤ 1 ∧
      ∀ z ∈ (repairMemory zs).2, z ∈ zs ∨ ∃ width, z = stand width := by
  rw [repairMemory]
  split
  next => exact ⟨fetchFirst_encodable h, by rw [countP_fetchFirst]; omega, fun z ↦ mem_fetchFirst⟩
  next hone => exact ⟨fun _ hi ↦ absurd hi List.not_mem_nil, by simpa using hone, fun _ ↦ Or.inl⟩

/-- What stands in place of a virtual register is in memory only if the frame is. -/
theorem countP_places (h : List.Forall₂ Places os zs) :
    zs.countP (·.1.isMem) ≤ os.countP Operand.mayBeMem := by
  induction h with
  | nil => exact Nat.le_refl 0
  | @cons o z _ _ hz _ ih =>
    rw [List.countP_cons, List.countP_cons]
    refine Nat.add_le_add ih ?_
    by_cases hmem : z.1.isMem = true
    · rw [if_pos hmem, if_pos (hz.memory hmem)]
    · rw [if_neg hmem]
      exact Nat.zero_le _

/-- An operand of a finished instruction, which is no constant that the instruction did not have. -/
structure Stands (i : Inst) (z : Sized) : Prop extends z.1.Finished where
  constant : ∀ w, z.1 = .imm w → .imm w ∈ i.operands

theorem stands_stand (width : Nat) : Stands i (stand width) :=
  ⟨Operand.finished_phys _ width, fun _ ↦ Operand.noConfusion⟩

theorem stands_of_places (h : List.Forall₂ Places i.operands zs) : ∀ z ∈ zs, Stands i z := by
  intro z hz
  obtain ⟨k, hk, rfl⟩ := List.mem_iff_getElem.mp hz
  have hplaces := h.get (h.length_eq ▸ hk) hk
  exact ⟨hplaces.toFinished, fun w hw ↦ hplaces.constant w hw ▸ List.get_mem _ _⟩

/-- The destination of a draft is placed where it can be, once it is repaired. -/
theorem repairDestination_encodable (hi : i.Draft) (h : List.Forall₂ Places i.operands zs) :
    (∀ j ∈ (repairDestination i zs).before, j.Encodable) ∧
    (∀ j ∈ (repairDestination i zs).after, j.Encodable) ∧
    (∀ z ∈ (repairDestination i zs).operands, Stands i z) ∧
    (repairDestination i zs).operands.countP (·.1.isMem) ≤ 2 ∧
    (∀ z, (repairDestination i zs).operands.getLast? = some z → ∀ w, z.1 ≠ .imm w) ∧
    (i.needsRegDst = true → (repairDestination i zs).operands.getLast?.any (·.1.isReg) = true) := by
  have hstands := stands_of_places h
  have hcount := (countP_places h).trans hi.few
  rcases repairDestination_cases i zs with ⟨hnone, hreg⟩ | ⟨-, front, slot, width, rfl, hsome⟩
  · rw [hnone]
    refine ⟨fun _ hj ↦ absurd hj List.not_mem_nil, fun _ hj ↦ absurd hj List.not_mem_nil, hstands,
      hcount, fun z hz w hw ↦ ?_, fun hneeds ↦ ?_⟩
    · obtain ⟨front, rfl⟩ := List.getLast?_eq_some_iff.mp hz
      obtain ⟨os, o, hos, -, hplaces⟩ := forall₂_concat h.flip
      exact hi.source w (by rw [hos, List.getLast?_concat, hplaces.constant w hw])
    · obtain ⟨heffect, hdst⟩ := hi.destination hneeds
      obtain ⟨o, ho, hisReg⟩ : ∃ o, i.operands.getLast? = some o ∧ o.isReg = true := by
        cases hlast : i.operands.getLast? with
        | none => simp [hlast] at hdst
        | some o => exact ⟨o, rfl, by simpa [hlast] using hdst⟩
      obtain ⟨os, hos⟩ := List.getLast?_eq_some_iff.mp ho
      obtain ⟨front, z, rfl, -, hplaces⟩ := forall₂_concat (hos ▸ h)
      have hlast : (front ++ [z]).getLast? = some z := List.getLast?_concat
      rw [hlast]
      exact (hplaces.register hisReg).resolve_right fun hmem ↦
        absurd (hmem.symm.trans (hreg hneeds heffect z hlast)) Bool.noConfusion
  · -- the slot was the last operand
    have hslot : (Operand.mem slot).Finished :=
      (hstands _ (List.mem_append_right _ List.mem_cons_self)).toFinished
    rw [hsome]
    refine ⟨fun j hj ↦ ?_, List.forall_mem_singleton.mpr ?_, fun z hz ↦ ?_, ?_, fun z hz ↦ ?_,
      fun _ ↦ by rw [List.getLast?_concat]; rfl⟩
    · split at hj
      · obtain rfl := List.mem_singleton.mp hj
        exact Inst.encodable_load hslot (fun _ ↦ Operand.noConfusion) _ _ _
      · exact absurd hj List.not_mem_nil
    · exact Inst.encodable_pair rfl (Operand.finished_phys _ _) hslot (Or.inr ⟨rfl, rfl⟩)
        (fun h ↦ absurd h Bool.false_ne_true) fun _ ↦ Operand.noConfusion
    · rcases List.mem_append.mp hz with hz | hz
      · exact hstands z (List.mem_append_left _ hz)
      · obtain rfl := List.mem_singleton.mp hz
        exact stands_stand width
    · refine le_trans ?_ hcount
      rw [List.countP_append, List.countP_append]
      exact Nat.add_le_add_left (Nat.zero_le _) _
    · rw [List.getLast?_concat] at hz
      obtain rfl := Option.some.inj hz
      exact fun _ ↦ Operand.noConfusion

/-! ## Instructions -/

/-- **Placing makes forms that have an encoding**, whichever registers live in the frame. -/
theorem inst_encodable (ha : a.Orderly) (hi : i.Draft) (h : inst a i = .ok is) :
    ∀ j ∈ is, j.Encodable := by
  obtain ⟨⟨loads, zs⟩, hops, h⟩ := Placing.bind_eq_ok.mp h
  obtain rfl := Except.ok.inj h
  obtain ⟨hloads, hzs⟩ := operands_encodable ha hops hi.address
  obtain ⟨hbefore, hafter, hstands, hcount, hsource, hdst⟩ := repairDestination_encodable hi hzs
  obtain ⟨hfetch, hone, hmem⟩ := repairMemory_encodable (fun z hz ↦ (hstands z hz).toFinished) hcount
  have hlast := (repairMemory_ok (a := a) (repairDestination i zs).operands).2.2
  have hplaced : ∀ o ∈ (repairMemory (repairDestination i zs).operands).2.map (·.1),
      o.Finished ∧ ∀ w, o = .imm w → .imm w ∈ i.operands := by
    intro o ho
    obtain ⟨z, hz, rfl⟩ := List.mem_map.mp ho
    rcases hmem z hz with hz | ⟨width, rfl⟩
    · exact ⟨(hstands z hz).toFinished, (hstands z hz).constant⟩
    · exact ⟨(stands_stand (i := i) width).toFinished, (stands_stand width).constant⟩
  have hisReg : i.needsRegDst = true →
      ((repairMemory (repairDestination i zs).operands).2.map (·.1)).getLast?.any Operand.isReg =
        true := by
    intro hneeds
    rw [List.getLast?_map, hlast, Option.any_map]
    exact hdst hneeds
  have hfinal : Inst.Encodable
      { i with operands := (repairMemory (repairDestination i zs).operands).2.map (·.1) } := by
    refine ⟨fun o ho ↦ (hplaced o ho).1.physical, ?_, hisReg, fun w hw ↦ ?_, fun w hw ↦ ?_,
      fun o ho ↦ (hplaced o ho).1.address⟩
    · rw [List.countP_map]
      exact hone
    · rw [List.getLast?_map, hlast, Option.map_eq_some_iff] at hw
      obtain ⟨z, hz, hzw⟩ := hw
      exact hsource z hz w hzw
    · exact (hi.constant w ((hplaced _ hw).2 w rfl)).imp_right fun h ↦ ⟨h.1, hisReg h.2⟩
  refine List.forall_mem_append.mpr ⟨List.forall_mem_append.mpr ⟨List.forall_mem_append.mpr
    ⟨hloads, hbefore⟩, hfetch⟩, ?_⟩
  split
  · exact fun _ hj ↦ absurd hj List.not_mem_nil
  · exact List.forall_mem_cons.mpr ⟨hfinal, hafter⟩

end Placement

end TreeCover
