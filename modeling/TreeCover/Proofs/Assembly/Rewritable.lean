import TreeCover.Proofs.Machine.Core

/-!
# What a rewritten instruction needs

How many bytes of each register an instruction reads and renews, from which follows how many are
needed before it when it is known how many are needed after it; whether `rax` carries a value to an
instruction; and the conditions under which the repairs of an instruction do not get into each
other's way, `Inst.Rewritable`.
-/

namespace TreeCover.Machine

/-- Registers that both machines use alike. -/
def PhysReg.shared : List PhysReg := [rcx, rdx, rsp, rbp]

/-- Registers that repairs use. -/
def PhysReg.scratch : List PhysReg := [rax, r10, r11]

/-- A home is no scratch register and no shared one. -/
theorem PhysReg.home_cases {r : PhysReg} (h : r ∈ allocatable) : r ∉ scratch ∧ r ∉ shared := by
  revert r
  decide

/-! ## Bytes that are needed -/

/-- How many bytes of `u` are needed to read an operand. -/
def Operand.demand (u : VReg) : Operand → Nat
  | .reg (.virt v) width => if v = u then width else 0
  | .mem m => if .virt u ∈ m.regs then 8 else 0
  | _ => 0

/-- Whether an operand is `rax` or a part of it. -/
def Operand.isRax : Operand → Bool
  | .reg (.phys .rax) _ => true
  | _ => false

/-- Whether an operand may be in memory once it is placed. -/
def Operand.mayBeMem : Operand → Bool
  | .mem _ | .reg (.virt _) _ => true
  | _ => false

namespace Inst

variable {i : Inst} {o : Operand} {live : VReg → Nat} {u t : VReg} {n : Nat} {form : Form}

/-- How many bytes of `u` an instruction reads. -/
def demand (i : Inst) (u : VReg) : Nat := (i.readOperands.map (·.demand u)).foldr max 0

/-- How many bytes of `u` have a new value after an instruction. Four bytes clear the rest. -/
def covers (i : Inst) (u : VReg) : Nat :=
  match i.dst? with
  | some (.reg (.virt v) width) => if v = u then (if width = 4 then 8 else width) else 0
  | _ => 0

/-- How many bytes of `u` are needed before an instruction, given how many are needed after it. -/
def need (i : Inst) (live : VReg → Nat) (u : VReg) : Nat :=
  max (i.demand u) (if live u ≤ i.covers u then 0 else live u)

theorem demand_le (ho : o ∈ i.readOperands) (live : VReg → Nat) (u : VReg) :
    o.demand u ≤ i.need live u := by
  have hfold : ∀ ns : List Nat, ∀ n ∈ ns, n ≤ ns.foldr max 0 := by
    intro ns
    induction ns with
    | nil => exact fun n hn ↦ absurd hn List.not_mem_nil
    | cons k ns ih =>
      intro n hn
      rcases List.mem_cons.mp hn with rfl | hn
      · exact Nat.le_max_left _ _
      · exact Nat.le_trans (ih n hn) (Nat.le_max_right _ _)
  exact Nat.le_trans (hfold _ _ (List.mem_map_of_mem ho)) (Nat.le_max_left _ _)

theorem le_need (i : Inst) (live : VReg → Nat) (u : VReg) :
    live u ≤ i.covers u ∨ live u ≤ i.need live u := by
  by_cases h : live u ≤ i.covers u
  · exact Or.inl h
  · refine Or.inr (Nat.le_trans ?_ (Nat.le_max_right _ _))
    exact Nat.le_of_eq (if_neg h).symm

theorem covers_of_last (heffect : i.effect ≠ .none)
    (hlast : i.operands.getLast? = some (.reg (.virt t) n)) :
    i.covers u = if t = u then (if n = 4 then 8 else n) else 0 := by
  rw [covers, dst?, if_neg heffect, hlast]

theorem defs_of_last (heffect : i.effect ≠ .none)
    (hlast : i.operands.getLast? = some (.reg (.virt t) n)) : i.defs = [t] := by
  rw [defs, dst?, if_neg heffect, hlast]

theorem defs_of_effect (heffect : i.effect = .none) : i.defs = [] := by
  rw [defs, dst?, if_pos heffect]

theorem covers_eq_zero (h : u ∉ i.defs) : i.covers u = 0 := by
  rw [defs] at h
  rw [covers]
  split
  next v width hdst =>
    rw [hdst] at h
    exact if_neg fun heq ↦ h (List.mem_singleton.mpr heq.symm)
  next => rfl

/-- What is needed of a register that an instruction does not write is needed before it. -/
theorem le_need_of_not_mem (h : u ∉ i.defs) (live : VReg → Nat) : live u ≤ i.need live u := by
  rcases i.le_need live u with hle | hle
  · rw [covers_eq_zero h, Nat.le_zero] at hle
    rw [hle]
    exact Nat.zero_le _
  · exact hle

/-- The operands that are read come first. -/
theorem readOperands_prefix (i : Inst) : i.readOperands <+: i.operands := by
  rw [readOperands]
  split
  · exact List.dropLast_prefix _
  · exact List.prefix_rfl

/-- An operand is read, or it is the destination. -/
theorem mem_readOperands_or (ho : o ∈ i.operands) :
    o ∈ i.readOperands ∨ i.dst? = some o ∧ o.isReg = true := by
  rw [readOperands]
  split
  next h =>
    obtain ⟨heffect, hlast⟩ := h
    obtain ⟨last, hgetLast, hreg⟩ := (Option.any_eq_true _ _).mp hlast
    obtain ⟨os, hos⟩ := List.getLast?_eq_some_iff.mp hgetLast
    rw [hos, List.mem_append, List.mem_singleton] at ho
    rw [hos, List.dropLast_concat]
    rcases ho with ho | rfl
    · exact Or.inl ho
    · rw [dst?, if_neg (by simp [heffect]), hgetLast]
      exact Or.inr ⟨rfl, hreg⟩
  next => exact Or.inl ho

/-! ## Values in `rax` -/

/-- Whether an instruction reads `rax`. -/
def readsRax (i : Inst) : Bool :=
  i.readOperands.any Operand.isRax ||
  ((formOf i.mnemonic i.operands.length).map (·.inputs.contains .rax)).getD false ||
  i.kind = .ret

/-- Whether an instruction writes `rax`. -/
def writesRax (i : Inst) : Bool :=
  i.dst?.any Operand.isRax ||
  ((formOf i.mnemonic i.operands.length).map (·.outputs.contains .rax)).getD false ||
  i.kind = .call

theorem readsRax_of_mem {width : Nat} (h : .reg (.phys .rax) width ∈ i.readOperands) :
    i.readsRax = true := by
  have hany : i.readOperands.any Operand.isRax = true := List.any_eq_true.mpr ⟨_, h, rfl⟩
  rw [readsRax, hany]
  rfl

/-- Whether `rax` carries a value to one of some instructions. -/
def carriesRax : List Inst → Bool
  | [] => false
  | i :: is => i.readsRax || !i.writesRax && carriesRax is

/-! ## Conditions -/

/-- What an instruction of a form does with its last operand. -/
inductive Target (i : Inst) (form : Form) : Prop
  | none (htarget : form.target = .none) (heffect : i.effect = .none)
  | virt (t : VReg) (n : Nat) (htarget : form.target = some n)
      (hlast : i.operands.getLast? = some (.reg (.virt t) n)) (heffect : i.effect ≠ .none)
      (houtputs : form.outputs = []) (hn : n ≤ 8) (hlong : n = 4 → i.needsRegDst = true)
      (hwhole : i.needsRegDst = true → n = 4 ∨ n = 8)
  | phys (q : PhysReg) (htarget : form.target = some 8)
      (hlast : i.operands.getLast? = some (.reg (.phys q) 8)) (hq : q ∈ .rax :: PhysReg.shared)
      (hrbp : q ≠ .rbp) (houtputs : form.outputs = [])
  | mem (m : Mem) (n : Nat) (htarget : form.target = some n)
      (hlast : i.operands.getLast? = some (.mem m)) (heffect : i.effect = .none)
      (houtputs : form.outputs = [])

/-- Whether a repair may put an operand into `rax`. -/
def mayUseRax (i : Inst) : Bool :=
  i.needsRegDst && !i.defs.isEmpty || decide (1 < i.operands.countP Operand.mayBeMem)

/-- Repairs of such an instruction do not get into each other's way. -/
structure Rewritable (i : Inst) (form : Form) : Prop where
  call : i.mnemonic ≠ "call"
  push : i.mnemonic ≠ "pushq"
  formed : formOf i.mnemonic i.operands.length = some form
  reads : form.uses.length ≤ i.readOperands.length
  widths : ∀ n, .value n ∈ form.uses → n ∈ [1, 2, 4, 8]
  registers : ∀ q width, .reg (.phys q) width ∈ i.operands → q ∈ .rax :: PhysReg.shared
  addresses : ∀ m, .mem m ∈ i.operands → ∀ q, .phys q ∈ m.regs → q ∈ PhysReg.shared
  inputs : ∀ q ∈ form.inputs, q = .rax ∨ q = .rdx
  outputs : ∀ q ∈ form.outputs, q = .rax ∨ q = .rdx
  target : i.Target form
  regTarget : form.regTarget = true → i.needsRegDst = true
  /-- `rax` is free if a repair may use it. -/
  free : i.mayUseRax = true →
    form.inputs = [] ∧ form.outputs = [] ∧ ∀ width, .reg (.phys .rax) width ∉ i.operands
  /-- Once its destination is in a register, at most one operand is in memory. -/
  staged : i.needsRegDst = true →
    i.effect ≠ .none ∧ i.mnemonic ≠ "movq" ∧ i.operands.dropLast.countP Operand.mayBeMem ≤ 1
  /-- Otherwise there are two operands in memory at most, and the first one is read. -/
  paired : i.needsRegDst = false → 1 < i.operands.countP Operand.mayBeMem →
    ∃ o o' u us, i.operands = [o, o'] ∧ form.uses = u :: us ∧
      (o.isMem = true → ∀ u ∈ form.uses, u = .value 8)

theorem Rewritable.mem_readOperands (h : i.Rewritable form) {use : Reading}
    (huse : (use, o) ∈ form.uses.zip i.operands) : o ∈ i.readOperands := by
  obtain ⟨k, hk⟩ := List.mem_iff_getElem?.mp huse
  obtain ⟨hk, ho⟩ := List.getElem?_zip_eq_some.mp hk
  obtain ⟨rest, hrest⟩ := i.readOperands_prefix
  have hlength : k < i.readOperands.length :=
    Nat.lt_of_lt_of_le (List.getElem?_eq_some_iff.mp hk).1 h.reads
  rw [← hrest, List.getElem?_append_left hlength] at ho
  exact List.mem_of_getElem? ho

theorem Target.needsRegDst (h : i.Target form) (heffect : i.effect ≠ .none)
    (hlast : i.operands.getLast? = some (.reg (.virt t) 4)) : i.needsRegDst = true := by
  cases h with
  | none htarget hnone => exact absurd hnone heffect
  | virt t' n htarget hlast' heffect houtputs hn hlong hwhole =>
    refine hlong ?_
    rw [hlast, Option.some.injEq, Operand.reg.injEq] at hlast'
    exact hlast'.2.symm
  | phys q htarget hlast' hq hrbp houtputs => exact absurd (hlast.symm.trans hlast') (by simp)
  | mem m n htarget hlast' heffect' houtputs => exact absurd heffect' heffect

theorem Rewritable.readsRax_of_mem (h : i.Rewritable form) (hmem : .rax ∈ form.inputs) :
    i.readsRax = true := by
  have hcontains : form.inputs.contains PhysReg.rax = true := List.elem_eq_true_of_mem hmem
  rw [readsRax, h.formed, Option.map_some, Option.getD_some, hcontains, Bool.or_true]
  rfl

theorem Rewritable.accesses (h : i.Rewritable form) (s : Core) :
    s.accesses i = s.spans form i.operands := by
  rw [Core.accesses_of_plain h.call h.push, h.formed]
  rfl

theorem Rewritable.step (h : i.Rewritable form) (c : Callee) (s : Core) {ops : List Operand}
    (hlength : ops.length = i.operands.length) :
    s.step c { i with operands := ops } = s.perform form ops := by
  have hplain : s.step c { i with operands := ops } =
      (formOf i.mnemonic ops.length).bind fun form ↦ s.perform form ops :=
    Core.step_of_plain h.call h.push
  rw [hplain, hlength, h.formed]
  rfl

end Inst

end TreeCover.Machine
