import TreeCover.Proofs.Assembly.Stack

/-!
# Shapes of instructions

The instructions that selection emits come in four shapes: the last operand is a virtual register
that is written, a physical one that is written, memory that is written, or nothing is written. For
each shape it is enough to look at the data of the form to see that placement keeps the meaning of
the instruction.

A template is a list of instructions each of which can be placed where it stands, from which `rax`
carries nothing away. What templates make up is again a template.
-/

namespace TreeCover.Machine

variable {o o' : Operand} {os : List Operand} {t : VReg} {n : Nat} {m : Mem} {q : PhysReg}
  {form : Form} {mnemonic : String} {effect : Effect} {needsRegDst after : Bool} {i : Inst}
  {is js : List Inst}

/-! ## Forms -/

namespace Form

/-- The widths with which operands are read are those of the machine. -/
def Readable (form : Form) : Prop :=
  ∀ u ∈ form.uses, u ∈ [.value 1, .value 2, .value 4, .value 8, Reading.address]

/-- Nothing is read or written unnamed. -/
def Open (form : Form) : Prop := form.inputs = [] ∧ form.outputs = []

instance (form : Form) : Decidable form.Readable := inferInstanceAs (Decidable (∀ _ ∈ _, _))

instance (form : Form) : Decidable form.Open := inferInstanceAs (Decidable (_ ∧ _))

theorem Readable.widths (h : form.Readable) (n : Nat) (hn : .value n ∈ form.uses) :
    n ∈ [1, 2, 4, 8] := by
  have := h _ hn
  simpa using this

end Form

/-! ## Shapes -/

namespace Inst

/-- All operands but a register that is only written are read. -/
theorem le_length_readOperands (h : i.operands.getLast?.any Operand.isReg = true) :
    i.operands.length - 1 + (if i.effect = .update then 1 else 0) ≤ i.readOperands.length := by
  rw [readOperands]
  cases heffect : i.effect with
  | define => simp [h]
  | none => simp
  | update =>
    have hne : i.operands ≠ [] := by
      intro hnil
      rw [hnil] at h
      exact absurd h Bool.false_ne_true
    have hpos := List.length_pos_iff.mpr hne
    simp
    omega

theorem registers_of_plain {ops : List Operand} (h : ∀ o ∈ ops, o.Plain) (q : PhysReg)
    (width : Nat) (hq : .reg (.phys q) width ∈ ops) : q ∈ .rax :: PhysReg.shared := h _ hq

theorem addresses_of_plain {ops : List Operand} (h : ∀ o ∈ ops, o.Plain) (m : Mem)
    (hm : .mem m ∈ ops) : ∀ q, .phys q ∈ m.regs → q ∈ PhysReg.shared := h _ hm

/-- The last operand is a virtual register, which is written. -/
theorem rewritable_virt (os : List Operand) (hcall : mnemonic ≠ "call") (hpush : mnemonic ≠ "pushq")
    (hformed : formOf mnemonic (os.length + 1) = some form) (hopen : form.Open)
    (hreadable : form.Readable) (heffect : effect ≠ .none)
    (hreads : form.uses.length ≤ os.length + if effect = .update then 1 else 0)
    (htarget : form.target = some n) (hn : n ≤ 8)
    (hlong : n = 4 → needsRegDst = true) (hwhole : needsRegDst = true → n = 4 ∨ n = 8)
    (hregTarget : form.regTarget = true → needsRegDst = true) (hos : ∀ o ∈ os, o.Plain)
    (hstaged : needsRegDst = true → mnemonic ≠ "movq" ∧ os.countP Operand.mayBeMem ≤ 1 ∧
      ∀ o ∈ os, o.isRax = false)
    (hpaired : needsRegDst = false → ∀ o ∈ os, os = [o] ∧ form.uses ≠ [] ∧
      (o.isMem = true → ∀ u ∈ form.uses, u = .value 8)) :
    Rewritable { mnemonic, operands := os ++ [.reg (.virt t) n], effect, needsRegDst } form where
  call := hcall
  push := hpush
  formed := by rw [List.length_append]; exact hformed
  reads := by
    refine Nat.le_trans hreads (Nat.le_trans ?_ (le_length_readOperands ?_))
    · simp
    · rw [List.getLast?_concat]
      rfl
  widths := hreadable.widths
  registers := registers_of_plain (List.forall_mem_append.mpr ⟨hos, by simp [Operand.Plain]⟩)
  addresses := addresses_of_plain (List.forall_mem_append.mpr ⟨hos, by simp [Operand.Plain]⟩)
  inputs q hq := absurd (hopen.1 ▸ hq) List.not_mem_nil
  outputs q hq := absurd (hopen.2 ▸ hq) List.not_mem_nil
  target := .virt t n htarget List.getLast?_concat heffect hopen.2 hn hlong hwhole
  regTarget := hregTarget
  free hmay := by
    refine ⟨hopen.1, hopen.2, fun width hmem ↦ ?_⟩
    rw [List.mem_append, List.mem_singleton] at hmem
    have hmem : Operand.reg (.phys .rax) width ∈ os := hmem.resolve_right (by simp)
    rw [mayUseRax, Bool.or_eq_true, Bool.and_eq_true] at hmay
    cases hneeds : needsRegDst with
    | true => exact absurd ((hstaged hneeds).2.2 _ hmem) (by simp [Operand.isRax])
    | false =>
      obtain ⟨rfl, -⟩ := hpaired hneeds _ hmem
      rcases hmay with hmay | hmay
      · exact absurd (hneeds.symm.trans hmay.1) Bool.false_ne_true
      · exact absurd hmay (by simp [Operand.mayBeMem])
  staged hneeds := by
    obtain ⟨hname, hfew, -⟩ := hstaged hneeds
    exact ⟨heffect, hname, by rw [List.dropLast_concat]; exact hfew⟩
  paired hneeds htwo := by
    cases os with
    | nil => exact absurd htwo (by simp [Operand.mayBeMem])
    | cons o os =>
      obtain ⟨hos, huses, hwhole⟩ := hpaired hneeds o List.mem_cons_self
      obtain ⟨u, us, huses⟩ := List.exists_cons_of_ne_nil huses
      exact ⟨o, _, u, us, by rw [hos]; rfl, huses, hwhole⟩

/-- A physical register stays where it is. -/
theorem countP_mayBeMem_phys (o : Operand) (q : PhysReg) :
    [o, .phys q].countP Operand.mayBeMem ≤ 1 := by
  have hlast : [Operand.phys q].countP Operand.mayBeMem = 0 := rfl
  rw [List.countP_cons, hlast, Nat.zero_add]
  split
  next => exact Nat.le_refl 1
  next => exact Nat.zero_le 1

/-- The last operand is a physical register, which is written. -/
theorem rewritable_phys (hcall : mnemonic ≠ "call") (hpush : mnemonic ≠ "pushq")
    (hformed : formOf mnemonic 2 = some form) (hopen : form.Open) (hreadable : form.Readable)
    (heffect : effect ≠ .none)
    (hreads : form.uses.length ≤ 1 + if effect = .update then 1 else 0)
    (htarget : form.target = some 8) (hregTarget : form.regTarget = true → needsRegDst = true)
    (ho : o.Plain) (hq : q ∈ .rax :: PhysReg.shared) (hrbp : q ≠ .rbp)
    (hstaged : needsRegDst = true → mnemonic ≠ "movq") :
    Rewritable { mnemonic, operands := [o, .phys q], effect, needsRegDst } form := by
  have hplain : ∀ o' ∈ [o, .phys q], o'.Plain := by
    simp only [List.forall_mem_cons, List.not_mem_nil, false_imp_iff, implies_true, and_true]
    exact ⟨ho, hq⟩
  have hfew := countP_mayBeMem_phys o q
  have hdefs : defs { mnemonic, operands := [o, .phys q], effect, needsRegDst } = [] := by
    rw [defs, dst?, if_neg heffect]
    rfl
  have hmay : mayUseRax { mnemonic, operands := [o, .phys q], effect, needsRegDst } = false := by
    rw [mayUseRax, hdefs, decide_eq_false (Nat.not_lt.mpr hfew)]
    simp
  have hlength : 1 + (if effect = .update then 1 else 0) ≤
      (readOperands { mnemonic, operands := [o, .phys q], effect, needsRegDst }).length :=
    le_length_readOperands (i := { mnemonic, operands := [o, .phys q], effect, needsRegDst }) rfl
  refine ⟨hcall, hpush, hformed, Nat.le_trans hreads hlength, hreadable.widths, registers_of_plain hplain, addresses_of_plain hplain,
    fun q hq ↦ absurd (hopen.1 ▸ hq) List.not_mem_nil,
    fun q hq ↦ absurd (hopen.2 ▸ hq) List.not_mem_nil,
    .phys q htarget rfl hq hrbp hopen.2, hregTarget,
    fun h ↦ absurd (hmay.symm.trans h) Bool.false_ne_true,
    fun hneeds ↦ ⟨heffect, hstaged hneeds, List.countP_le_length⟩,
    fun _ htwo ↦ absurd htwo (Nat.not_lt.mpr hfew)⟩

/-- The last operand is in memory, and is written. -/
theorem rewritable_mem (hcall : mnemonic ≠ "call") (hpush : mnemonic ≠ "pushq")
    (hformed : formOf mnemonic 2 = some form) (hopen : form.Open) (hreadable : form.Readable)
    (hreads : form.uses.length = 1) (htarget : form.target = some n)
    (hregTarget : form.regTarget = false) (ho : o.Plain) (hmem : o.isMem = false)
    (hrax : o.isRax = false) (hm : (Operand.mem m).Plain) :
    Rewritable { mnemonic, operands := [o, .mem m] } form := by
  have hplain : ∀ o' ∈ [o, .mem m], o'.Plain := by
    simp only [List.forall_mem_cons, List.not_mem_nil, false_imp_iff, implies_true, and_true]
    exact ⟨ho, hm⟩
  obtain ⟨u, us, huses⟩ := List.exists_cons_of_length_eq_add_one hreads
  refine ⟨hcall, hpush, hformed, ?_, hreadable.widths, registers_of_plain hplain,
    addresses_of_plain hplain, fun q hq ↦ absurd (hopen.1 ▸ hq) List.not_mem_nil,
    fun q hq ↦ absurd (hopen.2 ▸ hq) List.not_mem_nil, .mem m n htarget rfl rfl hopen.2,
    fun h ↦ absurd (hregTarget.symm.trans h) Bool.false_ne_true, fun _ ↦ ⟨hopen.1, hopen.2, ?_⟩,
    fun h ↦ absurd h Bool.false_ne_true,
    fun _ _ ↦ ⟨o, _, u, us, rfl, huses, fun h ↦ absurd (hmem.symm.trans h) Bool.false_ne_true⟩⟩
  · rw [hreads]
    exact (by decide : 1 ≤ 2)
  · intro width hin
    rw [List.mem_cons, List.mem_singleton] at hin
    rcases hin with rfl | hin
    · exact absurd hrax (by simp [Operand.isRax])
    · exact absurd hin (by simp)

/-- No operand is written. -/
theorem rewritable_none (hcall : mnemonic ≠ "call") (hpush : mnemonic ≠ "pushq")
    (hformed : formOf mnemonic os.length = some form) (hreadable : form.Readable)
    (hreads : form.uses.length = os.length) (htarget : form.target = none)
    (hinputs : ∀ q ∈ form.inputs, q = .rax ∨ q = .rdx)
    (houtputs : ∀ q ∈ form.outputs, q = .rax ∨ q = .rdx)
    (hregTarget : form.regTarget = false) (hos : ∀ o ∈ os, o.Plain)
    (hpaired : 1 < os.countP Operand.mayBeMem → form.Open ∧ (∀ o ∈ os, o.isRax = false) ∧
      ∃ o o', os = [o, o'] ∧ ∀ u ∈ form.uses, u = .value 8) :
    Rewritable { mnemonic, operands := os } form := by
  refine ⟨hcall, hpush, hformed, Nat.le_of_eq hreads, hreadable.widths, registers_of_plain hos,
    addresses_of_plain hos, hinputs, houtputs, .none htarget rfl,
    fun h ↦ absurd (hregTarget.symm.trans h) Bool.false_ne_true, fun hmay ↦ ?_,
    fun h ↦ absurd h Bool.false_ne_true, fun _ htwo ↦ ?_⟩
  · obtain ⟨hopen, hrax, -⟩ := hpaired (by simpa [mayUseRax] using hmay)
    refine ⟨hopen.1, hopen.2, fun width hmem ↦ ?_⟩
    exact absurd (hrax _ hmem) (by simp [Operand.isRax])
  · obtain ⟨-, -, o, o', rfl, huses⟩ := hpaired htwo
    obtain ⟨u, us, hcons⟩ := List.exists_cons_of_length_eq_add_one hreads
    exact ⟨o, o', u, us, rfl, hcons, fun _ ↦ huses⟩

end Inst

end TreeCover.Machine
