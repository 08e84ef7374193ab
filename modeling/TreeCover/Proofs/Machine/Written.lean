import TreeCover.Proofs.Machine.Control

/-!
# What an instruction writes

An instruction other than a call writes its last operand, and some that name no operand for it write
`rax` and `rdx`. Everything else is as it was before.
-/

namespace TreeCover.Machine

/-- Only `rax` and `rdx` are written unnamed, and then nothing else is. Otherwise at most a word
is written. -/
structure Form.Confined (form : Form) : Prop where
  outputs : form.outputs ⊆ [.rax, .rdx]
  target : ∀ n, form.target = some n → n ≤ 8 ∧ form.outputs = []

theorem formOf_confined {mnemonic : String} {n : Nat} {form : Form}
    (h : formOf mnemonic n = some form) : form.Confined := by
  have hnone {form : Form} (hform : form.outputs = []) (hwidth : form.target.all (· ≤ 8) = true) :
      form.Confined := by
    refine ⟨by rw [hform]; exact List.nil_subset _, fun n hn ↦ ⟨?_, hform⟩⟩
    rw [hn] at hwidth
    simpa using hwidth
  unfold formOf at h
  split at h
  all_goals
    first
      | obtain rfl := Option.some.inj h
        first
          | exact hnone rfl rfl
          | exact ⟨by decide, fun _ htarget ↦ absurd htarget (Option.some_ne_none _).symm⟩
      | obtain ⟨p, -, rfl⟩ := Option.map_eq_some_iff.mp h
        exact hnone rfl rfl
      | exact absurd h (by simp)

namespace Core

variable {c : Callee} {s s' : Core} {i : Inst} {form : Form} {ops : List Operand} {r : Reg}
  {o : Operand} {n : Nat} {w : Word} {q : PhysReg}

/-- The bytes in memory that an instruction of a form writes. -/
def writes (s : Core) (form : Form) (ops : List Operand) : List (Word × Nat) :=
  (form.target.map fun n ↦ ops.getLast?.toList.flatMap (s.span n)).getD []

/-- The bytes in memory that an instruction writes, those of a callee apart. -/
def written (s : Core) (i : Inst) : List (Word × Nat) :=
  match i.mnemonic, i.operands with
  | "call", [.symbol _] => []
  | "pushq", [_] => [(s.regs (.phys .rsp) - 8, 8)]
  | m, ops => ((formOf m ops.length).map fun form ↦ s.writes form ops).getD []

theorem written_of_plain (hcall : i.mnemonic ≠ "call") (hpush : i.mnemonic ≠ "pushq") :
    s.written i = ((formOf i.mnemonic i.operands.length).map fun form ↦
      s.writes form i.operands).getD [] := by
  rw [written]
  split
  next heq _ => exact absurd heq hcall
  next heq _ => exact absurd heq hpush
  next => rfl

/-- Only an instruction whose last operand is in memory writes there. -/
theorem mem_written (hcall : i.mnemonic ≠ "call") (hpush : i.mnemonic ≠ "pushq")
    {z : Word × Nat} (hz : z ∈ s.written i) : ∃ form m n,
      formOf i.mnemonic i.operands.length = some form ∧ form.target = some n ∧
        i.operands.getLast? = some (.mem m) ∧ z = (s.address m, n) := by
  rw [written_of_plain hcall hpush] at hz
  cases hform : formOf i.mnemonic i.operands.length with
  | none =>
    rw [hform] at hz
    exact absurd hz List.not_mem_nil
  | some form =>
    rw [hform, Option.map_some, Option.getD_some, writes] at hz
    cases htarget : form.target with
    | none =>
      rw [htarget] at hz
      exact absurd hz List.not_mem_nil
    | some n =>
      rw [htarget, Option.map_some, Option.getD_some] at hz
      obtain ⟨o, ho, hz⟩ := List.mem_flatMap.mp hz
      rw [Option.mem_toList] at ho
      cases o with
      | mem m => exact ⟨form, m, n, rfl, htarget, ho, List.mem_singleton.mp hz⟩
      | _ => exact absurd hz List.not_mem_nil

theorem regs_setRegs {ws : List (PhysReg × Word)} (h : ∀ z ∈ ws, r ≠ .phys z.1) :
    (s.setRegs ws).regs r = s.regs r := by
  rw [setRegs]
  induction ws generalizing s with
  | nil => rfl
  | cons z ws ih =>
    obtain ⟨hz, hws⟩ := List.forall_mem_cons.mp h
    rw [List.foldl_cons, ih hws, regs_setReg_of_ne hz]

theorem mem_setRegs (s : Core) (ws : List (PhysReg × Word)) : (s.setRegs ws).mem = s.mem := by
  rw [setRegs]
  induction ws generalizing s with
  | nil => rfl
  | cons z ws ih =>
    rw [List.foldl_cons, ih]
    rfl

theorem written_eq_nil (hcall : i.mnemonic ≠ "call") (hpush : i.mnemonic ≠ "pushq")
    (hlast : ∀ m, i.operands.getLast? ≠ some (.mem m)) : s.written i = [] := by
  refine List.eq_nil_iff_forall_not_mem.mpr fun z hz ↦ ?_
  obtain ⟨_, m, _, -, -, hm, -⟩ := mem_written hcall hpush hz
  exact hlast m hm

/-- What a write of an operand leaves alone. -/
theorem write_frame (h : s.write n w o = some s') :
    (∀ r, (∀ k, o ≠ .reg r k) → s'.regs r = s.regs r) ∧
      ∀ x, (∀ z ∈ s.span n o, ¬ Memory.InBytes z.1 z.2 x) → s'.mem x = s.mem x := by
  cases o with
  | reg r' k =>
    rw [write] at h
    split at h
    next =>
      obtain rfl := Option.some.inj h
      refine ⟨fun r hr ↦ regs_setReg_of_ne ?_, fun _ _ ↦ rfl⟩
      rintro rfl
      exact hr k rfl
    next => exact absurd h (by simp)
  | mem m =>
    obtain rfl := Option.some.inj h
    exact ⟨fun _ _ ↦ rfl, fun x hx ↦
      Memory.store_of_not_inBytes (hx (s.address m, n) (List.mem_singleton_self _)) _⟩
  | _ => exact absurd h (by simp [write])

/-- What an instruction of a form leaves alone. -/
theorem perform_frame (h : s.perform form ops = some s') (hform : form.Confined) :
    (∀ r, r ∉ ([.phys .rax, .phys .rdx] : List Reg) → (∀ k, ops.getLast? ≠ some (.reg r k)) →
      s'.regs r = s.regs r) ∧
    ∀ x, (∀ z ∈ s.writes form ops, ¬ Memory.InBytes z.1 z.2 x) → s'.mem x = s.mem x := by
  rw [perform, if_pos (encodable_of_perform h)] at h
  obtain ⟨xs, -, h⟩ := Option.bind_eq_some_iff.mp h
  obtain ⟨out, -, h⟩ := Option.bind_eq_some_iff.mp h
  cases htarget : form.target with
  | none =>
    rw [finish_of_none htarget] at h
    obtain rfl := Option.some.inj h
    refine ⟨fun r hr _ ↦ regs_setRegs fun z hz heq ↦ hr ?_, fun x _ ↦ ?_⟩
    · have hout := hform.outputs (List.of_mem_zip hz).1
      simp only [List.mem_cons, List.not_mem_nil, or_false] at hout
      rcases hout with h | h <;> simp [heq, h]
    · rw [mem_setFlags, mem_setRegs]
  | some n =>
    have houtputs := (hform.target n htarget).2
    rw [finish, houtputs, htarget] at h
    obtain ⟨o, ho, hwrite⟩ := Option.bind_eq_some_iff.mp h
    obtain ⟨hregs, hmem⟩ := write_frame hwrite
    refine ⟨fun r _ hlast ↦ hregs r fun k hk ↦ hlast k (hk ▸ ho), fun x hx ↦ hmem x fun z hz ↦ hx z ?_⟩
    rw [writes, htarget, ho, Option.map_some, Option.getD_some, Option.toList_some,
      List.flatMap_singleton]
    cases o <;> exact hz

/-- What an instruction other than a push or a call leaves alone. -/
theorem step_frame (h : s.step c i = some s') (hcall : i.mnemonic ≠ "call")
    (hpush : i.mnemonic ≠ "pushq") :
    (∀ r, r ∉ ([.phys .rax, .phys .rdx] : List Reg) →
      (∀ k, i.operands.getLast? ≠ some (.reg r k)) → s'.regs r = s.regs r) ∧
    ∀ x, (∀ z ∈ s.written i, ¬ Memory.InBytes z.1 z.2 x) → s'.mem x = s.mem x := by
  rw [step_of_plain hcall hpush] at h
  obtain ⟨form, hform, hperform⟩ := Option.bind_eq_some_iff.mp h
  rw [written_of_plain hcall hpush, hform]
  exact perform_frame hperform (formOf_confined hform)

/-! ## Registers -/

theorem read_phys : s.read 8 (.phys q) = some (s.regs (.phys q)) := by
  rw [Operand.phys, Core.read, if_pos rfl, lowBytes_eight]

/-- A register is moved to another one. -/
theorem step_copy {p : PhysReg} (hname : i.mnemonic = "movq") (hops : i.operands = [.phys p, .phys q]) :
    s.step c i = some (s.setReg (.phys q) (s.regs (.phys p))) := by
  rw [step_move (by decide : 8 ∈ [1, 2, 4, 8]) hname hops, perform_move rfl, read_phys,
    Option.bind_some, Operand.phys, write, if_pos rfl, mergeBytes_eight]

/-- A constant is added to a register, or the like; it fits 32 bits. -/
theorem step_binary_imm {g : Word → Word → Word} {flags : Word → Word → Flags}
    (hcall : i.mnemonic ≠ "call") (hpush : i.mnemonic ≠ "pushq")
    (hform : formOf i.mnemonic 2 = some (.binary false g flags))
    (hops : i.operands = [.imm w, .phys q]) (h : s.step c i = some s') :
    fitsImm32 w = true ∧ s' = (s.setFlags (flags (s.regs (.phys q)) w)).setReg (.phys q)
      (g (s.regs (.phys q)) w) := by
  rw [step_of_plain hcall hpush, hops] at h
  change (formOf i.mnemonic 2).bind _ = _ at h
  rw [hform, Option.bind_some] at h
  have hencodable := encodable_of_perform h
  have hfits : fitsImm32 w = true := by
    have hboth := hencodable
    simp only [isEncodable, Form.binary, fits, Operand.phys, Bool.and_eq_true, List.all_cons] at hboth
    simpa using hboth.1.2.1
  refine ⟨hfits, ?_⟩
  rw [perform, if_pos hencodable] at h
  obtain rfl := Option.some.inj h
  rw [lowBytes_eight, lowBytes_eight, mergeBytes_eight]
  rfl

end Core

end TreeCover.Machine
