import TreeCover.Proofs.Assembly.Shapes
import TreeCover.Proofs.Tiling.Expansion

/-!
# Instructions that can be placed

An instruction can be placed where it stands if it has a shape whose repairs are sound and if `rax`,
which a repair may need, carries no value past it. Most instructions that actions emit need no more
than that `rax` is free: these are settled, and any sequence of them can be placed. The others stand
in the sequences that hand a value over in `rax`: a division, a call, and a return.
-/

namespace TreeCover

open Machine Core

variable {a : Allocation} {vs : List VReg} {live : VReg → Nat} {after : Bool}
  {s s' p p' : Core} {c : Callee} {o : Operand} {i : Inst} {is js : List Inst}
  {form : Form} {v u t : VReg} {w : Word} {m : Mem} {mnemonic : String} {n : Nat}

namespace Machine

/-! ## Instructions that can be placed -/

/-- An instruction whose placement keeps its meaning, given whether `rax` carries a value past it:
there is a sound way to repair each form it has, and no repair takes `rax` while that is carried. -/
inductive Inst.Placeable (i : Inst) (after : Bool) : Prop
  | rewritten (hcall : i.mnemonic ≠ "call") (hpush : i.mnemonic ≠ "pushq")
      (hform : ∀ form, formOf i.mnemonic i.operands.length = some form → i.Rewritable form)
      (hfree : i.mayUseRax = true → after = false)
      (hwrites : i.writesRax = true → i.readsRax = true ∨ i.dst? = some (.phys .rax))
  | push (o : Operand) (hi : i = .push o) (ho : o.Plain)
  | call (name : String) (hi : i = .call name)

theorem Inst.Rewritable.placeable (hi : i.Rewritable form)
    (hfree : i.mayUseRax = true → after = false)
    (hwrites : i.writesRax = true → i.readsRax = true ∨ i.dst? = some (.phys .rax)) :
    i.Placeable after := by
  refine .rewritten hi.call hi.push (fun form' hform ↦ ?_) hfree hwrites
  obtain rfl := Option.some.inj (hi.formed.symm.trans hform)
  exact hi

/-- Jumps and returns apart, each instruction can be placed where it stands. -/
def AllPlaceable : List Inst → Prop
  | [] => True
  | i :: is =>
    (i.kind = .plain ∨ i.kind = .call → i.Placeable (Inst.carriesRax is)) ∧ AllPlaceable is

theorem AllPlaceable.of_append {is js : List Inst} (h : AllPlaceable (is ++ i :: js))
    (hi : i.kind = .plain ∨ i.kind = .call) : i.Placeable (Inst.carriesRax js) := by
  induction is with
  | nil => exact h.1 hi
  | cons i is ih => exact ih h.2

/-- An instruction that can be placed wherever `rax` is free, and that does not read `rax`. -/
structure Inst.Settled (i : Inst) : Prop where
  placeable : i.kind = .plain ∨ i.kind = .call → i.Placeable false
  reads : i.readsRax = false

theorem AllPlaceable.prepend (h : ∀ i ∈ is, i.Settled) (hjs : AllPlaceable js)
    (hcarries : Inst.carriesRax js = false) :
    AllPlaceable (is ++ js) ∧ Inst.carriesRax (is ++ js) = false := by
  induction is with
  | nil => exact ⟨hjs, hcarries⟩
  | cons i is ih =>
    rw [List.forall_mem_cons] at h
    obtain ⟨hall, hcarries⟩ := ih h.2
    refine ⟨⟨fun hi ↦ ?_, hall⟩, ?_⟩
    · change i.Placeable (Inst.carriesRax (is ++ js))
      rw [hcarries]
      exact h.1.placeable hi
    · rw [List.cons_append, Inst.carriesRax, h.1.reads, hcarries, Bool.and_false, Bool.or_false]

theorem AllPlaceable.of_settled (h : ∀ i ∈ is, i.Settled) : AllPlaceable is := by
  have hall := (AllPlaceable.prepend h (show AllPlaceable [] from trivial) rfl).1
  rwa [List.append_nil] at hall

namespace Inst

theorem Rewritable.readsRax (hi : i.Rewritable form) (hinputs : form.inputs = [])
    (hkind : i.kind = .plain) (hrax : ∀ o ∈ i.readOperands, o.isRax = false) :
    i.readsRax = false := by
  have hany : i.readOperands.any Operand.isRax = false := by
    rw [List.any_eq_false]
    exact fun o ho ↦ by simp [hrax o ho]
  rw [Inst.readsRax, hi.formed, hany, hkind, Option.map_some, hinputs]
  rfl

theorem Rewritable.writesRax (hi : i.Rewritable form) (houtputs : form.outputs = [])
    (hkind : i.kind = .plain) (hrax : ∀ o, i.dst? = some o → o.isRax = false) :
    i.writesRax = false := by
  have hany : i.dst?.any Operand.isRax = false := by
    cases hdst : i.dst? with
    | none => rfl
    | some o => exact hrax o hdst
  rw [Inst.writesRax, hi.formed, hany, hkind, Option.map_some, houtputs]
  rfl

theorem mem_operands_of_dst? (h : i.dst? = some o) : o ∈ i.operands := by
  rw [dst?] at h
  split at h
  next => exact absurd h (by simp)
  next => exact List.mem_of_getLast? h

theorem Rewritable.settled (hi : i.Rewritable form) (hopen : form.Open) (hkind : i.kind = .plain)
    (hrax : ∀ o ∈ i.operands, o.isRax = false) : i.Settled := by
  have hwrites := hi.writesRax hopen.2 hkind fun o ho ↦ hrax o (mem_operands_of_dst? ho)
  exact ⟨fun _ ↦ hi.placeable (fun _ ↦ rfl) fun h ↦ absurd (hwrites.symm.trans h) Bool.false_ne_true,
    hi.readsRax hopen.1 hkind fun o ho ↦ hrax o (i.readOperands_prefix.mem ho)⟩

end Inst

/-- The operands that actions read are plain, and none of them is `rax`. -/
structure Operand.Source (o : Operand) : Prop where
  plain : o.Plain
  isRax : o.isRax = false

theorem Operand.source_vreg : (Operand.vreg v).Source := ⟨trivial, rfl⟩

theorem Operand.source_reg : (Operand.reg (.virt v) n).Source := ⟨trivial, rfl⟩

theorem Operand.source_imm : (Operand.imm w).Source := ⟨trivial, rfl⟩

namespace Inst

/-! ## The instructions of actions -/

/-- A form serves an instruction with one operand before the register that it writes. -/
def Serviceable (form : Form) (mnemonic : String) (effect : Effect) (needsRegDst : Bool)
    (n : Nat) : Prop :=
  mnemonic ∉ ["call", "pushq"] ∧ form.Open ∧ form.Readable ∧ effect ≠ .none ∧ form.uses ≠ [] ∧
    form.uses.length ≤ 1 + (if effect = .update then 1 else 0) ∧ form.target = some n ∧ n ≤ 8 ∧
    (n = 4 → needsRegDst = true) ∧
    (needsRegDst = true → (n = 4 ∨ n = 8) ∧ mnemonic ≠ "movq") ∧
    (form.regTarget = true → needsRegDst = true)

instance (form : Form) (mnemonic : String) (effect : Effect) (needsRegDst : Bool) (n : Nat) :
    Decidable (Serviceable form mnemonic effect needsRegDst n) := by
  unfold Serviceable
  infer_instance

theorem Serviceable.rewritable {effect : Effect} {needsRegDst : Bool}
    (h : Serviceable form mnemonic effect needsRegDst n) (hformed : formOf mnemonic 2 = some form)
    (ho : o.Plain) (hrax : needsRegDst = true → o.isRax = false)
    (hmem : o.isMem = true → needsRegDst = true ∨ ∀ u ∈ form.uses, u = .value 8) :
    Rewritable { mnemonic, operands := [o, .reg (.virt t) n], effect, needsRegDst } form := by
  obtain ⟨hname, hopen, hreadable, heffect, huses, hreads, htarget, hn, hlong, hstaged,
    hregTarget⟩ := h
  have hcall : mnemonic ≠ "call" := fun h ↦ hname (by simp [h])
  have hpush : mnemonic ≠ "pushq" := fun h ↦ hname (by simp [h])
  refine rewritable_virt [o] hcall hpush hformed hopen hreadable heffect hreads htarget hn
    hlong (fun h ↦ (hstaged h).1) hregTarget (List.forall_mem_singleton.mpr ho)
    (fun h ↦ ⟨(hstaged h).2, List.countP_le_length, List.forall_mem_singleton.mpr (hrax h)⟩)
    fun h ↦ List.forall_mem_singleton.mpr ⟨rfl, huses, fun ho ↦ (hmem ho).resolve_left ?_⟩
  rw [h]
  exact Bool.false_ne_true

theorem Serviceable.settled {effect : Effect} {needsRegDst : Bool}
    (h : Serviceable form mnemonic effect needsRegDst n) (hformed : formOf mnemonic 2 = some form)
    (ho : o.Source)
    (hmem : o.isMem = true → needsRegDst = true ∨ ∀ u ∈ form.uses, u = .value 8) :
    Settled { mnemonic, operands := [o, .reg (.virt t) n], effect, needsRegDst } := by
  refine (h.rewritable hformed ho.plain (fun _ ↦ ho.isRax) hmem).settled h.2.1 rfl ?_
  exact List.forall_mem_cons.mpr ⟨ho.isRax, List.forall_mem_singleton.mpr rfl⟩

theorem rewritable_moveTo (ho : o.Plain) : (moveTo v o).Rewritable (.move 8) :=
  have h : Serviceable (.move 8) "movq" .define false 8 := by decide
  h.rewritable rfl ho (fun h ↦ absurd h Bool.false_ne_true) fun _ ↦ Or.inr (by decide)

theorem settled_moveTo (ho : o.Source) : (moveTo v o).Settled :=
  have h : Serviceable (.move 8) "movq" .define false 8 := by decide
  h.settled rfl ho fun _ ↦ Or.inr (by decide)

theorem settled_loadConstant : (loadConstant w (.vreg v)).Settled := by
  have h : Serviceable { Form.move 8 with regTarget := true, wide := true } "movabsq" .define true
    8 := by decide
  rw [loadConstant]
  split
  next => exact settled_moveTo Operand.source_imm
  next => exact h.settled rfl Operand.source_imm fun _ ↦ Or.inl rfl

theorem settled_lea (hm : (Operand.mem m).Plain) :
    (Inst.intoReg (.define "leaq" [.mem m, .vreg v])).Settled := by
  have h : Serviceable .lea "leaq" .define true 8 := by decide
  exact h.settled rfl ⟨hm, rfl⟩ fun _ ↦ Or.inl rfl

/-- A move that extends some bytes of an operand. -/
theorem settled_extend {g : Word → Word} (hname : mnemonic ∉ ["call", "pushq", "movq"])
    (hn : n ∈ [1, 2, 4]) (hformed : formOf mnemonic 2 = some (.extend n g)) (ho : o.Source) :
    (Inst.intoReg (.define mnemonic [o, .vreg v])).Settled := by
  have h : Serviceable (.extend n g) mnemonic .define true 8 := by
    refine ⟨fun h ↦ hname (by simp_all), ⟨rfl, rfl⟩, ?_, by decide, by simp [Form.extend],
      Nat.le_refl 1, rfl, Nat.le_refl 8, fun _ ↦ rfl, fun _ ↦ ⟨Or.inr rfl, fun h ↦ hname ?_⟩,
      fun _ ↦ rfl⟩
    · simp only [Form.Readable, Form.extend, List.forall_mem_singleton]
      simp only [List.mem_cons, List.not_mem_nil, or_false] at hn
      rcases hn with rfl | rfl | rfl <;> decide
    · simp [h]
  exact h.settled hformed ho fun _ ↦ Or.inl rfl

/-- The load of a value of some bits. -/
theorem settled_load (width : Nat) (hm : (Operand.mem m).Plain) :
    Settled { Inst.define (loadMnemonic width) [.mem m, .vreg v] with
      needsRegDst := loadMnemonic width ≠ "movq" } := by
  unfold loadMnemonic
  split
  next => exact settled_extend (n := 1) (by decide) (by decide) rfl ⟨hm, rfl⟩
  next => exact settled_extend (n := 1) (by decide) (by decide) rfl ⟨hm, rfl⟩
  next => exact settled_extend (n := 2) (by decide) (by decide) rfl ⟨hm, rfl⟩
  next => exact settled_extend (n := 4) (by decide) (by decide) rfl ⟨hm, rfl⟩
  next => exact settled_moveTo ⟨hm, rfl⟩

/-- The condition of a comparison as a byte. -/
theorem settled_set (p : Ir.Predicate) :
    (Inst.define (setMnemonic p) [.reg (.virt v) 1]).Settled := by
  have hname : setMnemonic p ≠ "call" ∧ setMnemonic p ≠ "pushq" ∧
      formOf (setMnemonic p) 1 = some (.set p) := by
    cases p <;> exact ⟨by decide, by decide, rfl⟩
  have hrewritable : (Inst.define (setMnemonic p) [.reg (.virt v) 1]).Rewritable (.set p) :=
    rewritable_virt [] hname.1 hname.2.1 hname.2.2 ⟨rfl, rfl⟩
      (fun _ hu ↦ absurd hu List.not_mem_nil) (by decide) (Nat.zero_le _) rfl (by decide)
      (fun h ↦ absurd h (by decide)) (fun h ↦ absurd h Bool.false_ne_true)
      (fun h ↦ absurd h Bool.false_ne_true) (fun _ h ↦ absurd h List.not_mem_nil)
      (fun h ↦ absurd h Bool.false_ne_true) fun _ _ h ↦ absurd h List.not_mem_nil
  exact hrewritable.settled ⟨rfl, rfl⟩ rfl (List.forall_mem_singleton.mpr rfl)

/-- The operations of the grammar on two operands. -/
def binaryMnemonics : List String := ["addq", "subq", "andq", "orq", "xorq", "imulq"]

theorem settled_binary (hname : mnemonic ∈ binaryMnemonics) (ho : o.Source) :
    Settled { Inst.update mnemonic [o, .vreg v] with needsRegDst := mnemonic = "imulq" } := by
  have h : ∃ form, formOf mnemonic 2 = some form ∧
      Serviceable form mnemonic .update (mnemonic = "imulq") 8 ∧
      ∀ u ∈ form.uses, u = .value 8 := by
    simp only [binaryMnemonics, List.mem_cons, List.not_mem_nil, or_false] at hname
    rcases hname with rfl | rfl | rfl | rfl | rfl | rfl <;>
      exact ⟨_, rfl, by decide, by decide⟩
  obtain ⟨form, hformed, hserves, hwhole⟩ := h
  exact hserves.settled hformed ho fun _ ↦ Or.inr hwhole

/-- The shifts of the grammar. -/
def shiftMnemonics : List String := ["shlq", "shrq", "sarq"]

theorem settled_shift (hname : mnemonic ∈ shiftMnemonics) (ho : o.Source) (hmem : o.isMem = false) :
    (Inst.update mnemonic [o, .vreg v]).Settled := by
  have h : ∃ form, formOf mnemonic 2 = some form ∧ Serviceable form mnemonic .update false 8 := by
    simp only [shiftMnemonics, List.mem_cons, List.not_mem_nil, or_false] at hname
    rcases hname with rfl | rfl | rfl <;> exact ⟨_, rfl, by decide⟩
  obtain ⟨form, hformed, hserves⟩ := h
  exact hserves.settled hformed ho fun h ↦ absurd (hmem.symm.trans h) Bool.false_ne_true

theorem settled_negate : (Inst.update "negq" [.vreg v]).Settled := by
  have hrewritable : (Inst.update "negq" [.vreg v]).Rewritable .negate :=
    rewritable_virt [] (by decide) (by decide) rfl (by decide) (by decide) (by decide)
      (by decide) rfl (by decide) (by decide) (by decide) (by decide)
      (fun _ h ↦ absurd h List.not_mem_nil) (by decide) fun _ _ h ↦ absurd h List.not_mem_nil
  exact hrewritable.settled (by decide) rfl (List.forall_mem_singleton.mpr rfl)

/-- The product of a register and a constant. -/
theorem settled_mulImm : (Inst.intoReg (.define "imulq" [.imm w, .vreg u, .vreg v])).Settled := by
  have hrewritable : (Inst.intoReg (.define "imulq" [.imm w, .vreg u, .vreg v])).Rewritable
      .multiply := by
    refine rewritable_virt [.imm w, .vreg u] ?_ ?_ rfl (by decide) (by decide) ?_ ?_ rfl
      (by decide) (by decide) (by decide) (fun _ ↦ rfl) ?_ (fun _ ↦ ⟨?_, Nat.le_refl 1, ?_⟩)
      fun h ↦ absurd h Bool.noConfusion
    · exact (by decide : "imulq" ≠ "call")
    · exact (by decide : "imulq" ≠ "pushq")
    · exact (by decide : Effect.define ≠ .none)
    · exact Nat.le_refl 2
    · simp [Operand.Plain, Operand.vreg]
    · exact (by decide : "imulq" ≠ "movq")
    · simp [Operand.isRax, Operand.vreg]
  exact hrewritable.settled (by decide) rfl (by
    simp [Inst.intoReg, Inst.define, Operand.isRax, Operand.vreg])

/-- A store of some bytes. -/
theorem settled_store (hn : n ∈ [1, 2, 4, 8]) (ho : o.Source) (hmem : o.isMem = false)
    (hm : (Operand.mem m).Plain) :
    Settled { mnemonic := moveMnemonic n, operands := [o, .mem m] } := by
  have h : moveMnemonic n ≠ "call" ∧ moveMnemonic n ≠ "pushq" ∧
      formOf (moveMnemonic n) 2 = some (.move n) ∧ (Form.move n).Readable := by
    simp only [List.mem_cons, List.not_mem_nil, or_false] at hn
    rcases hn with rfl | rfl | rfl | rfl <;> exact ⟨by decide, by decide, rfl, by decide⟩
  have hrewritable := rewritable_mem (m := m) h.1 h.2.1 h.2.2.1 ⟨rfl, rfl⟩ h.2.2.2 rfl rfl rfl
    ho.plain hmem ho.isRax hm
  exact hrewritable.settled ⟨rfl, rfl⟩ rfl
    (List.forall_mem_cons.mpr ⟨ho.isRax, List.forall_mem_singleton.mpr rfl⟩)

/-- A comparison of two whole operands. -/
theorem settled_compare (hname : mnemonic ∈ ["cmpq", "testq"]) (ho : o.Source) :
    Settled { mnemonic, operands := [o, .vreg v] } := by
  have h : mnemonic ≠ "call" ∧ mnemonic ≠ "pushq" ∧
      ∃ flags, formOf mnemonic 2 = some (.compare flags) := by
    simp only [List.mem_cons, List.not_mem_nil, or_false] at hname
    rcases hname with rfl | rfl <;> exact ⟨by decide, by decide, _, rfl⟩
  obtain ⟨hcall, hpush, flags, hformed⟩ := h
  have hopen : (Form.compare flags).Open := ⟨rfl, rfl⟩
  have hrax : ∀ o' ∈ [o, .vreg v], o'.isRax = false :=
    List.forall_mem_cons.mpr ⟨ho.isRax, List.forall_mem_singleton.mpr rfl⟩
  have huses : ∀ u ∈ (Form.compare flags).uses, u = .value 8 := by simp [Form.compare]
  have hrewritable : Rewritable { mnemonic, operands := [o, .vreg v] } (.compare flags) := by
    refine rewritable_none hcall hpush hformed (fun u hu ↦ ?_) rfl rfl (fun _ h ↦ ?_) (fun _ h ↦ ?_)
      rfl (List.forall_mem_cons.mpr ⟨ho.plain, List.forall_mem_singleton.mpr trivial⟩)
      fun _ ↦ ⟨hopen, hrax, o, _, rfl, huses⟩
    · rw [huses u hu]
      decide
    · exact absurd h List.not_mem_nil
    · exact absurd h List.not_mem_nil
  exact hrewritable.settled hopen rfl hrax

/-- The amount of a shift goes to `rcx`. -/
theorem settled_shiftAmount : (Inst.define "movq" [.vreg u, .phys .rcx]).Settled := by
  have hrewritable : (Inst.define "movq" [.vreg u, .phys .rcx]).Rewritable (.move 8) :=
    rewritable_phys (by decide) (by decide) rfl (by decide) (by decide) (by decide) (by decide) rfl
      (by decide) trivial (by decide) (by decide) (by decide)
  exact hrewritable.settled (by decide) rfl
    (List.forall_mem_cons.mpr ⟨rfl, List.forall_mem_singleton.mpr rfl⟩)

theorem settled_push (ho : o.Source) : (Inst.push o).Settled := by
  refine ⟨fun _ ↦ .push o rfl ho.plain, ?_⟩
  have hany : (Inst.push o).readOperands.any Operand.isRax = false := by
    change [o].any Operand.isRax = false
    rw [List.any_cons, ho.isRax]
    rfl
  rw [Inst.readsRax, hany]
  rfl

/-- What goes elsewhere need not be placed. -/
theorem settled_jumpTo (l : LabelId) : (jumpTo l).Settled :=
  ⟨fun h ↦ absurd h (by simp [jumpTo]), rfl⟩

theorem settled_branchTo (hformed : formOf mnemonic 1 = none) (l : LabelId) :
    (branchTo mnemonic l).Settled := by
  refine ⟨fun h ↦ absurd h (by simp [branchTo]), ?_⟩
  rw [Inst.readsRax]
  change (_ || ((formOf mnemonic 1).map _).getD false || _) = false
  rw [hformed]
  rfl

/-- The extension of a register. -/
theorem settled_extendInsts (signed : Bool) (bits : Nat) :
    ∀ i ∈ extendInsts signed bits u v, i.Settled := by
  rw [extendInsts]
  split
  next =>
    refine List.forall_mem_append.mpr ⟨List.forall_mem_cons.mpr ⟨settled_moveTo Operand.source_vreg,
      List.forall_mem_singleton.mpr (settled_binary (?_ : "andq" ∈ binaryMnemonics) Operand.source_imm)⟩, ?_⟩
    · decide
    · cases signed with
      | false => exact fun i hi ↦ absurd hi List.not_mem_nil
      | true => exact List.forall_mem_singleton.mpr settled_negate
  next =>
    split
    next =>
      have h : Serviceable (.move 4) "movl" .define true 4 := by decide
      exact List.forall_mem_singleton.mpr (h.settled rfl Operand.source_reg fun _ ↦ Or.inl rfl)
    next =>
      refine List.forall_mem_singleton.mpr ?_
      split
      next => exact settled_extend (n := 1) (by decide) (by decide) rfl Operand.source_reg
      next => exact settled_extend (n := 2) (by decide) (by decide) rfl Operand.source_reg
      next => exact settled_extend (n := 4) (by decide) (by decide) rfl Operand.source_reg
      next => exact settled_extend (n := 1) (by decide) (by decide) rfl Operand.source_reg
      next => exact settled_extend (n := 2) (by decide) (by decide) rfl Operand.source_reg

/-! ## Sequences that carry a value in `rax` -/

theorem Rewritable.placeable_into (hi : i.Rewritable form) (hdefs : i.defs = [])
    (hfew : i.operands.countP Operand.mayBeMem ≤ 1)
    (hwrites : i.writesRax = true → i.readsRax = true ∨ i.dst? = some (.phys .rax)) :
    i.Placeable after := by
  refine hi.placeable (fun hmay ↦ ?_) hwrites
  rw [mayUseRax, hdefs, decide_eq_false (Nat.not_lt.mpr hfew)] at hmay
  exact absurd hmay (by simp)

/-- A value is put into `rax`, for a division or for the caller. -/
theorem placeable_toRax (ho : o.Source) : (Inst.define "movq" [o, .phys .rax]).Placeable after := by
  have hrewritable : (Inst.define "movq" [o, .phys .rax]).Rewritable (.move 8) :=
    rewritable_phys (by decide) (by decide) rfl (by decide) (by decide) (by decide) (by decide) rfl
      (by decide) ho.plain (by decide) (by decide) (by decide)
  exact hrewritable.placeable_into rfl (countP_mayBeMem_phys _ _) fun _ ↦ Or.inr rfl

theorem placeable_constantToRax : (loadConstant w (.phys .rax)).Placeable after := by
  rw [loadConstant]
  split
  next => exact placeable_toRax Operand.source_imm
  next =>
    have hrewritable : (Inst.intoReg (.define "movabsq" [.imm w, .phys .rax])).Rewritable
        { Form.move 8 with regTarget := true, wide := true } :=
      rewritable_phys (by decide : "movabsq" ≠ "call") (by decide : "movabsq" ≠ "pushq") rfl
        (by decide) (by decide) (by decide : Effect.define ≠ .none)
        (by decide : 1 ≤ 1 + if Effect.define = .update then 1 else 0) rfl (by decide) trivial
        (by decide) (by decide) fun _ ↦ (by decide : "movabsq" ≠ "movq")
    exact hrewritable.placeable_into rfl (Nat.zero_le 1) fun _ ↦ Or.inr rfl

/-- A value is fetched from `rax`, where a call or a division has left it. -/
theorem placeable_moveTo (ho : o.Plain) : (moveTo v o).Placeable false := by
  refine (rewritable_moveTo ho).placeable (fun _ ↦ rfl) fun h ↦ ?_
  rw [(rewritable_moveTo ho).writesRax rfl rfl fun o' ho' ↦ ?_] at h
  · exact absurd h Bool.false_ne_true
  · obtain rfl := Option.some.inj ho'
    rfl

theorem allPlaceable_division {remainder : Bool} {lhs rhs dst : VReg} :
    AllPlaceable [.define "movq" [.vreg lhs, .phys .rax], { mnemonic := "cqto", operands := [] },
      { mnemonic := "idivq", operands := [.vreg rhs] },
      moveTo dst (.phys (if remainder then .rdx else .rax))] := by
  have hspread : Rewritable { mnemonic := "cqto", operands := [] } .spreadSign :=
    rewritable_none (by decide) (by decide) rfl (by decide) rfl rfl (by decide) (by decide) rfl
      (fun _ h ↦ absurd h List.not_mem_nil) fun h ↦ absurd h (Nat.not_lt_zero 1)
  have hdivide : Rewritable { mnemonic := "idivq", operands := [.vreg rhs] } .divide :=
    rewritable_none (by decide) (by decide) rfl (by decide) rfl rfl (by decide) (by decide) rfl
      (List.forall_mem_singleton.mpr trivial) fun h ↦ absurd h (Nat.lt_irrefl 1)
  refine ⟨fun _ ↦ placeable_toRax Operand.source_vreg, fun _ ↦ ?_, fun _ ↦ ?_, fun _ ↦ ?_, trivial⟩
  · exact hspread.placeable_into rfl (Nat.zero_le 1) fun h ↦ absurd h (by decide)
  · exact hdivide.placeable_into rfl (Nat.le_refl 1) fun _ ↦ Or.inl rfl
  · refine placeable_moveTo ?_
    have hplain : PhysReg.rdx ∈ .rax :: PhysReg.shared ∧ PhysReg.rax ∈ .rax :: PhysReg.shared := by
      decide
    cases remainder with
    | true => exact hplain.1
    | false => exact hplain.2

/-- The words of the arguments are taken off the stack again. -/
theorem placeable_pop (words : Nat) :
    ∀ i ∈ popCode words, i.Placeable after ∧ i.writesRax = false := by
  rw [popCode]
  split
  next => exact fun i hi ↦ absurd hi List.not_mem_nil
  next =>
    have hrewritable : (Inst.update "addq" [.imm (BitVec.ofNat 64 (8 * words)), .phys .rsp]).Rewritable
        (.binary false (· + ·) fun y x ↦
          .ofResult (y + x) (y + x < y) (BitVec.saddOverflow y x)) :=
      rewritable_phys (by decide) (by decide) rfl (by decide) (by decide)
        (by decide) (by decide) rfl (by decide) trivial (by decide) (by decide) (by decide)
    refine List.forall_mem_singleton.mpr ⟨hrewritable.placeable_into rfl (Nat.zero_le 1) ?_, rfl⟩
    exact fun h ↦ absurd h Bool.false_ne_true

end Inst

/-! ## Calls -/

theorem AllPlaceable.append (h : ∀ i ∈ is, ∀ after, i.Placeable after) (hjs : AllPlaceable js) :
    AllPlaceable (is ++ js) := by
  induction is with
  | nil => exact hjs
  | cons i is ih =>
    rw [List.forall_mem_cons] at h
    exact ⟨fun _ ↦ h.1 _, ih h.2⟩

theorem allPlaceable_call {callee : String} {os : List Operand} (hos : ∀ o ∈ os, o.Source)
    (result? : Option VReg) : AllPlaceable (callCode callee os result?) := by
  have hresult : AllPlaceable ((result?.map fun dst ↦ moveTo dst (.phys .rax)).toList) := by
    cases result? with
    | none => trivial
    | some dst =>
      have hrax : (Operand.phys .rax).Plain := (by decide : PhysReg.rax ∈ .rax :: PhysReg.shared)
      exact ⟨fun _ ↦ Inst.placeable_moveTo hrax, trivial⟩
  have htail : AllPlaceable (Inst.call callee :: (popCode os.length ++
      (result?.map fun dst ↦ moveTo dst (.phys .rax)).toList)) :=
    ⟨fun _ ↦ .call callee rfl, .append (fun i hi _ ↦ (Inst.placeable_pop os.length i hi).1) hresult⟩
  have hpushes : ∀ i ∈ os.reverse.map Inst.push, i.Settled := by
    intro i hi
    obtain ⟨o, ho, rfl⟩ := List.mem_map.mp hi
    exact Inst.settled_push (hos o (List.mem_reverse.mp ho))
  have hall := (AllPlaceable.prepend hpushes htail rfl).1
  rw [callCode, List.append_assoc]
  exact hall

end Machine

end TreeCover
