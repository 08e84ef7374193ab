import TreeCover.Proofs.Machine.Operations
import TreeCover.Proofs.Tiling.Expansion

/-!
# Observed executions

What a block does to the world outside is its stores and its calls. An observed machine is a core that
keeps a record of them, and its calls are those of the evaluation of blocks: a callee is handed a list of
words and the memory. The words are those on the stack, which is kept apart from memory here, as a list
with the last word that was pushed in front.

Code is executed up to where it leaves its block. Instructions that neither touch the stack nor write to
memory are executed as without an observer.

Main statement: `Observed.run_callCode`.
-/

namespace TreeCover.Machine

open Ir

variable {σ : World} {c : Callee} {i : Inst} {is js : List Inst} {name : String}

/-! ## Memory -/

namespace Memory

variable {m : Memory} {a w : Word} {n : Nat}

/-- Only the low bytes of a word are stored. -/
theorem store_lowBytes : m.store a n (lowBytes n w).toNat = m.store a n w.toNat := by
  funext x
  by_cases hx : InBytes a n x
  · rw [store, store, if_pos hx, if_pos hx]
    apply BitVec.eq_of_getLsbD_eq
    intro k hk
    have hlow : 8 * (x - a).toNat + k < 8 * n := by
      rw [InBytes] at hx
      omega
    rw [BitVec.getLsbD_ofNat, BitVec.getLsbD_ofNat, Nat.testBit_shiftRight, Nat.testBit_shiftRight,
      BitVec.testBit_toNat, BitVec.testBit_toNat, getLsbD_lowBytes, decide_eq_true hlow, Bool.true_and]
  · rw [store_of_not_inBytes hx, store_of_not_inBytes hx]

/-- What was stored is loaded. -/
theorem load_store :
    BitVec.ofNat 64 ((m.store a n w.toNat).load a n) = lowBytes n w := by
  apply BitVec.eq_of_getLsbD_eq
  intro k hk
  rw [getLsbD_ofNat_load, getLsbD_lowBytes, decide_eq_true hk, Bool.true_and]
  by_cases hlow : k < 8 * n
  · have hbyte : k / 8 < 8 := by omega
    have hin : InBytes a n (a + BitVec.ofNat 64 (k / 8)) := by
      rw [InBytes, add_ofNat_sub hbyte]
      omega
    rw [store, if_pos hin, add_ofNat_sub hbyte, BitVec.getLsbD_ofNat, decide_eq_true hlow,
      decide_eq_true (Nat.mod_lt k (by decide)), Bool.true_and, Nat.testBit_shiftRight,
      BitVec.testBit_toNat, Nat.div_add_mod]
  · rw [decide_eq_false hlow, Bool.false_and, Bool.false_and]

end Memory

theorem Core.write_phys (s : Core) (q : PhysReg) (w : Word) :
    s.write 8 w (.phys q) = some (s.setReg (.phys q) w) := by
  rw [Operand.phys, write, if_pos rfl, mergeBytes_eight]

/-- A constant is added to the stack pointer. -/
theorem Core.step_add_stack {s : Core} {w : Word}
    (hi : i = .update "addq" [.imm w, .phys .rsp]) (hfits : fits false (.imm w) = true) :
    ∃ f, s.step c i = some ((s.setFlags f).setReg (.phys .rsp) (s.regs (.phys .rsp) + w)) := by
  have hform : formOf "addq" 2 = some (.binary false (· + ·) fun y x ↦
      .ofResult (y + x) (y + x < y) (BitVec.saddOverflow y x)) := rfl
  have hencodable : isEncodable (.binary false (· + ·) fun y x ↦
      .ofResult (y + x) (y + x < y) (BitVec.saddOverflow y x)) [.imm w, .phys .rsp] = true := by
    rw [isEncodable, List.all_cons, show (Form.binary false _ _).wide = false from rfl, hfits]
    rfl
  rw [hi, step_of_form "addq" [.imm w, .phys .rsp] rfl rfl (by decide) (by decide) hform, perform,
    if_pos hencodable]
  simp only [gather, use, read_imm, read_phys, Form.binary, Option.bind_eq_bind, Option.bind_some,
    Option.pure_def]
  rw [finish_of_last rfl rfl rfl]
  exact ⟨_, write_phys _ _ _⟩

/-! ## States -/

/-- A core, the words on its stack, the last one that was pushed first, and what it has done. -/
structure Observed where
  core : Core
  stack : List Word
  deeds : List Deed

namespace Observed

variable {o o' : Observed} {s s' : Core}

/-- The same observations of another core. -/
def withCore (o : Observed) (s : Core) : Observed := { o with core := s }

@[simp]
theorem core_withCore : (o.withCore s).core = s := rfl

@[simp]
theorem stack_withCore : (o.withCore s).stack = o.stack := rfl

@[simp]
theorem deeds_withCore : (o.withCore s).deeds = o.deeds := rfl

@[simp]
theorem withCore_withCore : (o.withCore s).withCore s' = o.withCore s' := rfl

@[simp]
theorem withCore_core : o.withCore o.core = o := rfl

/-- Puts a word on the stack. -/
def push (o : Observed) (w : Word) : Observed :=
  { o with
    core := o.core.setReg (.phys .rsp) (o.core.regs (.phys .rsp) - 8)
    stack := w :: o.stack }

/-- A call with the words on the stack. The callee may also change the registers that are not saved. -/
def call (σ : World) (c : Callee) (name : String) (o : Observed) : Observed :=
  let result := σ.call name o.stack o.core.mem
  { o with
    core := { (o.core.call c name).setReg (.phys .rax) result.2 with mem := result.1 }
    deeds := o.deeds ++ [.call name o.stack] }

end Observed

/-- How many words an instruction takes off the stack. -/
def Inst.pops (i : Inst) : Nat :=
  match i.mnemonic, i.operands with
  | "addq", [.imm w, .reg (.phys .rsp) 8] => w.toNat / 8
  | _, _ => 0

/-- Whether an instruction touches neither the stack nor what is outside. -/
def Inst.isQuiet (i : Inst) : Bool :=
  i.mnemonic ≠ "call" && i.mnemonic ≠ "pushq" &&
    match i.operands.getLast? with
    | some (.mem _) | some (.reg (.phys .rsp) _) => false
    | _ => true

namespace Observed

/-- One straight instruction. -/
def step (σ : World) (c : Callee) (o : Observed) (i : Inst) : Option Observed :=
  match i.mnemonic, i.operands with
  | "call", [.symbol name] => some (o.call σ c name)
  | "pushq", [x] => if Core.fits false x then (o.core.read 8 x).map o.push else none
  | _, _ => (o.core.step c i).map fun s ↦
    { core := s
      stack := o.stack.drop i.pops
      deeds := o.deeds ++ (o.core.written i).map fun (a, n) ↦
        .store a n (BitVec.ofNat 64 (s.mem.load a n)) }

/-- Straight instructions in order. -/
def run (σ : World) (c : Callee) (is : List Inst) (o : Observed) : Option Observed :=
  is.foldlM (step σ c) o

/-- How code is left. -/
inductive Exit where
  | goto (l : LabelId)
  | ret
deriving DecidableEq, Repr

/-- Executes code until it is left. -/
def exec (σ : World) (c : Callee) : List Inst → Observed → Option (Observed × Exit)
  | [], _ => none
  | i :: is, o =>
    match i.kind, i.operands with
    | .plain, _ | .call, _ => (o.step σ c i).bind (exec σ c is)
    | .label _, _ => exec σ c is o
    | .jump, [.label l] => some (o, .goto l)
    | .branch, [.label l] =>
      (jumpCondition? i.mnemonic).bind fun p ↦
        if o.core.flags.holds p then some (o, .goto l) else exec σ c is o
    | .ret, _ => some (o, .ret)
    | _, _ => none

variable {o o' : Observed} {s s' : Core} {w : Word} {n : Nat} {m : Mem} {v : VReg} {l : LabelId}

/-! ## Executions -/

@[simp]
theorem run_nil : run σ c [] o = some o := rfl

theorem run_cons : run σ c (i :: is) o = (o.step σ c i).bind (run σ c is) := rfl

theorem run_append : run σ c (is ++ js) o = (run σ c is o).bind (run σ c js) := List.foldlM_append

theorem run_singleton : run σ c [i] o = o.step σ c i := by
  rw [run_cons]
  cases o.step σ c i <;> rfl

/-- Straight code comes first. -/
theorem exec_append (js : List Inst) (h : run σ c is o = some o') (his : ∀ i ∈ is, i.isStraight = true) :
    exec σ c (is ++ js) o = exec σ c js o' := by
  induction is generalizing o with
  | nil =>
    obtain rfl := Option.some.inj h
    rfl
  | cons i is ih =>
    obtain ⟨hi, his⟩ := List.forall_mem_cons.mp his
    rw [run_cons] at h
    obtain ⟨o₁, hstep, h⟩ := Option.bind_eq_some_iff.mp h
    rw [Inst.isStraight, decide_eq_true_eq] at hi
    rw [List.cons_append, exec]
    rcases hi with hi | hi <;> rw [hi] <;> simp only [hstep, Option.bind_some, ih h his]

theorem exec_jump : exec σ c (jumpTo l :: is) o = some (o, .goto l) := rfl

theorem exec_branch {p : Ir.Predicate} {mnemonic : String} (hp : jumpCondition? mnemonic = some p) :
    exec σ c (branchTo mnemonic l :: is) o =
      if o.core.flags.holds p then some (o, .goto l) else exec σ c is o := by
  rw [exec]
  simp only [branchTo, hp, Option.bind_some]

theorem exec_ret : exec σ c ({ mnemonic := "ret", operands := [], kind := .ret } :: is) o =
    some (o, .ret) := rfl

/-! ## Quiet code -/

theorem step_of_plain (hcall : i.mnemonic ≠ "call") (hpush : i.mnemonic ≠ "pushq") :
    o.step σ c i = (o.core.step c i).map fun s ↦
      { core := s
        stack := o.stack.drop i.pops
        deeds := o.deeds ++ (o.core.written i).map fun (a, n) ↦
          .store a n (BitVec.ofNat 64 (s.mem.load a n)) } := by
  rw [step]
  split
  next heq _ => exact absurd heq hcall
  next heq _ => exact absurd heq hpush
  next => rfl

theorem pops_eq_zero (h : ∀ n, i.operands.getLast? ≠ some (.reg (.phys .rsp) n)) : i.pops = 0 := by
  rw [Inst.pops]
  split
  next heq => exact absurd (heq ▸ rfl) (h 8)
  next => rfl

theorem step_quiet (h : i.isQuiet = true) :
    o.step σ c i = (o.core.step c i).map o.withCore := by
  rw [Inst.isQuiet, Bool.and_eq_true, Bool.and_eq_true, decide_eq_true_eq, decide_eq_true_eq] at h
  obtain ⟨⟨hcall, hpush⟩, hlast⟩ := h
  have hmem : ∀ m, i.operands.getLast? ≠ some (.mem m) := fun m hm ↦ by simp [hm] at hlast
  have hrsp : ∀ n, i.operands.getLast? ≠ some (.reg (.phys .rsp) n) := fun n hn ↦ by simp [hn] at hlast
  rw [step_of_plain hcall hpush, pops_eq_zero hrsp, Core.written_eq_nil hcall hpush hmem]
  simp only [List.drop_zero, List.map_nil, List.append_nil]
  rfl

/-- Quiet code is executed as without an observer. -/
theorem run_quiet (h : ∀ i ∈ is, i.isQuiet = true) :
    run σ c is o = (Core.run c is o.core).map o.withCore := by
  induction is generalizing o with
  | nil => rfl
  | cons i is ih =>
    obtain ⟨hi, his⟩ := List.forall_mem_cons.mp h
    rw [run_cons, step_quiet hi, Core.run_cons]
    cases o.core.step c i with
    | none => rfl
    | some s => exact ih his

/-! ## Stores -/

/-- A move to memory stores the low bytes of what it moves. -/
theorem step_store {src : Operand} (hn : n ∈ [1, 2, 4, 8]) (hname : i.mnemonic = moveMnemonic n)
    (hops : i.operands = [src, .mem m]) (hfits : Core.fits false src = true) (hsrc : src.isMem = false)
    (hread : o.core.read n src = some (lowBytes n w)) :
    o.step σ c i = some
      { o with
        core := o.core.store (o.core.address m) n w
        deeds := o.deeds ++ [.store (o.core.address m) n (lowBytes n w)] } := by
  have hmove : moveMnemonic n ≠ "call" ∧ moveMnemonic n ≠ "pushq" ∧
      formOf (moveMnemonic n) 2 = some (.move n) := by
    simp only [List.mem_cons, List.not_mem_nil, or_false] at hn
    rcases hn with rfl | rfl | rfl | rfl <;> exact ⟨by decide, by decide, rfl⟩
  obtain ⟨hcall, hpush, hform⟩ := hmove
  have hencodable : Core.isEncodable (.move n) [src, .mem m] = true := by
    have hcount : List.countP Operand.isMem [src, .mem m] ≤ 1 := by
      rw [List.countP_cons_of_neg (by rw [hsrc]; exact Bool.false_ne_true)]
      exact List.countP_le_length
    have hall : [src, .mem m].all (Core.fits (Form.move n).wide) = true := by
      rw [List.all_cons, show (Form.move n).wide = false from rfl, hfits]
      rfl
    rw [Core.isEncodable, decide_eq_true hcount, hall]
    rfl
  have hstep : o.core.step c i = some (o.core.store (o.core.address m) n w) := by
    rw [Core.step_move hn hname hops, Core.perform_move hencodable, hread, Option.bind_some, Core.write,
      Core.store, Memory.store_lowBytes]
    rfl
  have hwritten : o.core.written i = [(o.core.address m, n)] := by
    rw [Core.written_of_plain (hname ▸ hcall) (hname ▸ hpush), hname, hops]
    exact congrArg (fun f : Option Form ↦ (f.map fun form ↦ o.core.writes form [src, .mem m]).getD [])
      hform
  have hpops : i.pops = 0 := pops_eq_zero fun _ ↦ by simp [hops]
  rw [step_of_plain (hname ▸ hcall) (hname ▸ hpush), hstep, Option.map_some, hwritten, hpops]
  simp only [List.map_cons, List.map_nil, Core.mem_store, Memory.load_store, List.drop_zero]

/-! ## Calls -/

/-- Registers are pushed one after the other. -/
theorem run_pushes (vs : List VReg) :
    run σ c (vs.map fun v ↦ { mnemonic := "pushq", operands := [.vreg v] }) o = some
      { core := o.core.setReg (.phys .rsp)
          (o.core.regs (.phys .rsp) - BitVec.ofNat 64 (8 * vs.length))
        stack := (vs.map fun v ↦ o.core.regs (.virt v)).reverse ++ o.stack
        deeds := o.deeds } := by
  induction vs generalizing o with
  | nil =>
    have hzero : o.core.regs (.phys .rsp) - BitVec.ofNat 64 (8 * 0) = o.core.regs (.phys .rsp) :=
      BitVec.sub_zero _
    rw [List.length_nil, hzero, Core.setReg_regs]
    rfl
  | cons v vs ih =>
    have hpush : o.step σ c { mnemonic := "pushq", operands := [.vreg v] } =
        some (o.push (o.core.regs (.virt v))) := by
      simp only [step, Core.read_vreg]
      rfl
    rw [List.map_cons, run_cons, hpush, Option.bind_some, ih]
    have hcore : (o.core.setReg (.phys .rsp) (o.core.regs (.phys .rsp) - 8)).setReg (.phys .rsp)
        (o.core.regs (.phys .rsp) - 8 - BitVec.ofNat 64 (8 * vs.length)) =
          o.core.setReg (.phys .rsp)
            (o.core.regs (.phys .rsp) - BitVec.ofNat 64 (8 * (v :: vs).length)) := by
      have hsum : o.core.regs (.phys .rsp) - 8 - BitVec.ofNat 64 (8 * vs.length) =
          o.core.regs (.phys .rsp) - BitVec.ofNat 64 (8 * (v :: vs).length) := by
        rw [List.length_cons, Nat.mul_succ, BitVec.ofNat_add]
        generalize BitVec.ofNat 64 (8 * vs.length) = x
        bv_omega
      rw [hsum]
      refine congrArg (fun regs ↦ (⟨regs, o.core.mem, o.core.flags⟩ : Core)) (funext fun r ↦ ?_)
      by_cases hr : r = .phys .rsp <;> simp [Core.setReg, hr]
    simp only [push, Core.regs_setReg_self, hcore]
    have hvirt : ∀ u, (o.core.setReg (.phys .rsp) (o.core.regs (.phys .rsp) - 8)).regs (.virt u) =
        o.core.regs (.virt u) := fun u ↦ Core.regs_setReg_of_ne Reg.noConfusion
    simp only [hvirt, List.map_cons, List.reverse_cons, List.append_assoc, List.singleton_append]

/-- Some words are taken off the stack. -/
theorem run_popCode (hn : 8 * n < 2 ^ 31) : ∃ f, run σ c (popCode n) o = some
    { o with
      core := (o.core.setFlags f).setReg (.phys .rsp)
        (o.core.regs (.phys .rsp) + BitVec.ofNat 64 (8 * n))
      stack := o.stack.drop n } := by
  by_cases hzero : n = 0
  · subst hzero
    refine ⟨o.core.flags, ?_⟩
    have hsame : o.core.regs (.phys .rsp) + BitVec.ofNat 64 (8 * 0) = o.core.regs (.phys .rsp) :=
      BitVec.add_zero _
    rw [hsame]
    exact congrArg some (congrArg o.withCore (Core.setReg_regs (s := o.core.setFlags _)).symm)
  obtain ⟨i, hi⟩ : ∃ i, i = Inst.update "addq" [.imm (BitVec.ofNat 64 (8 * n)), .phys .rsp] := ⟨_, rfl⟩
  have hname : i.mnemonic = "addq" := by rw [hi, Inst.update]
  have hcall : i.mnemonic ≠ "call" := hname ▸ by decide
  have hpush : i.mnemonic ≠ "pushq" := hname ▸ by decide
  have hpops : i.pops = n := by
    have hword : (BitVec.ofNat 64 (8 * n)).toNat = 8 * n := Nat.mod_eq_of_lt (by omega)
    rw [hi]
    change (BitVec.ofNat 64 (8 * n)).toNat / 8 = n
    omega
  have hwritten : o.core.written i = [] := by
    refine Core.written_eq_nil hcall hpush fun m ↦ ?_
    rw [hi]
    exact fun h ↦ Operand.noConfusion (Option.some.inj h)
  have hfits : Core.fits false (.imm (BitVec.ofNat 64 (8 * n))) = true := fitsImm32_ofNat hn
  obtain ⟨f, hstep⟩ := Core.step_add_stack (c := c) (s := o.core) hi hfits
  refine ⟨f, ?_⟩
  rw [popCode, if_neg hzero, ← hi, run_singleton, step_of_plain hcall hpush, hstep, Option.map_some,
    hwritten, hpops, List.map_nil, List.append_nil]

/-- **Calls.** The code of a call hands the words in some registers to the callee, and puts its result into
a new register if it has one. The stack is empty again afterwards. -/
theorem run_callCode (name : String) {vs : List VReg} (result? : Option VReg) {r : Memory × Word}
    (hr : r = σ.call name (vs.map fun v ↦ o.core.regs (.virt v)) o.core.mem) (hstack : o.stack = [])
    (hfew : 8 * vs.length < 2 ^ 31) :
    ∃ s', run σ c (callCode name (vs.map .vreg) result?) o = some
        { core := s'
          stack := []
          deeds := o.deeds ++ [.call name (vs.map fun v ↦ o.core.regs (.virt v))] } ∧
      s'.mem = r.1 ∧ (∀ v, result? = some v → s'.regs (.virt v) = r.2) ∧
      (∀ v, result? ≠ some v → s'.regs (.virt v) = o.core.regs (.virt v)) ∧
      s'.regs (.phys .rbp) = o.core.regs (.phys .rbp) := by
  obtain ⟨ws, hws⟩ : ∃ ws, ws = vs.map fun v ↦ o.core.regs (.virt v) := ⟨_, rfl⟩
  rw [← hws] at hr ⊢
  -- the arguments are pushed, the last one first
  have hpushes : (vs.map Operand.vreg).reverse.map (fun x ↦
      ({ mnemonic := "pushq", operands := [x] } : Inst)) =
        vs.reverse.map fun v ↦ { mnemonic := "pushq", operands := [.vreg v] } := by
    rw [← List.map_reverse, List.map_map]
    rfl
  have hwords : (vs.reverse.map fun v ↦ o.core.regs (.virt v)).reverse ++ o.stack = ws := by
    rw [List.map_reverse, List.reverse_reverse, hstack, List.append_nil, hws]
  have hpushed := run_pushes (σ := σ) (c := c) (o := o) vs.reverse
  rw [hwords] at hpushed
  obtain ⟨o₁, ho₁⟩ : ∃ o₁ : Observed, o₁ = ⟨o.core.setReg (.phys .rsp)
    (o.core.regs (.phys .rsp) - BitVec.ofNat 64 (8 * vs.reverse.length)), ws, o.deeds⟩ := ⟨_, rfl⟩
  rw [← ho₁] at hpushed
  obtain ⟨o₂, ho₂⟩ : ∃ o₂, o₂ = o₁.call σ c name := ⟨_, rfl⟩
  have hcall : o₁.step σ c { mnemonic := "call", operands := [.symbol name], kind := .call } = some o₂ :=
    ho₂ ▸ rfl
  obtain ⟨f, hpop⟩ := run_popCode (σ := σ) (c := c) (o := o₂) hfew
  have hlength : ws.length = vs.length := by rw [hws, List.length_map]
  have hempty : o₂.stack.drop vs.length = [] := by
    rw [ho₂, ho₁, ← hlength]
    exact List.drop_length
  have hdeeds : o₂.deeds = o.deeds ++ [.call name ws] := by rw [ho₂, ho₁]; rfl
  obtain ⟨s₃, hs₃⟩ : ∃ s₃, s₃ = (o₂.core.setFlags f).setReg (.phys .rsp)
    (o₂.core.regs (.phys .rsp) + BitVec.ofNat 64 (8 * vs.length)) := ⟨_, rfl⟩
  rw [← hs₃, hempty] at hpop
  have hrun : run σ c (callCode name (vs.map .vreg) none) o =
      some ⟨s₃, [], o.deeds ++ [.call name ws]⟩ := by
    rw [callCode, hpushes, Option.map_none, Option.toList_none, List.append_nil, run_append,
      hpushed, Option.bind_some, run_cons, hcall, Option.bind_some, List.length_map, hpop, hdeeds]
  have hmem : s₃.mem = r.1 := by rw [hs₃, ho₂, ho₁, hr]; rfl
  have hrax : s₃.regs (.phys .rax) = r.2 := by rw [hs₃, ho₂, ho₁, hr]; rfl
  have hvirt : ∀ v, s₃.regs (.virt v) = o.core.regs (.virt v) := fun v ↦ by rw [hs₃, ho₂, ho₁]; rfl
  have hframe : s₃.regs (.phys .rbp) = o.core.regs (.phys .rbp) := by rw [hs₃, ho₂, ho₁]; rfl
  cases result? with
  | none =>
    exact ⟨s₃, hrun, hmem, fun _ h ↦ absurd h (by simp), fun v _ ↦ hvirt v, hframe⟩
  | some dst =>
    have hmove : (⟨s₃, [], o.deeds ++ [.call name ws]⟩ : Observed).step σ c (moveTo dst (.phys .rax)) =
        some ⟨s₃.setReg (.virt dst) r.2, [], o.deeds ++ [.call name ws]⟩ := by
      rw [step_quiet rfl, Core.step_moveTo rfl Core.read_phys, hrax]
      rfl
    refine ⟨s₃.setReg (.virt dst) r.2, ?_, hmem, fun v hv ↦ ?_, fun v hv ↦ ?_, ?_⟩
    · rw [callCode_append, run_append, hrun, Option.bind_some, run_singleton, hmove]
    · obtain rfl := Option.some.inj hv
      exact Core.regs_setReg_self
    · rw [Core.regs_setReg_of_ne fun heq ↦ hv (congrArg some (Reg.virt.inj heq).symm), hvirt]
    · rw [Core.regs_setReg_of_ne Reg.noConfusion, hframe]

end Observed

end TreeCover.Machine
