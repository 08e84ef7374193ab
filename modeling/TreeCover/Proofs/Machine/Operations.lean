import Mathlib.Tactic.NormNum.Basic
import TreeCover.Proofs.Ir.Evaluation
import TreeCover.Proofs.Machine.Core
import TreeCover.Proofs.Machine.Written

/-!
# What emitted instructions compute

The instructions that selection emits for an operation, executed: the register for the result holds it
afterwards, and apart from scratch registers and flags everything else is as it was. `Spares` is that
relation between two states of the machine, and `Puts` says of some instructions that they run and put
a word into a register.
-/

namespace TreeCover.Machine

/-! ## Conditions and divisions

The condition codes after a comparison say what the comparison of the intermediate language says, and
the division of a word that was extended with its sign is the signed division of words. -/

section

variable {x y : Word}

/-! ## Comparisons -/

/-- The sign of a difference is wrong exactly if the difference overflows. -/
theorem msb_sub_bne_ssubOverflow (y x : Word) :
    ((y - x).msb != BitVec.ssubOverflow y x) = y.slt x := by
  have hy := y.toInt_lt
  have hy' := y.le_toInt
  have hx := x.toInt_lt
  have hx' := x.le_toInt
  have hsub : (y - x).toInt = (y.toInt - x.toInt).bmod (2 ^ 64) := BitVec.toInt_sub
  rw [Bool.eq_iff_iff, bne_iff_ne, BitVec.msb_eq_toInt, BitVec.ssubOverflow,
    BitVec.slt_iff_toInt_lt, ne_eq, Bool.eq_iff_iff]
  simp only [decide_eq_true_eq, Bool.or_eq_true, ge_iff_le]
  rw [hsub, Int.bmod_def]
  generalize y.toInt = a at *
  generalize x.toInt = b at *
  simp only [Nat.reducePow, Nat.reduceSub, Int.reducePow, Int.reduceNeg] at *
  split <;> omega

/-- **Comparisons.** A condition holds after a comparison if the words compare that way. -/
theorem Flags.holds_ofSub (p : Ir.Predicate) (y x : Word) :
    (Flags.ofSub y x).holds p = p.eval y x := by
  have hsigned := msb_sub_bne_ssubOverflow y x
  have hsame : ((y - x).msb == BitVec.ssubOverflow y x) = !y.slt x := by
    rw [← hsigned, bne, Bool.not_not]
  have hzero : (y - x == 0) = (y == x) := by
    rw [Bool.eq_iff_iff, beq_iff_eq, beq_iff_eq]
    bv_omega
  have hbelow : decide (y < x) = y.ult x := rfl
  have hzero' : (y == x) = decide (y.toNat = x.toNat) := by
    rw [Bool.eq_iff_iff, beq_iff_eq, decide_eq_true_eq, BitVec.toNat_eq]
  have hslt : ∀ u v : Word, u.slt v = decide (u.toInt < v.toInt) := fun _ _ ↦ rfl
  have hsle : ∀ u v : Word, u.sle v = decide (u.toInt ≤ v.toInt) := fun _ _ ↦ rfl
  have hult : ∀ u v : Word, u.ult v = decide (u.toNat < v.toNat) := fun _ _ ↦ rfl
  have hule : ∀ u v : Word, u.ule v = decide (u.toNat ≤ v.toNat) := fun _ _ ↦ rfl
  have hint : y.toNat = x.toNat ↔ y.toInt = x.toInt := by
    rw [← BitVec.toNat_eq, BitVec.toInt_inj]
  cases p <;>
    simp only [holds, ofSub, ofResult, Ir.Predicate.eval, hzero, hbelow, hsigned, hsame]
  case ne => rfl
  case sle =>
    rw [hzero', hslt, hsle, Bool.eq_iff_iff]
    simp only [Bool.or_eq_true, decide_eq_true_eq, hint]
    omega
  case sgt =>
    rw [hzero', hslt, hslt, Bool.eq_iff_iff]
    simp only [Bool.and_eq_true, Bool.not_eq_true', decide_eq_true_eq, decide_eq_false_iff_not, hint]
    omega
  case sge =>
    rw [hslt, hsle, Bool.eq_iff_iff]
    simp only [Bool.not_eq_true', decide_eq_true_eq, decide_eq_false_iff_not]
    omega
  case ule =>
    rw [hzero', hult, hule, Bool.eq_iff_iff]
    simp only [Bool.or_eq_true, decide_eq_true_eq]
    omega
  case ugt =>
    rw [hzero', hult, hult, Bool.eq_iff_iff]
    simp only [Bool.and_eq_true, Bool.not_eq_true', decide_eq_true_eq, decide_eq_false_iff_not]
    omega
  case uge =>
    rw [hult, hule, Bool.eq_iff_iff]
    simp only [Bool.not_eq_true', decide_eq_true_eq, decide_eq_false_iff_not]
    omega

/-- The zero flag after a test of a word against itself. -/
theorem Flags.holds_ne_test (x : Word) :
    (Flags.ofResult (x &&& x) false false).holds .ne = decide (x ≠ 0) := by
  rw [BitVec.and_self, holds, ofResult, Bool.eq_iff_iff]
  simp

/-! ## Divisions -/

/-- The word that `cqto` puts above another one. -/
def signWord (a : Word) : Word := if a.msb then -1 else 0

/-- A word that was extended with its sign is the same number. -/
theorem toInt_signWord_append (a : Word) : (signWord a ++ a).toInt = a.toInt := by
  rw [BitVec.toInt_append, if_neg (by decide), signWord]
  have hmsb := BitVec.msb_eq_toInt (x := a)
  have hnat := BitVec.toInt_eq_msb_cond a
  split
  next h =>
    rw [h, if_pos rfl] at hnat
    rw [hnat]
    have hone : (-1 : Word).toInt = -1 := by decide
    rw [hone]
    omega
  next h =>
    rw [Bool.not_eq_true] at h
    rw [h] at hnat
    rw [hnat]
    simp

/-- The division of words gives a quotient and a remainder wherever the signed division is defined. -/
theorem act_divide {f : Flags} {a b : Word} (hb : b ≠ 0) (hfits : a ≠ BitVec.intMin 64 ∨ b ≠ -1) :
    Form.divide.act f [a, signWord a] [b]
      = some { flags := f, outputs := [a.sdiv b, a.srem b] } := by
  have hquotient : (a.sdiv b).toInt = a.toInt.tdiv b.toInt := by
    refine BitVec.toInt_sdiv_of_ne_or_ne a b (hfits.imp_right fun h heq ↦ h ?_)
    rw [heq]
    rfl
  have hremainder : (a.srem b).toInt = a.toInt.tmod b.toInt := BitVec.toInt_srem a b
  have hsigned : fitsSigned 64 (a.toInt.tdiv b.toInt) = true := by
    rw [fitsSigned, ← hquotient, BitVec.ofInt_toInt]
    exact beq_self_eq_true _
  have htraps : ¬ (b = 0 ∨ (!fitsSigned 64 (a.toInt.tdiv b.toInt)) = true) := by
    rw [hsigned]
    exact fun h ↦ h.elim hb Bool.noConfusion
  simp only [Form.divide, toInt_signWord_append]
  rw [if_neg htraps, ← hquotient, ← hremainder, BitVec.ofInt_toInt, BitVec.ofInt_toInt]

end

variable {c : Callee} {s s' s'' : Core} {v u : VReg} {x y w : Word} {m : Mem} {o : Operand}
  {is js : List Inst} {touched touched' : VReg → Prop} {f : Flags} {q : PhysReg} {n : Nat}

/-! ## Steady operands -/

/-- An address that depends on virtual registers and the frame pointer only. -/
def Mem.Steady (m : Mem) : Prop := ∀ q, Reg.phys q ∈ m.regs → q = .rbp

theorem Mem.steady_frame (d : Int) : (Mem.frame d).Steady := by
  intro q hq
  rw [Mem.frame, Mem.based, Mem.regs] at hq
  simpa using hq

theorem Mem.steady_based (v : VReg) (d : Int) : (Mem.based (.virt v) d).Steady := by
  intro q hq
  rw [Mem.based, Mem.regs] at hq
  simp at hq

/-- An operand that depends on virtual registers, the frame pointer and memory only. -/
def Operand.Steady : Operand → Prop
  | .mem m => m.Steady
  | .reg (.phys _) _ => False
  | _ => True

namespace Core

/-! ## States that differ in scratch registers only -/

/-- From `s` to `s'` nothing changes but flags, registers that `touched` names, and physical registers
other than those of the frame and the stack. -/
structure Spares (touched : VReg → Prop) (s s' : Core) : Prop where
  mem : s'.mem = s.mem
  virt : ∀ v, ¬ touched v → s'.regs (.virt v) = s.regs (.virt v)
  frame : s'.regs (.phys .rbp) = s.regs (.phys .rbp)
  stack : s'.regs (.phys .rsp) = s.regs (.phys .rsp)

namespace Spares

theorem refl (s : Core) : Spares touched s s := ⟨rfl, fun _ _ ↦ rfl, rfl, rfl⟩

theorem trans (h : Spares touched s s') (h' : Spares touched s' s'') : Spares touched s s'' where
  mem := h'.mem.trans h.mem
  virt v hv := (h'.virt v hv).trans (h.virt v hv)
  frame := h'.frame.trans h.frame
  stack := h'.stack.trans h.stack

theorem mono (h : Spares touched s s') (hsub : ∀ v, touched v → touched' v) :
    Spares touched' s s' where
  mem := h.mem
  virt v hv := h.virt v fun ht ↦ hv (hsub v ht)
  frame := h.frame
  stack := h.stack

theorem setFlags (s : Core) (f : Flags) : Spares touched s (s.setFlags f) :=
  ⟨rfl, fun _ _ ↦ rfl, rfl, rfl⟩

theorem setVirt (s : Core) (w : Word) (h : touched v) : Spares touched s (s.setReg (.virt v) w) where
  mem := rfl
  virt _ hu := regs_setReg_of_ne fun heq ↦ hu (Reg.virt.inj heq ▸ h)
  frame := regs_setReg_of_ne Reg.noConfusion
  stack := regs_setReg_of_ne Reg.noConfusion

theorem setPhys (s : Core) (w : Word) (hframe : q ≠ .rbp) (hstack : q ≠ .rsp) :
    Spares touched s (s.setReg (.phys q) w) where
  mem := rfl
  virt _ _ := regs_setReg_of_ne Reg.noConfusion
  frame := regs_setReg_of_ne fun heq ↦ hframe (Reg.phys.inj heq).symm
  stack := regs_setReg_of_ne fun heq ↦ hstack (Reg.phys.inj heq).symm

/-- A steady address whose registers are spared stays where it is. -/
theorem address (h : Spares touched s s') (hm : m.Steady)
    (hv : ∀ v ∈ (Operand.mem m).vregs, ¬ touched v) : s'.address m = s.address m := by
  refine address_congr fun r hr ↦ ?_
  cases r with
  | virt v => exact h.virt v (hv v (List.mem_filterMap.mpr ⟨_, hr, rfl⟩))
  | phys q =>
    obtain rfl := hm q hr
    exact h.frame

/-- A steady operand whose registers are spared keeps its value. -/
theorem read (h : Spares touched s s') (ho : o.Steady) (hv : ∀ v ∈ o.vregs, ¬ touched v) (n : Nat) :
    s'.read n o = s.read n o := by
  cases o with
  | reg r width =>
    cases r with
    | virt v => rw [Core.read, Core.read, h.virt v (hv v (List.mem_singleton_self v))]
    | phys q => exact absurd ho not_false
  | mem m => rw [Core.read, Core.read, h.address ho hv, h.mem]
  | _ => rfl

end Spares

/-- Instructions that put a word into a register. -/
def Puts (c : Callee) (is : List Inst) (s : Core) (v : VReg) (w : Word) : Prop :=
  ∃ s', run c is s = some s' ∧ Spares (· = v) s s' ∧ s'.regs (.virt v) = w

theorem run_singleton (c : Callee) (i : Inst) (s : Core) : run c [i] s = s.step c i := by
  rw [run_cons]
  cases s.step c i <;> rfl

theorem Puts.of_step {i : Inst} (h : s.step c i = some ((s.setFlags f).setReg (.virt v) w)) :
    Puts c [i] s v w :=
  ⟨_, (run_singleton c i s).trans h, (Spares.setFlags s f).trans (.setVirt _ _ rfl),
    regs_setReg_self⟩

theorem Puts.of_step_same {i : Inst} (h : s.step c i = some (s.setReg (.virt v) w)) :
    Puts c [i] s v w :=
  ⟨_, (run_singleton c i s).trans h, .setVirt _ _ rfl, regs_setReg_self⟩

/-- Instructions after one that spares all virtual registers but the one for the result. -/
theorem Puts.after {i : Inst} (h : s.step c i = some s') (hs : Spares (· = v) s s')
    (his : Puts c is s' v w) : Puts c (i :: is) s v w := by
  obtain ⟨s₁, hrun, hspares, hw⟩ := his
  refine ⟨s₁, ?_, hs.trans hspares, hw⟩
  rw [run_cons, h, Option.bind_some, hrun]

/-! ## Reading and writing registers -/

theorem read_vreg (s : Core) (v : VReg) : s.read 8 (.vreg v) = some (s.regs (.virt v)) := by
  rw [Operand.vreg, Core.read, if_pos rfl, lowBytes_eight]

theorem read_imm (s : Core) (w : Word) : s.read 8 (.imm w) = some w := by
  rw [Core.read, lowBytes_eight]

theorem read_mem (s : Core) (m : Mem) : s.read 8 (.mem m) = some (s.mem.word (s.address m)) := rfl

theorem write_vreg (s : Core) (v : VReg) (w : Word) :
    s.write 8 w (.vreg v) = some (s.setReg (.virt v) w) := by
  rw [Operand.vreg, write, if_pos rfl, mergeBytes_eight]

/-- An instruction of a form, found by its name. -/
theorem step_of_form {i : Inst} {form : Form} (name : String) (ops : List Operand)
    (hname : i.mnemonic = name) (hops : i.operands = ops) (hcall : name ≠ "call")
    (hpush : name ≠ "pushq") (hform : formOf name ops.length = some form) :
    s.step c i = s.perform form ops := by
  rw [step_of_plain (hname ▸ hcall) (hname ▸ hpush), hname, hops, hform, Option.bind_some]

/-- A form fits an operand that is read and a register. -/
theorem encodable_to_reg {form : Form} {r : Reg} (h : fits form.wide o = true) :
    isEncodable form [o, .reg r 8] = true := by
  have hmem : List.countP Operand.isMem [o, .reg r 8] ≤ 1 := by
    cases o <;> simp [List.countP_cons, Operand.isMem]
  have hfits : [o, .reg r 8].all (fits form.wide) = true := by
    rw [List.all_cons, h]
    rfl
  rw [isEncodable, hfits, decide_eq_true hmem]
  exact Bool.or_true _

theorem encodable_to_vreg {form : Form} (h : fits form.wide o = true) :
    isEncodable form [o, .vreg v] = true := encodable_to_reg h

theorem encodable_to_phys {form : Form} (h : fits form.wide o = true) :
    isEncodable form [o, .phys q] = true := encodable_to_reg h

/-! ## Moves -/

theorem step_moveTo (hfits : fits false o = true) (ho : s.read 8 o = some x) :
    s.step c (moveTo v o) = some (s.setReg (.virt v) x) := by
  rw [step_move (by decide : 8 ∈ [1, 2, 4, 8]) rfl rfl, perform_move (encodable_to_vreg hfits), ho,
    Option.bind_some, write_vreg]

theorem puts_moveTo (hfits : fits false o = true) (ho : s.read 8 o = some x) :
    Puts c [moveTo v o] s v x := .of_step_same (step_moveTo hfits ho)

theorem puts_loadConstant (w : Word) : Puts c [loadConstant w (.vreg v)] s v w := by
  rw [loadConstant]
  split
  next hfits => exact puts_moveTo (by rw [fits, hfits]; rfl) (read_imm s w)
  next =>
    refine .of_step_same ?_
    have hform : formOf "movabsq" 2 = some { Form.move 8 with regTarget := true, wide := true } :=
      rfl
    rw [step_of_form "movabsq" [.imm w, .vreg v] rfl rfl (by decide) (by decide) hform, perform,
      if_pos (encodable_to_vreg rfl)]
    simp only [gather, use, read_imm, Form.move, Option.bind_eq_bind, Option.bind_some,
      Option.pure_def]
    rw [finish_of_last rfl rfl rfl]
    exact write_vreg _ _ _

theorem puts_lea (m : Mem) : Puts c [.intoReg (.define "leaq" [.mem m, .vreg v])] s v (s.address m) := by
  refine .of_step_same ?_
  have hform : formOf "leaq" 2 = some .lea := rfl
  rw [step_of_form "leaq" [.mem m, .vreg v] rfl rfl (by decide) (by decide) hform, perform,
    if_pos (encodable_to_vreg rfl)]
  simp only [gather, use, Form.lea, Form.move, Option.bind_eq_bind, Option.bind_some,
    Option.pure_def]
  rw [finish_of_last rfl rfl rfl]
  exact write_vreg _ _ _

/-! ## Extensions -/

/-- A move that extends some bytes to a word. -/
theorem perform_extend {g : Word → Word} (hfits : fits false o = true) (ho : s.read n o = some x) :
    s.perform (.extend n g) [o, .vreg v] = some (s.setReg (.virt v) (g x)) := by
  rw [perform, if_pos (encodable_to_vreg hfits)]
  simp only [gather, use, ho, Form.extend, Option.bind_eq_bind, Option.bind_some, Option.pure_def]
  rw [finish_of_last rfl rfl rfl]
  exact write_vreg _ _ _

/-! ## Operators -/

theorem perform_binary {regTarget : Bool} {g : Word → Word → Word} {flags : Word → Word → Flags}
    (hfits : fits false o = true) (ho : s.read 8 o = some x) :
    s.perform (.binary regTarget g flags) [o, .vreg v] =
      some ((s.setFlags (flags (s.regs (.virt v)) x)).setReg (.virt v) (g (s.regs (.virt v)) x)) := by
  rw [perform, if_pos (encodable_to_vreg hfits)]
  simp only [gather, use, ho, read_vreg, Form.binary, Option.bind_eq_bind, Option.bind_some,
    Option.pure_def]
  rw [finish_of_last rfl rfl rfl]
  exact write_vreg _ _ _

theorem perform_shift (v : VReg) (g : Word → Nat → Word) (carry : Word → Nat → Bool)
    (hfits : fits false o = true) (ho : s.read 1 o = some x) :
    ∃ f, s.perform (.shift g carry) [o, .vreg v] = some ((s.setFlags f).setReg (.virt v)
      (g (s.regs (.virt v)) (x.toNat % 64))) := by
  rw [perform, if_pos (encodable_to_vreg hfits)]
  simp only [gather, use, ho, read_vreg, Form.shift, Option.bind_eq_bind, Option.bind_some,
    Option.pure_def]
  rw [finish_of_last rfl rfl rfl]
  exact ⟨_, write_vreg _ _ _⟩

/-! ## Operations of the intermediate language -/

/-- The operators that are one instruction on a copy of the first operand. -/
def binaryMnemonics : List (Ir.BinaryOp × String) :=
  [(.add, "addq"), (.sub, "subq"), (.and, "andq"), (.or, "orq"), (.xor, "xorq"), (.mul, "imulq")]

theorem exists_form_of_binary : ∀ x ∈ binaryMnemonics, x.2 ≠ "call" ∧ x.2 ≠ "pushq" ∧
    ∃ regTarget g flags, formOf x.2 2 = some (.binary regTarget g flags) ∧
      ∀ y z : Word, x.1.run? y z = some (g y z) := by
  simp only [binaryMnemonics, List.forall_mem_cons]
  exact ⟨⟨by decide, by decide, _, _, _, rfl, fun _ _ ↦ rfl⟩,
    ⟨by decide, by decide, _, _, _, rfl, fun _ _ ↦ rfl⟩,
    ⟨by decide, by decide, _, _, _, rfl, fun _ _ ↦ rfl⟩,
    ⟨by decide, by decide, _, _, _, rfl, fun _ _ ↦ rfl⟩,
    ⟨by decide, by decide, _, _, _, rfl, fun _ _ ↦ rfl⟩,
    ⟨by decide, by decide, _, _, _, rfl, fun _ _ ↦ rfl⟩, fun _ h ↦ absurd h List.not_mem_nil⟩

theorem puts_binary {op : Ir.BinaryOp} {mnemonic : String} {needsRegDst : Bool}
    (hop : (op, mnemonic) ∈ binaryMnemonics) (hfits : fits false o = true) (hsteady : o.Steady)
    (hfresh : v ∉ o.vregs) (ho : s.read 8 o = some x) (hw : op.run? (s.regs (.virt u)) x = some w) :
    Puts c [moveTo v (.vreg u), { Inst.update mnemonic [o, .vreg v] with needsRegDst }] s v w := by
  obtain ⟨hcall, hpush, regTarget, g, flags, hform, hg⟩ := exists_form_of_binary _ hop
  have hspares : Spares (· = v) s (s.setReg (.virt v) (s.regs (.virt u))) := .setVirt _ _ rfl
  have ho' : (s.setReg (.virt v) (s.regs (.virt u))).read 8 o = some x := by
    rw [hspares.read hsteady (fun _ hu heq ↦ hfresh (heq ▸ hu)), ho]
  refine .after (step_moveTo rfl (read_vreg s u)) hspares
    (.of_step (f := flags (s.regs (.virt u)) x) ?_)
  rw [step_of_form mnemonic [o, .vreg v] rfl rfl hcall hpush hform, perform_binary hfits ho',
    regs_setReg_self, ← Option.some.inj ((hg _ _).symm.trans hw)]

theorem puts_mulImm {k : Word} (hfits : fitsImm32 k = true)
    (hw : Ir.BinaryOp.mul.run? (s.regs (.virt u)) k = some w) :
    Puts c [.intoReg (.define "imulq" [.imm k, .vreg u, .vreg v])] s v w := by
  have hform : formOf "imulq" 3 = some .multiply := rfl
  have hencodable : isEncodable .multiply [.imm k, .vreg u, .vreg v] = true := by
    have hall : [.imm k, .vreg u, .vreg v].all (fits false) = true := by
      rw [List.all_cons, fits, hfits]
      rfl
    rw [isEncodable]
    exact Bool.and_eq_true_iff.mpr ⟨Bool.and_eq_true_iff.mpr ⟨rfl, hall⟩, rfl⟩
  refine .of_step (f := Form.multiplyFlags (s.regs (.virt u)) k) ?_
  rw [step_of_form "imulq" [.imm k, .vreg u, .vreg v] rfl rfl (by decide) (by decide) hform, perform,
    if_pos hencodable]
  simp only [gather, use, read_imm, read_vreg, Form.multiply, Form.binary, Option.bind_eq_bind,
    Option.bind_some, Option.pure_def]
  rw [finish_of_last rfl rfl rfl]
  obtain rfl := Option.some.inj hw
  exact write_vreg _ _ _

/-- The shifts, each with its instruction. -/
def shiftMnemonics : List (Ir.BinaryOp × String) := [(.shl, "shlq"), (.lshr, "shrq"), (.ashr, "sarq")]

theorem toNat_and_63 (x : Word) : (x &&& 63).toNat = x.toNat % 64 := by
  rw [BitVec.toNat_and]
  exact Nat.and_two_pow_sub_one_eq_mod x.toNat 6

theorem exists_form_of_shift : ∀ x ∈ shiftMnemonics, x.2 ≠ "call" ∧ x.2 ≠ "pushq" ∧
    ∃ g carry, formOf x.2 2 = some (.shift g carry) ∧
      ∀ y z : Word, x.1.run? y z = some (g y (z.toNat % 64)) := by
  have hlt : ∀ z : Word, (z &&& 63).toNat < 64 := fun z ↦ by
    rw [toNat_and_63]
    exact Nat.mod_lt _ (by decide)
  simp only [shiftMnemonics, List.forall_mem_cons]
  refine ⟨⟨by decide, by decide, _, _, rfl, fun y z ↦ ?_⟩,
    ⟨by decide, by decide, _, _, rfl, fun y z ↦ ?_⟩,
    ⟨by decide, by decide, _, _, rfl, fun y z ↦ ?_⟩, fun _ h ↦ absurd h List.not_mem_nil⟩
  all_goals
    rw [← toNat_and_63]
    exact if_pos (hlt z)

/-- The shift of a copy, once the amount can be read. -/
theorem puts_shift_of_read {op : Ir.BinaryOp} {mnemonic : String}
    (hop : (op, mnemonic) ∈ shiftMnemonics) (hfits : fits false o = true)
    (ho : (s.setReg (.virt v) (s.regs (.virt u))).read 1 o = some (lowBytes 1 x))
    (hw : op.run? (s.regs (.virt u)) x = some w) :
    Puts c [moveTo v (.vreg u), .update mnemonic [o, .vreg v]] s v w := by
  obtain ⟨hcall, hpush, g, carry, hform, hg⟩ := exists_form_of_shift _ hop
  obtain ⟨f, hstep⟩ := perform_shift v g carry hfits ho
  have hamount : (lowBytes 1 x).toNat % 64 = x.toNat % 64 := by
    rw [lowBytes, BitVec.toNat_setWidth, BitVec.toNat_setWidth]
    omega
  refine .after (step_moveTo rfl (read_vreg s u)) (.setVirt _ _ rfl) (.of_step (f := f) ?_)
  rw [step_of_form mnemonic [o, .vreg v] rfl rfl hcall hpush hform, hstep, regs_setReg_self, hamount,
    ← Option.some.inj ((hg _ _).symm.trans hw)]

theorem puts_shift {op : Ir.BinaryOp} {mnemonic : String} {k : Word}
    (hop : (op, mnemonic) ∈ shiftMnemonics) (hw : op.run? (s.regs (.virt u)) k = some w) :
    Puts c [moveTo v (.vreg u), .update mnemonic [.imm (k &&& 63), .vreg v]] s v w := by
  have hidem : k &&& 63 &&& 63 = k &&& 63 := by rw [BitVec.and_assoc, BitVec.and_self]
  have hsmall : fitsImm32 (k &&& 63) = true := by
    have hlt : (k &&& 63).toNat < 64 := by
      rw [toNat_and_63]
      exact Nat.mod_lt _ (by decide)
    have hint : (k &&& 63).toInt = (k &&& 63).toNat := BitVec.toInt_eq_toNat_of_lt (by omega)
    have hpow : ((Nat.pow 2 31 : Nat) : Int) = 2147483648 := rfl
    rw [fitsImm32, fitsSigned_succ_iff, hint, hpow]
    generalize (k &&& 63).toNat = m at hlt
    constructor <;> omega
  have hshift : op.isShift = true := by
    simp only [shiftMnemonics, List.mem_cons, Prod.mk.injEq, List.not_mem_nil, or_false] at hop
    rcases hop with ⟨rfl, -⟩ | ⟨rfl, -⟩ | ⟨rfl, -⟩ <;> rfl
  refine puts_shift_of_read hop (x := k &&& 63) (by rw [fits, hsmall]; rfl) rfl ?_
  rw [Ir.BinaryOp.run?, if_pos hshift, hidem]
  rwa [Ir.BinaryOp.run?, if_pos hshift] at hw

theorem puts_shiftByReg {op : Ir.BinaryOp} {mnemonic : String} {k : VReg}
    (hop : (op, mnemonic) ∈ shiftMnemonics) (hw : op.run? (s.regs (.virt u)) (s.regs (.virt k)) = some w) :
    Puts c [.define "movq" [.vreg k, .phys .rcx], moveTo v (.vreg u),
      .update mnemonic [.reg (.phys .rcx) 1, .vreg v]] s v w := by
  have hmove : s.step c (.define "movq" [.vreg k, .phys .rcx])
      = some (s.setReg (.phys .rcx) (s.regs (.virt k))) := by
    rw [step_move (by decide : 8 ∈ [1, 2, 4, 8]) rfl rfl, perform_move rfl, read_vreg,
      Option.bind_some, Operand.phys, write, if_pos rfl, mergeBytes_eight]
  refine .after hmove (.setPhys _ _ (by decide) (by decide))
    (puts_shift_of_read hop (x := s.regs (.virt k)) rfl ?_ ?_)
  · rw [Core.read, if_pos rfl, regs_setReg_of_ne Reg.noConfusion, regs_setReg_self]
  · rw [regs_setReg_of_ne Reg.noConfusion]
    exact hw

/-- A division is defined exactly if it has a quotient that fits. -/
theorem run?_division {remainder : Bool}
    (h : (if remainder then Ir.BinaryOp.srem else .sdiv).run? x y = some w) :
    y ≠ 0 ∧ (x ≠ BitVec.intMin 64 ∨ y ≠ -1) ∧ w = if remainder then x.srem y else x.sdiv y := by
  have hdefined : ∀ q, (if y ≠ 0 ∧ (x ≠ BitVec.intMin 64 ∨ y ≠ -1) then some q else none) = some w →
      y ≠ 0 ∧ (x ≠ BitVec.intMin 64 ∨ y ≠ -1) ∧ w = q := by
    intro q hq
    split at hq
    next hdivides => exact ⟨hdivides.1, hdivides.2, (Option.some.inj hq).symm⟩
    next => exact absurd hq (by simp)
  cases remainder with
  | false => exact hdefined _ h
  | true => exact hdefined _ h

/-- A division in `rax` and `rdx`. -/
theorem puts_divide {remainder : Bool} {lhs rhs : VReg}
    (hw : (if remainder then Ir.BinaryOp.srem else .sdiv).run? (s.regs (.virt lhs))
      (s.regs (.virt rhs)) = some w) :
    Puts c [.define "movq" [.vreg lhs, .phys .rax], { mnemonic := "cqto", operands := [] },
      { mnemonic := "idivq", operands := [.vreg rhs] },
      moveTo v (.phys (if remainder then .rdx else .rax))] s v w := by
  obtain ⟨a, ha⟩ : ∃ a, a = s.regs (.virt lhs) := ⟨_, rfl⟩
  obtain ⟨b, hb⟩ : ∃ b, b = s.regs (.virt rhs) := ⟨_, rfl⟩
  rw [← ha, ← hb] at hw
  obtain ⟨hzero, hfits, hresult⟩ := run?_division hw
  -- the states in between
  obtain ⟨s₁, hs₁⟩ : ∃ s₁, s₁ = s.setReg (.phys .rax) a := ⟨_, rfl⟩
  obtain ⟨s₂, hs₂⟩ : ∃ s₂, s₂ = (s₁.setReg (.phys .rdx) (signWord a)).setFlags s₁.flags := ⟨_, rfl⟩
  obtain ⟨s₃, hs₃⟩ : ∃ s₃, s₃ = (s₂.setRegs [(.rax, a.sdiv b), (.rdx, a.srem b)]).setFlags s₂.flags :=
    ⟨_, rfl⟩
  have hmove : s.step c (.define "movq" [.vreg lhs, .phys .rax]) = some s₁ := by
    rw [step_move (by decide : 8 ∈ [1, 2, 4, 8]) rfl rfl, perform_move rfl, read_vreg,
      Option.bind_some, Operand.phys, write, if_pos rfl, mergeBytes_eight, hs₁, ha]
  have hspread : s₁.step c { mnemonic := "cqto", operands := [] } = some s₂ := by
    have hform : formOf "cqto" 0 = some .spreadSign := rfl
    have hencodable : isEncodable .spreadSign [] = true := rfl
    have hrax : s₁.regs (.phys .rax) = a := by rw [hs₁, regs_setReg_self]
    rw [step_of_form "cqto" [] rfl rfl (by decide) (by decide) hform, perform,
      if_pos hencodable, hs₂]
    simp only [gather, Form.spreadSign, List.map_cons, List.map_nil, Option.bind_eq_bind,
      Option.bind_some, finish, hrax]
    rfl
  have hdivide : s₂.step c { mnemonic := "idivq", operands := [.vreg rhs] } = some s₃ := by
    have hform : formOf "idivq" 1 = some .divide := rfl
    have hencodable : isEncodable .divide [.vreg rhs] = true := rfl
    have hrax : s₂.regs (.phys .rax) = a := by
      rw [hs₂, regs_setFlags, regs_setReg_of_ne (by decide), hs₁, regs_setReg_self]
    have hrdx : s₂.regs (.phys .rdx) = signWord a := by rw [hs₂, regs_setFlags, regs_setReg_self]
    have hrhs : s₂.regs (.virt rhs) = b := by
      rw [hs₂, regs_setFlags, regs_setReg_of_ne Reg.noConfusion, hs₁,
        regs_setReg_of_ne Reg.noConfusion, hb]
    have hact := act_divide (f := s₂.flags) hzero hfits
    have hgather : s₂.gather Form.divide.uses [.vreg rhs] = some [b] := by
      simp only [Form.divide, gather, use, read_vreg, hrhs, Option.bind_eq_bind, Option.bind_some,
        Option.pure_def]
    have hinputs : (Form.divide.inputs.map fun r ↦ s₂.regs (.phys r)) = [a, signWord a] := by
      simp only [Form.divide, List.map_cons, List.map_nil, hrax, hrdx]
    rw [step_of_form "idivq" [.vreg rhs] rfl rfl (by decide) (by decide) hform, perform,
      if_pos hencodable, hgather, hinputs, Option.bind_eq_bind, Option.bind_some, hact, Option.bind_eq_bind,
      Option.bind_some, finish_of_none rfl, hs₃]
    rfl
  have hout : s₃.regs (.phys (if remainder then .rdx else .rax)) = w := by
    rw [hs₃, hresult]
    cases remainder <;> rfl
  have hspares₁ : Spares (· = v) s s₁ := hs₁ ▸ .setPhys s a (by decide) (by decide)
  have hspares₂ : Spares (· = v) s₁ s₂ :=
    hs₂ ▸ (Spares.setPhys s₁ (signWord a) (by decide) (by decide)).trans (.setFlags _ _)
  have hspares₃ : Spares (· = v) s₂ s₃ :=
    hs₃ ▸ ((Spares.setPhys s₂ (a.sdiv b) (by decide : PhysReg.rax ≠ .rbp) (by decide)).trans
      (.setPhys _ (a.srem b) (by decide : PhysReg.rdx ≠ .rbp) (by decide))).trans (.setFlags _ _)
  refine .after hmove hspares₁ (.after hspread hspares₂ (.after hdivide hspares₃ ?_))
  exact puts_moveTo rfl (read_phys.trans (congrArg some hout))

/-! ## Conditions -/

theorem lowBytes_one_truth (b : Bool) : lowBytes 1 (Ir.truth b) = Ir.truth b := by
  cases b <;> decide

/-- A condition becomes a word. -/
theorem puts_setCond (p : Ir.Predicate) :
    Puts c [.define (setMnemonic p) [.reg (.virt v) 1],
      .intoReg (.define "movzbq" [.reg (.virt v) 1, .vreg v])] s v (Ir.truth (s.flags.holds p)) := by
  have hform : formOf (setMnemonic p) 1 = some (.set p) := by cases p <;> rfl
  have hencodable : isEncodable (.set p) [.reg (.virt v) 1] = true := rfl
  have hname : setMnemonic p ≠ "call" ∧ setMnemonic p ≠ "pushq" := by cases p <;> decide
  have hset : s.step c (.define (setMnemonic p) [.reg (.virt v) 1]) =
      some ((s.setFlags s.flags).setReg (.virt v)
        (mergeBytes 1 (s.regs (.virt v)) (Ir.truth (s.flags.holds p)))) := by
    rw [step_of_form (setMnemonic p) [.reg (.virt v) 1] rfl rfl hname.1 hname.2 hform, perform, if_pos hencodable]
    rfl
  have hbyte : ∀ t : Core, t.regs (.virt v) =
      mergeBytes 1 (s.regs (.virt v)) (Ir.truth (s.flags.holds p)) →
      t.read 1 (.reg (.virt v) 1) = some (Ir.truth (s.flags.holds p)) := by
    intro t ht
    rw [Core.read, if_pos rfl, ht, lowBytes_mergeBytes, lowBytes_one_truth]
  refine .after hset ((Spares.setFlags s s.flags).trans (.setVirt _ _ rfl)) (.of_step_same ?_)
  have hextend : formOf "movzbq" 2 = some (.extend 1 id) := rfl
  rw [step_of_form "movzbq" [.reg (.virt v) 1, .vreg v] rfl rfl (by decide) (by decide) hextend,
    perform_extend rfl (hbyte _ regs_setReg_self), id]

theorem step_compare (hfits : fits false o = true) (ho : s.read 8 o = some x) :
    s.step c { mnemonic := "cmpq", operands := [o, .vreg u] } =
      some (s.setFlags (.ofSub (s.regs (.virt u)) x)) := by
  have hform : formOf "cmpq" 2 = some (.compare .ofSub) := rfl
  rw [step_of_form "cmpq" [o, .vreg u] rfl rfl (by decide) (by decide) hform, perform,
    if_pos (encodable_to_vreg hfits)]
  simp only [gather, use, ho, read_vreg, Form.compare, Option.bind_eq_bind, Option.bind_some,
    Option.pure_def]
  rfl

theorem step_test (c : Callee) (s : Core) (u : VReg) :
    s.step c { mnemonic := "testq", operands := [.vreg u, .vreg u] } =
      some (s.setFlags (.ofResult (s.regs (.virt u) &&& s.regs (.virt u)) false false)) := by
  have hform : formOf "testq" 2 = some (.compare fun y x ↦ .ofResult (y &&& x) false false) := rfl
  rw [step_of_form "testq" [.vreg u, .vreg u] rfl rfl (by decide) (by decide) hform, perform,
    if_pos (encodable_to_vreg rfl)]
  simp only [gather, use, read_vreg, Form.compare, Option.bind_eq_bind, Option.bind_some,
    Option.pure_def]
  rfl

/-! ## Loads and casts -/

theorem read_part (s : Core) (n : Nat) (m : Mem) :
    s.read n (.mem m) = some (lowBytes n (s.mem.word (s.address m))) := by
  rw [Core.read, Memory.ofNat_load]

/-- A move that extends some bytes of an operand. -/
theorem step_extend (name : String) {g : Word → Word} {i : Inst} (hname : i.mnemonic = name)
    (hops : i.operands = [o, .vreg v]) (hcall : name ≠ "call") (hpush : name ≠ "pushq")
    (hform : formOf name 2 = some (.extend n g)) (hfits : fits false o = true)
    (ho : s.read n o = some x) : s.step c i = some (s.setReg (.virt v) (g x)) := by
  rw [step_of_form name [o, .vreg v] hname hops hcall hpush hform, perform_extend hfits ho]

theorem setWidth_lowBytes (n : Nat) (x : Word) : (lowBytes n x).setWidth (8 * n) = x.setWidth (8 * n) := by
  ext k hk
  rw [← BitVec.getLsbD_eq_getElem, ← BitVec.getLsbD_eq_getElem, BitVec.getLsbD_setWidth,
    getLsbD_lowBytes, BitVec.getLsbD_setWidth]
  simp [hk]

/-- The move that loads a value of some bits. -/
theorem puts_load {i : Inst} {bits : Nat} (hname : i.mnemonic = loadMnemonic bits)
    (hops : i.operands = [.mem m, .vreg v]) :
    Puts c [i] s v (Ir.Arithmetic.machine.load bits (s.mem.word (s.address m))) := by
  obtain ⟨x, hx⟩ : ∃ x, x = s.mem.word (s.address m) := ⟨_, rfl⟩
  have hzero : formOf "movzbq" 2 = some (.extend 1 id) := rfl
  have hbyte : formOf "movsbq" 2 = some (.extend 1 fun x ↦ (x.setWidth 8).signExtend 64) := rfl
  have hpair : formOf "movswq" 2 = some (.extend 2 fun x ↦ (x.setWidth 16).signExtend 64) := rfl
  have hhalf : formOf "movslq" 2 = some (.extend 4 fun x ↦ (x.setWidth 32).signExtend 64) := rfl
  have hread : ∀ n, s.read n (.mem m) = some (lowBytes n x) := fun n ↦ hx ▸ read_part s n m
  rw [← hx]
  refine .of_step_same ?_
  unfold loadMnemonic at hname
  split at hname
  case h_1 =>
    rw [step_extend "movzbq" hname hops (by decide) (by decide) hzero rfl (hread 1)]
    rfl
  case h_2 =>
    rw [step_extend "movsbq" hname hops (by decide) (by decide) hbyte rfl (hread 1),
      setWidth_lowBytes 1]
    rfl
  case h_3 =>
    rw [step_extend "movswq" hname hops (by decide) (by decide) hpair rfl (hread 2),
      setWidth_lowBytes 2]
    rfl
  case h_4 =>
    rw [step_extend "movslq" hname hops (by decide) (by decide) hhalf rfl (hread 4),
      setWidth_lowBytes 4]
    rfl
  case h_5 hone hbyte hpair hhalf =>
    rw [step_move (by decide : 8 ∈ [1, 2, 4, 8]) hname hops, perform_move (encodable_to_vreg rfl),
      hread, Option.bind_some, write_vreg, lowBytes_eight]
    simp [Ir.Arithmetic.machine]

/-! ## Casts -/

/-- The widths of values, and that of nothing. -/
def widths : List Nat := [0, 1, 8, 16, 32, 64]

theorem extendLow_one (signed : Bool) (x : Word) :
    Ir.extendLow signed 1 x = if signed then -(x &&& 1) else x &&& 1 := by
  have hbit : x &&& 1 = 0 ∨ x &&& 1 = 1 := by
    have : (x &&& 1).toNat = x.toNat % 2 := by
      rw [BitVec.toNat_and]
      exact Nat.and_two_pow_sub_one_eq_mod x.toNat 1
    have hor := Nat.mod_two_eq_zero_or_one x.toNat
    rw [← this] at hor
    exact hor.imp (fun h ↦ BitVec.eq_of_toNat_eq h) (fun h ↦ BitVec.eq_of_toNat_eq h)
  have hlow : x.setWidth 1 = (x &&& 1).setWidth 1 := by
    rw [BitVec.setWidth_and]
    exact (BitVec.and_allOnes).symm
  rw [Ir.extendLow, hlow]
  rcases hbit with h | h <;> rw [h] <;> cases signed <;> decide

/-- A single bit is masked out, and negated if it is a sign. -/
theorem puts_extend_one (signed : Bool) :
    Puts c (extendInsts signed 1 u v) s v (Ir.extendLow signed 1 (s.regs (.virt u))) := by
  have hand : formOf "andq" 2 = some (.logic (· &&& ·)) := rfl
  have hneg : formOf "negq" 1 = some .negate := rfl
  have hencodable : isEncodable .negate [.vreg v] = true := rfl
  obtain ⟨x, hx⟩ : ∃ x, x = s.regs (.virt u) := ⟨_, rfl⟩
  obtain ⟨s₁, hs₁⟩ : ∃ s₁, s₁ = s.setReg (.virt v) x := ⟨_, rfl⟩
  have hmove : s.step c (moveTo v (.vreg u)) = some s₁ := by
    rw [step_moveTo rfl (read_vreg s u), hs₁, hx]
  have hspares : Spares (· = v) s s₁ := hs₁ ▸ .setVirt _ _ rfl
  obtain ⟨f, hmask⟩ : ∃ f, s₁.step c (.update "andq" [.imm 1, .vreg v])
      = some ((s₁.setFlags f).setReg (.virt v) (x &&& 1)) := by
    refine ⟨Flags.ofResult (x &&& 1) false false, ?_⟩
    rw [step_of_form "andq" [.imm 1, .vreg v] rfl rfl (by decide) (by decide) hand, Form.logic,
      perform_binary (by decide) (read_imm s₁ 1), hs₁, regs_setReg_self]
  rw [extendLow_one, ← hx, extendInsts, if_pos rfl]
  cases signed with
  | false => exact .after hmove hspares (.of_step hmask)
  | true =>
    refine .after hmove hspares (.after hmask ((Spares.setFlags s₁ f).trans (.setVirt _ _ rfl))
      (.of_step (f := Flags.ofSub 0 (x &&& 1)) ?_))
    rw [step_of_form "negq" [.vreg v] rfl rfl (by decide) (by decide) hneg, perform,
      if_pos hencodable]
    simp only [gather, use, read_vreg, regs_setReg_self, Form.negate, Option.bind_eq_bind,
      Option.bind_some, Option.pure_def]
    rw [finish_of_last rfl rfl rfl]
    exact write_vreg _ _ _

/-- The instructions of an extension. -/
theorem puts_extend (signed : Bool) {bits : Nat} (hbits : bits ∈ widths) (hlt : bits < 64) :
    Puts c (extendInsts signed bits u v) s v
      (Ir.extendLow signed (Ir.castBits bits) (s.regs (.virt u))) := by
  obtain ⟨x, hx⟩ : ∃ x, x = s.regs (.virt u) := ⟨_, rfl⟩
  have hread : ∀ n, s.read n (.reg (.virt u) n) = some (lowBytes n x) := fun n ↦ by
    rw [Core.read, if_pos rfl, hx]
  have hbyte : formOf "movsbq" 2 = some (.extend 1 fun x ↦ (x.setWidth 8).signExtend 64) := rfl
  have hpair : formOf "movswq" 2 = some (.extend 2 fun x ↦ (x.setWidth 16).signExtend 64) := rfl
  have hhalf : formOf "movslq" 2 = some (.extend 4 fun x ↦ (x.setWidth 32).signExtend 64) := rfl
  have hzero : formOf "movzbq" 2 = some (.extend 1 id) := rfl
  have hzeroPair : formOf "movzwq" 2 = some (.extend 2 id) := rfl
  have hsignByte : s.step c (Inst.intoReg (.define "movsbq" [.reg (.virt u) 1, .vreg v]))
      = some (s.setReg (.virt v) (Ir.extendLow true 8 x)) := by
    rw [step_extend "movsbq" rfl rfl (by decide) (by decide) hbyte rfl (hread 1), setWidth_lowBytes 1]
    rfl
  have hzeroByte : s.step c (Inst.intoReg (.define "movzbq" [.reg (.virt u) 1, .vreg v]))
      = some (s.setReg (.virt v) (Ir.extendLow false 8 x)) := by
    rw [step_extend "movzbq" rfl rfl (by decide) (by decide) hzero rfl (hread 1)]
    rfl
  rw [← hx]
  simp only [widths, List.mem_cons, List.not_mem_nil, or_false] at hbits
  rcases hbits with rfl | rfl | rfl | rfl | rfl | rfl
  · cases signed with
    | true => exact .of_step_same hsignByte
    | false => exact .of_step_same hzeroByte
  · exact hx ▸ puts_extend_one signed
  · cases signed with
    | true => exact .of_step_same hsignByte
    | false => exact .of_step_same hzeroByte
  · cases signed with
    | true =>
      refine .of_step_same (i := .intoReg (.define "movswq" [.reg (.virt u) 2, .vreg v])) ?_
      rw [step_extend "movswq" rfl rfl (by decide) (by decide) hpair rfl (hread 2),
        setWidth_lowBytes 2]
      rfl
    | false =>
      refine .of_step_same (i := .intoReg (.define "movzwq" [.reg (.virt u) 2, .vreg v])) ?_
      rw [step_extend "movzwq" rfl rfl (by decide) (by decide) hzeroPair rfl (hread 2)]
      rfl
  · cases signed with
    | true =>
      refine .of_step_same (i := .intoReg (.define "movslq" [.reg (.virt u) 4, .vreg v])) ?_
      rw [step_extend "movslq" rfl rfl (by decide) (by decide) hhalf rfl (hread 4),
        setWidth_lowBytes 4]
      rfl
    | false =>
      refine .of_step_same
        (i := .intoReg (.define "movl" [.reg (.virt u) 4, .reg (.virt v) 4])) ?_
      rw [step_move (by decide : 4 ∈ [1, 2, 4, 8]) rfl rfl, perform_move rfl, hread,
        Option.bind_some, write, if_pos rfl, mergeBytes, if_pos rfl, lowBytes_lowBytes]
      rfl
  · exact absurd hlt (Nat.lt_irrefl 64)

end Core

end TreeCover.Machine
