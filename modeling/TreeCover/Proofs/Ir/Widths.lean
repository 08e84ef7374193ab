import TreeCover.Proofs.Forest.Reading
import TreeCover.Proofs.Ir.Evaluation
import TreeCover.Proofs.Ir.Numbering

/-!
# Widths of values

The reader takes the types at uses for what they are and compares them with nothing. In code whose types
agree with one another the exact arithmetic of the language can be compared with that of a machine, which
looks at whole words. If all values are words or the results of comparisons, the two are the same, but for
signed comparisons of such results. In general they agree on the low bits of every value, as long as
operators that look at more than the low bits find words there that extend them.

Main statements: `Func.evalInsts_machine`, for code for words, and `Func.evalInsts_low`, for low bits.
-/

namespace TreeCover.Ir

open Machine

variable {f : Func} {σ : World} {st st' now now' m : BlockState} {x : InstId × ResolvedInst}
  {i : ResolvedInst} {o : Operand Value} {b : BlockId} {n : Nat} {v w : Word}

/-! ## Extended words -/

/-- A word is the extension of its low bits. -/
def IsExtended (signed : Bool) (bits : Nat) (w : Word) : Prop := extendLow signed bits w = w

instance (signed : Bool) (bits : Nat) (w : Word) : Decidable (IsExtended signed bits w) :=
  inferInstanceAs (Decidable (_ = _))

theorem isExtended_word (signed : Bool) (w : Word) : IsExtended signed 64 w := by
  cases signed <;> simp [IsExtended, extendLow]

theorem IsExtended.toNat (h : IsExtended false n w) (hn : n ≤ 64) : w.toNat = (w.setWidth n).toNat := by
  conv_lhs => rw [← h, extendLow, if_neg Bool.false_ne_true, BitVec.toNat_setWidth_of_le hn]

theorem IsExtended.toInt (h : IsExtended true n w) (hn : n ≤ 64) : w.toInt = (w.setWidth n).toInt := by
  conv_lhs => rw [← h, extendLow, if_pos rfl, BitVec.toInt_signExtend_of_le hn]

/-- The low bits of a number. -/
theorem toInt_setWidth_of_le (hn : n ≤ 64) : (w.setWidth n).toInt = w.toInt.bmod (2 ^ n) := by
  rw [← BitVec.signExtend_eq_setWidth_of_le w hn, BitVec.toInt_signExtend, Nat.min_eq_left hn]

theorem setWidth_sub (hn : n ≤ 64) : (v - w).setWidth n = v.setWidth n - w.setWidth n := by
  apply BitVec.eq_of_toInt_eq
  rw [toInt_setWidth_of_le hn, BitVec.toInt_sub, BitVec.toInt_sub, toInt_setWidth_of_le hn,
    toInt_setWidth_of_le hn, Int.bmod_bmod_of_dvd (Nat.pow_dvd_pow 2 hn), Int.bmod_sub_bmod,
    Int.sub_bmod_bmod]

theorem setWidth_ofInt (hn : n ≤ 64) (z : Int) : (BitVec.ofInt 64 z).setWidth n = BitVec.ofInt n z := by
  apply BitVec.eq_of_toInt_eq
  rw [toInt_setWidth_of_le hn, BitVec.toInt_ofInt, BitVec.toInt_ofInt,
    Int.bmod_bmod_of_dvd (Nat.pow_dvd_pow 2 hn)]

theorem setWidth_shiftLeft (hn : n ≤ 64) (k : Nat) : (w <<< k).setWidth n = w.setWidth n <<< k := by
  apply BitVec.eq_of_getLsbD_eq
  intro j hj
  simp only [BitVec.getLsbD_setWidth, BitVec.getLsbD_shiftLeft]
  grind

theorem setWidth_signExtend {m : Nat} (u : BitVec m) (hn : n ≤ 64) :
    (u.signExtend 64).setWidth n = u.signExtend n := by
  apply BitVec.eq_of_getLsbD_eq
  intro j hj
  simp only [BitVec.getLsbD_setWidth, BitVec.getLsbD_signExtend]
  grind

/-! ## Operators on extended words -/

/-- The words that an operator is given are what it takes them for, where it looks at more than the low
bits: a shift looks at six bits of its amount. -/
def BinaryOp.Finds (op : BinaryOp) (n : Nat) (v w : Word) : Prop :=
  let amount := 6 ≤ n ∨ IsExtended false n w
  match op with
  | sdiv | srem => IsExtended true n v ∧ IsExtended true n w
  | shl => amount
  | lshr => IsExtended false n v ∧ amount
  | ashr => IsExtended true n v ∧ amount
  | _ => True

theorem toNat_amount (hfinds : 6 ≤ n ∨ IsExtended false n w) (hn : n ≤ 64)
    (hlt : (w.setWidth n).toNat < n) : (w &&& 63).toNat = (w.setWidth n).toNat := by
  have hmask : (w &&& 63).toNat = w.toNat % 64 := by
    rw [BitVec.toNat_and, show (63 : Word).toNat = 2 ^ 6 - 1 from rfl, Nat.and_two_pow_sub_one_eq_mod]
  rw [hmask]
  rcases hfinds with hsix | hext
  · rw [BitVec.toNat_setWidth] at hlt ⊢
    have hdvd : 64 ∣ 2 ^ n := Nat.pow_dvd_pow 2 hsix
    rw [← Nat.mod_mod_of_dvd _ hdvd, Nat.mod_eq_of_lt (Nat.lt_of_lt_of_le hlt hn)]
  · rw [hext.toNat hn, Nat.mod_eq_of_lt (Nat.lt_of_lt_of_le hlt hn)]

theorem setWidth_sdiv (hn : n ≤ 64) (hv : IsExtended true n v) (hw : IsExtended true n w) :
    (v.sdiv w).setWidth n = (v.setWidth n).sdiv (w.setWidth n) := by
  apply BitVec.eq_of_toInt_eq
  rw [toInt_setWidth_of_le hn, BitVec.toInt_sdiv, BitVec.toInt_sdiv, hv.toInt hn, hw.toInt hn,
    Int.bmod_bmod_of_dvd (Nat.pow_dvd_pow 2 hn)]

theorem setWidth_srem (hn : n ≤ 64) (hv : IsExtended true n v) (hw : IsExtended true n w) :
    (v.srem w).setWidth n = (v.setWidth n).srem (w.setWidth n) := by
  apply BitVec.eq_of_toInt_eq
  rw [toInt_setWidth_of_le hn, BitVec.toInt_srem, hv.toInt hn, hw.toInt hn, ← BitVec.toInt_srem,
    BitVec.toInt_bmod_cancel]

/-- A division that is defined on the low bits is defined on the words. -/
theorem divides_of_setWidth (hn : n ≤ 64) (hv : IsExtended true n v) (hw : IsExtended true n w)
    (h : w.setWidth n ≠ 0 ∧ (v.setWidth n ≠ BitVec.intMin n ∨ w.setWidth n ≠ -1)) :
    w ≠ 0 ∧ (v ≠ BitVec.intMin 64 ∨ w ≠ -1) := by
  obtain ⟨hzero, hfits⟩ := h
  refine ⟨?_, ?_⟩
  · rintro rfl
    exact hzero (by simp)
  · by_contra hnot
    obtain ⟨rfl, rfl⟩ : v = BitVec.intMin 64 ∧ w = -1 := by simpa [not_or] using hnot
    -- only a word has so small a number
    have hlow : -(2 : Int) ^ 64 ≥ -2 ^ n := by
      have hle := BitVec.le_two_mul_toInt (x := (BitVec.intMin 64).setWidth n)
      rw [← hv.toInt hn] at hle
      exact hle
    have hword : n = 64 := by
      have hpow : (2 : Int) ^ 64 ≤ 2 ^ n := by omega
      have hpow' : 2 ^ 64 ≤ 2 ^ n := by exact_mod_cast hpow
      exact Nat.le_antisymm hn ((Nat.pow_le_pow_iff_right (by decide)).mp hpow')
    subst hword
    exact hfits.elim (fun h ↦ h (BitVec.setWidth_eq _)) fun h ↦ h (BitVec.setWidth_eq _)

theorem setWidth_ushiftRight (hn : n ≤ 64) (hv : IsExtended false n v) (k : Nat) :
    (v >>> k).setWidth n = v.setWidth n >>> k := by
  apply BitVec.eq_of_toNat_eq
  rw [BitVec.toNat_setWidth, BitVec.toNat_ushiftRight, BitVec.toNat_ushiftRight, hv.toNat hn]
  exact Nat.mod_eq_of_lt (Nat.lt_of_le_of_lt (Nat.shiftRight_le _ _) (BitVec.isLt _))

theorem setWidth_sshiftRight (hn : n ≤ 64) (hv : IsExtended true n v) (k : Nat) :
    (v.sshiftRight k).setWidth n = (v.setWidth n).sshiftRight k := by
  apply BitVec.eq_of_toInt_eq
  rw [toInt_setWidth_of_le hn, BitVec.toInt_sshiftRight, hv.toInt hn, ← BitVec.toInt_sshiftRight,
    BitVec.toInt_bmod_cancel]

/-- An operator on words computes the low bits that it computes from low bits, if it finds what it looks
for. -/
theorem BinaryOp.run?_of_eval? {op : BinaryOp} {z : BitVec n} (hn : n ≤ 64) (hfinds : op.Finds n v w)
    (h : op.eval? (v.setWidth n) (w.setWidth n) = some z) : ∃ u, op.run? v w = some u ∧ u.setWidth n = z := by
  have hshift : ∀ {y : BitVec n}, (6 ≤ n ∨ IsExtended false n w) →
      (if (w.setWidth n).toNat < n then some y else none) = some z →
        (w &&& 63).toNat = (w.setWidth n).toNat ∧ (w &&& 63).toNat < 64 ∧ y = z := by
    intro y hamount hy
    obtain ⟨hlt, hz⟩ := Option.ite_none_right_eq_some.mp hy
    have heq := toNat_amount hamount hn hlt
    exact ⟨heq, heq ▸ Nat.lt_of_lt_of_le hlt hn, Option.some.inj hz⟩
  cases op with
  | add => exact ⟨_, rfl, (BitVec.setWidth_add _ _ hn).trans (Option.some.inj h)⟩
  | sub => exact ⟨_, rfl, (setWidth_sub hn).trans (Option.some.inj h)⟩
  | mul => exact ⟨_, rfl, (BitVec.setWidth_mul _ _ hn).trans (Option.some.inj h)⟩
  | and => exact ⟨_, rfl, BitVec.setWidth_and.trans (Option.some.inj h)⟩
  | or => exact ⟨_, rfl, BitVec.setWidth_or.trans (Option.some.inj h)⟩
  | xor => exact ⟨_, rfl, BitVec.setWidth_xor.trans (Option.some.inj h)⟩
  | sdiv =>
    obtain ⟨hdivides, hz⟩ := Option.ite_none_right_eq_some.mp h
    exact ⟨_, if_pos (divides_of_setWidth hn hfinds.1 hfinds.2 hdivides),
      (setWidth_sdiv hn hfinds.1 hfinds.2).trans (Option.some.inj hz)⟩
  | srem =>
    obtain ⟨hdivides, hz⟩ := Option.ite_none_right_eq_some.mp h
    exact ⟨_, if_pos (divides_of_setWidth hn hfinds.1 hfinds.2 hdivides),
      (setWidth_srem hn hfinds.1 hfinds.2).trans (Option.some.inj hz)⟩
  | shl =>
    obtain ⟨heq, hlt, hz⟩ := hshift hfinds h
    exact ⟨_, if_pos hlt, (setWidth_shiftLeft hn _).trans (heq ▸ hz)⟩
  | lshr =>
    obtain ⟨heq, hlt, hz⟩ := hshift hfinds.2 h
    exact ⟨_, if_pos hlt, (setWidth_ushiftRight hn hfinds.1 _).trans (heq ▸ hz)⟩
  | ashr =>
    obtain ⟨heq, hlt, hz⟩ := hshift hfinds.2 h
    exact ⟨_, if_pos hlt, (setWidth_sshiftRight hn hfinds.1 _).trans (heq ▸ hz)⟩
  | fadd | fsub | fmul => exact absurd h (by simp [eval?])

/-- Whether a comparison takes values as signed. -/
def Predicate.isSigned : Predicate → Bool
  | slt | sle | sgt | sge => true
  | _ => false

/-- A comparison is given words that extend its values in one way, that of signed values if it takes them
so. -/
def Predicate.Finds (p : Predicate) (n : Nat) (v w : Word) : Prop :=
  ∃ signed, (p.isSigned = true → signed = true) ∧ IsExtended signed n v ∧ IsExtended signed n w

theorem IsExtended.toNat_lt_iff {signed : Bool} (hn : n ≤ 64) (hv : IsExtended signed n v)
    (hw : IsExtended signed n w) : v.toNat < w.toNat ↔ (v.setWidth n).toNat < (w.setWidth n).toNat := by
  cases signed with
  | false => rw [hv.toNat hn, hw.toNat hn]
  | true =>
    have hvalue : ∀ {u : Word}, IsExtended true n u → u.toNat = (u.setWidth n).toNat +
        if 2 * (u.setWidth n).toNat ≥ 2 ^ n then 2 ^ 64 - 2 ^ n else 0 := by
      intro u hu
      conv_lhs => rw [← hu, extendLow, if_pos rfl, BitVec.toNat_signExtend, BitVec.toNat_setWidth_of_le hn]
      simp only [BitVec.msb_eq_true_iff_two_mul_ge]
    have hpow : 2 ^ n ≤ 2 ^ 64 := Nat.pow_le_pow_right (by decide) hn
    rw [hvalue hv, hvalue hw]
    have hv' := (v.setWidth n).isLt
    have hw' := (w.setWidth n).isLt
    split <;> split <;> omega

theorem IsExtended.eq_iff {signed : Bool} (hv : IsExtended signed n v) (hw : IsExtended signed n w) :
    v = w ↔ v.setWidth n = w.setWidth n := by
  refine ⟨fun h ↦ h ▸ rfl, fun h ↦ ?_⟩
  rw [← hv, ← hw, extendLow, extendLow, h]

/-- A comparison of words is that of their low bits, if it finds what it looks for. -/
theorem Predicate.eval_setWidth {p : Predicate} (hn : n ≤ 64) (hfinds : p.Finds n v w) :
    p.eval (v.setWidth n) (w.setWidth n) = p.eval v w := by
  obtain ⟨signed, hsigned, hv, hw⟩ := hfinds
  have hlt := hv.toNat_lt_iff hn hw
  have hgt := hw.toNat_lt_iff hn hv
  have heq := hv.eq_iff hw
  have hint : p.isSigned = true → (v.setWidth n).toInt = v.toInt ∧ (w.setWidth n).toInt = w.toInt := by
    intro h
    rw [hsigned h] at hv hw
    exact ⟨(hv.toInt hn).symm, (hw.toInt hn).symm⟩
  cases p with
  | eq | ne => simp only [eval, beq_eq_decide, bne, heq]
  | ult | ugt | ule | uge =>
    simp only [eval, BitVec.ult, BitVec.ule, decide_eq_decide]
    omega
  | slt | sle | sgt | sge =>
    obtain ⟨hv', hw'⟩ := hint rfl
    simp only [eval, BitVec.slt, BitVec.sle, hv', hw']

/-! ## Arithmetic on low bits -/

/-- Two words with the same low bits. -/
def SameLow (n : Nat) (v w : Word) : Prop := v.setWidth n = w.setWidth n

theorem SameLow.eq (h : SameLow 64 v w) : v = w := by simpa [SameLow] using h

theorem finds_word (op : BinaryOp) : op.Finds 64 v w := by
  cases op <;> simp [BinaryOp.Finds, isExtended_word]

theorem le_of_mem_widths (hn : n ∈ [1, 8, 16, 32, 64]) : n ≤ 64 := by
  simp only [List.mem_cons, List.not_mem_nil, or_false] at hn
  omega

namespace Arithmetic

variable {v' w' z : Word} {p : Predicate}

theorem binary_low {op : BinaryOp} (hn : n ≤ 64) (hv : SameLow n v v') (hw : SameLow n w w')
    (hfinds : op.Finds n v' w') (h : exact.binary op n v w = some z) :
    ∃ z', machine.binary op n v' w' = some z' ∧ SameLow n z z' := by
  obtain ⟨y, hy, rfl⟩ := Option.map_eq_some_iff.mp h
  rw [hv, hw] at hy
  obtain ⟨z', hz', hlow⟩ := BinaryOp.run?_of_eval? hn hfinds hy
  refine ⟨z', hz', ?_⟩
  rw [SameLow, hlow, BitVec.setWidth_setWidth_of_le _ hn, BitVec.setWidth_eq]

theorem compare_low (hn : n ≤ 64) (hv : SameLow n v v') (hw : SameLow n w w') (hfinds : p.Finds n v' w') :
    exact.compare p n v w = machine.compare p n v' w' := by
  have h := Predicate.eval_setWidth hn hfinds
  rwa [← hv, ← hw] at h

theorem castBits_of_mem : ∀ n ∈ [1, 8, 16, 32, 64], castBits n = n := by decide

theorem cast_low (op : CastOp) {m : Nat} (hn : n ∈ [1, 8, 16, 32, 64]) (hm : m ≤ 64)
    (hle : if op = .trunc then m ≤ n else n ≤ m) (hv : SameLow n v v') :
    SameLow m (exact.cast op n m v) (machine.cast op n m v') := by
  have hn' : n ≤ 64 := le_of_mem_widths hn
  have hbits : ∀ signed, extendLow signed (castBits n) v' = extendLow signed n v' := fun _ ↦ by
    rw [castBits_of_mem n hn]
  have hback : ∀ u : BitVec m, (u.setWidth 64).setWidth m = u := fun u ↦ by
    rw [BitVec.setWidth_setWidth_of_le _ hm, BitVec.setWidth_eq]
  have hword : 64 ≤ n → n = 64 := fun h ↦ Nat.le_antisymm hn' h
  rw [SameLow] at hv ⊢
  cases op with
  | trunc =>
    simp only [exact, machine, hback]
    rw [hv, BitVec.setWidth_setWidth_of_le _ (by simpa using hle)]
  | zext =>
    simp only [exact, machine, hbits]
    simp only [hback, hv, extendLow, Bool.false_eq_true, if_false]
    split
    next h =>
      obtain rfl := hword h
      rw [BitVec.setWidth_eq]
    next => rw [BitVec.setWidth_setWidth_of_le _ hm]
  | sext =>
    simp only [exact, machine, hbits]
    simp only [hback, hv, extendLow, if_true]
    split
    next h =>
      obtain rfl := hword h
      rw [BitVec.signExtend_eq_setWidth_of_le _ hm, BitVec.setWidth_eq]
    next => rw [setWidth_signExtend _ hm]

theorem load_low (hn : n ∈ [1, 8, 16, 32, 64]) : SameLow n (exact.load n w) (machine.load n w) := by
  simp only [List.mem_cons, List.not_mem_nil, or_false] at hn
  rcases hn with rfl | rfl | rfl | rfl | rfl <;>
    simp [SameLow, exact, machine, extendLow, BitVec.setWidth_setWidth_of_le, setWidth_signExtend]

theorem literal_low (hn : n ≤ 64) (k : Int) : SameLow n (exact.literal k n) (machine.literal k n) := by
  simp only [SameLow, exact, machine]
  split
  · rw [setWidth_ofInt hn, BitVec.setWidth_setWidth_of_le _ hn, BitVec.setWidth_eq]
  · rfl

end Arithmetic

/-- The bytes of a value with whole bytes are its low bits. -/
theorem SameLow.lowBytes (hn : n ∈ [8, 16, 32, 64]) (h : SameLow n v w) :
    lowBytes (accessBytes n) v = lowBytes (accessBytes n) w := by
  have hbytes : ∀ n ∈ [8, 16, 32, 64], 8 * accessBytes n = n := by decide
  rw [Machine.lowBytes, Machine.lowBytes, hbytes n hn, h]

/-- The low bits of what a departure returns. -/
def Departure.low (n : Nat) : Departure → Departure
  | .goto b => .goto b
  | .ret value => .ret (value.map fun w ↦ (w.setWidth n).setWidth 64)

/-! ## Operands that are read -/

namespace Func

theorem mem_operands_of_incoming {op : Operation Value BlockId} (h : (o, b) ∈ op.incoming) :
    o ∈ op.operands := by
  cases op with
  | phi incoming =>
    exact List.mem_filterMap.mpr ⟨.operand o, List.mem_flatMap.mpr ⟨_, h, List.mem_cons_self⟩, rfl⟩
  | _ => exact absurd h List.not_mem_nil

/-- An operand that is read stands in some instruction. -/
theorem exists_inst_of_reads {id : InstId} (h : f.reads id ≠ 0) :
    ∃ i ∈ f.insts, ∃ o ∈ i.operation.operands, o.isResult id = true := by
  obtain ⟨o, ho, hresult⟩ := List.countP_pos_iff.mp (Nat.pos_of_ne_zero h)
  obtain ⟨b, -, hb⟩ := List.mem_flatMap.mp ho
  obtain ⟨x, hx, hstep⟩ := List.mem_flatMap.mp hb
  rw [stepOperands] at hstep
  split at hstep
  · exact absurd hstep List.not_mem_nil
  · rcases List.mem_append.mp hstep with hedge | hoperand
    · split at hedge
      · obtain ⟨succ, -, hsucc⟩ := List.mem_flatMap.mp hedge
        obtain ⟨y, hy, hfind⟩ := List.mem_filterMap.mp hsucc
        obtain ⟨⟨_, pred⟩, hpair, rfl⟩ := Option.map_eq_some_iff.mp hfind
        exact ⟨y.2, (mem_insts_of_mem (mem_blockInsts_of_phi hy).1).2, _,
          mem_operands_of_incoming (List.mem_of_find?_eq_some hpair), hresult⟩
      · exact absurd hedge List.not_mem_nil
    · exact ⟨x.2, (mem_insts_of_mem hx).2, o, hoperand, hresult⟩

/-! ## Types that agree -/

/-- Whether the types of the operands of an instruction agree with its own. -/
def agrees (f : Func) (i : ResolvedInst) : Bool :=
  let n := i.ty.bits
  match i.operation with
  | .binary _ v w => f.bitsOf v = n && f.bitsOf w = n
  | .cast op v => if op = .trunc then n ≤ f.bitsOf v else f.bitsOf v ≤ n
  | .icmp _ v w => n = 1 && f.bitsOf v = f.bitsOf w
  | .load a => f.bitsOf a = 64
  | .store v a => f.bitsOf v = n && f.bitsOf a = 64
  | .condBr c _ _ => f.bitsOf c = 1
  | .ret v => v.all (f.bitsOf · = n)
  | .phi incoming => incoming.all (f.bitsOf ·.1 = n)
  | .alloca | .br _ | .call .. => true

/-- Whether the types in a function agree, its operands are as `p` says, and what it computes has one of
some widths, but for the results of comparisons. Only a call may have no value. -/
def isTyped (f : Func) (p : Operand Value → Bool) (widths : List Nat) : Bool :=
  f.insts.all fun i ↦ f.agrees i && i.operation.operands.all p &&
    (i.ty.bits ∈ widths || i.opcode = .icmp || i.opcode = .call && i.ty.bits = 0 || i.opcode = .alloca ||
      !i.opcode.isEvaluated)

/-- Whether an operand is the result of a comparison, or a phi of one bit. -/
def isTruth (f : Func) : Operand Value → Bool
  | .value (.inst id) => (f.inst? id).any fun i ↦ i.ty.bits = 1 && (i.opcode = .icmp || i.opcode = .phi)
  | _ => false

/-- Whether all values are words, or results of comparisons and phis of such. -/
def isWordCode (f : Func) : Bool := f.isTyped (fun o ↦ f.bitsOf o = 64 || f.isTruth o) [64]

/-- Whether no results of comparisons are compared as signed. -/
def comparesWords (f : Func) : Bool :=
  f.insts.all fun i ↦ match i.operation with
    | .icmp p v _ => f.bitsOf v = 64 || !p.isSigned
    | _ => true

/-- The results of comparisons are truth values. -/
def Truthful (f : Func) (st : BlockState) : Prop :=
  ∀ id, f.isTruth (.value (.inst id)) = true → ∃ t, st.values id = truth t

theorem isTyped_inst {p : Operand Value → Bool} {widths : List Nat} (h : f.isTyped p widths = true)
    (hi : i ∈ f.insts) : f.agrees i = true ∧ (∀ o ∈ i.operation.operands, p o = true) ∧
      (i.opcode.isEvaluated = true → i.ty.bits ∈ widths ∨ i.opcode = .icmp ∨
        i.opcode = .call ∧ i.ty.bits = 0 ∨ i.opcode = .alloca) := by
  have hall := List.all_eq_true.mp h i hi
  simp only [Bool.and_eq_true, Bool.or_eq_true, List.all_eq_true, decide_eq_true_eq,
    Bool.not_eq_true'] at hall
  obtain ⟨⟨hagrees, hoperands⟩, hvalue⟩ := hall
  refine ⟨hagrees, hoperands, fun hev ↦ ?_⟩
  rcases hvalue with (((h | h) | h) | h) | hnot
  · exact Or.inl h
  · exact Or.inr (Or.inl h)
  · exact Or.inr (Or.inr (Or.inl h))
  · exact Or.inr (Or.inr (Or.inr h))
  · exact absurd (hnot.symm.trans hev) Bool.false_ne_true

theorem bitsOf_of_isTruth (h : f.isTruth o = true) : f.bitsOf o = 1 := by
  cases o with
  | int | float => exact absurd h Bool.false_ne_true
  | value v =>
    cases v with
    | arg => exact absurd h Bool.false_ne_true
    | inst id =>
      rw [isTruth, Option.any_eq_true] at h
      obtain ⟨i, hi, hbits⟩ := h
      rw [Bool.and_eq_true, Bool.or_eq_true, decide_eq_true_eq, decide_eq_true_eq, decide_eq_true_eq] at hbits
      rw [bitsOf, hi]
      have halloca : i.opcode ≠ .alloca := by
        rcases hbits.2 with h | h <;> rw [h] <;> exact Opcode.noConfusion
      simp [halloca, hbits.1]

theorem bitsOf_mem_of_word (h : f.bitsOf o = 64 ∨ f.isTruth o = true) :
    f.bitsOf o ∈ [1, 8, 16, 32, 64] := by
  rcases h with h | h
  · simp [h]
  · simp [bitsOf_of_isTruth h]

theorem exists_truth (A : Arithmetic) (ht : f.Truthful st) (h : f.isTruth o = true) :
    ∃ t, A.operand σ st o = truth t := by
  cases o with
  | int | float => exact absurd h Bool.false_ne_true
  | value v =>
    cases v with
    | arg => exact absurd h Bool.false_ne_true
    | inst id => exact ht id h

/-! ## Words and truth values -/

/-- Words are the same for both, and so are truth values. -/
theorem operand_machine (h : f.bitsOf o = 64 ∨ f.isTruth o = true) :
    Arithmetic.exact.operand σ st o = Arithmetic.machine.operand σ st o := by
  cases o with
  | int n bits =>
    obtain rfl : bits = 64 := h.resolve_right Bool.false_ne_true
    simp [Arithmetic.operand, Arithmetic.exact, Arithmetic.machine]
  | float => rfl
  | value v => cases v <;> rfl

/-- Evaluation keeps truth values. -/
theorem Truthful.evalInst {A : Arithmetic} (ht : f.Truthful st) (hi : f.inst? x.1 = some x.2)
    (h : f.evalInst A σ st x = some st') : f.Truthful st' := by
  intro id hid
  by_cases heq : id = x.1
  · subst heq
    have hopcode : x.2.opcode = .icmp ∨ x.2.opcode = .phi := by
      rw [isTruth, hi, Option.any_some, Bool.and_eq_true, Bool.or_eq_true, decide_eq_true_eq,
        decide_eq_true_eq, decide_eq_true_eq] at hid
      exact hid.2
    rcases hopcode with hicmp | hphi
    · rw [Inst.opcode] at hicmp
      rw [Func.evalInst] at h
      cases hoperation : x.2.operation with
      | icmp =>
        rw [hoperation] at h
        obtain rfl := Option.some.inj h
        exact ⟨_, BlockState.values_define_self⟩
      | _ =>
        rw [hoperation] at hicmp
        exact absurd hicmp Opcode.noConfusion
    · rw [values_evalInst h fun _ ↦ by rw [hphi]; rfl]
      exact ht _ hid
  · rw [values_evalInst h fun hid' ↦ absurd hid' heq]
    exact ht id hid

theorem Truthful.evalInsts {A : Arithmetic} {xs : List (InstId × ResolvedInst)} (ht : f.Truthful st)
    (hxs : ∀ x ∈ xs, f.inst? x.1 = some x.2) (h : f.evalInsts A σ xs st = some st') : f.Truthful st' := by
  induction xs generalizing st with
  | nil => exact Option.some.inj h ▸ ht
  | cons x xs ih =>
    obtain ⟨hx, hxs⟩ := List.forall_mem_cons.mp hxs
    rw [evalInsts_cons] at h
    obtain ⟨now, hnow, h⟩ := Option.bind_eq_some_iff.mp h
    exact ih (ht.evalInst hx hnow) hxs h

theorem isExtended_truth (t : Bool) : IsExtended false 1 (truth t) := by cases t <;> decide

/-- A comparison finds words, or truth values that it takes as unsigned. -/
theorem finds_of_comparesWords {p : Predicate} {u : Operand Value} (hwords : f.comparesWords = true)
    (hi : i ∈ f.insts) (hoperation : i.operation = .icmp p o u) (hbits : f.bitsOf o = f.bitsOf u)
    (ho : f.bitsOf o = 64 ∨ f.isTruth o = true) (hu : f.bitsOf u = 64 ∨ f.isTruth u = true)
    (ht : f.Truthful st) :
    p.Finds (f.bitsOf o) (Arithmetic.exact.operand σ st o) (Arithmetic.exact.operand σ st u) := by
  rcases ho with hword | htruth
  · rw [hword]
    exact ⟨true, fun _ ↦ rfl, isExtended_word _ _, isExtended_word _ _⟩
  · have hone := bitsOf_of_isTruth htruth
    have htruth' : f.isTruth u = true := hu.resolve_left fun h ↦ by
      rw [← hbits, hone] at h
      exact absurd h (by decide)
    have hunsigned : p.isSigned = false := by
      have hcompares := List.all_eq_true.mp hwords i hi
      rw [hoperation] at hcompares
      simpa [hone] using hcompares
    obtain ⟨t, ht₁⟩ := exists_truth (σ := σ) .exact ht htruth
    obtain ⟨t', ht₂⟩ := exists_truth (σ := σ) .exact ht htruth'
    rw [hone, ht₁, ht₂]
    exact ⟨false, fun h ↦ absurd (hunsigned.symm.trans h) Bool.false_ne_true, isExtended_truth _,
      isExtended_truth _⟩

section

variable (hword : f.isWordCode = true) (hwords : f.comparesWords = true)
include hword hwords

/-- An instruction of code for words is evaluated as a machine does it. -/
theorem evalInst_machine (hi : f.inst? x.1 = some x.2) (ht : f.Truthful st)
    (h : f.evalInst .exact σ st x = some st') : f.evalInst .machine σ st x = some st' := by
  have hmem : x.2 ∈ f.insts := List.mem_of_getElem? hi
  obtain ⟨hagrees, hoperands, hvalue⟩ := isTyped_inst hword hmem
  simp only [Bool.or_eq_true, decide_eq_true_eq] at hoperands
  have hsame : ∀ o ∈ x.2.operation.operands,
      Arithmetic.exact.operand σ st o = Arithmetic.machine.operand σ st o := fun o ho ↦
    operand_machine (hoperands o ho)
  rw [Inst.opcode] at hvalue
  rw [evalInst] at h ⊢
  cases hoperation : x.2.operation with
  | binary op v u =>
    rw [hoperation] at hsame hvalue h
    have hbits : x.2.ty.bits = 64 := by simpa [Operation.opcode] using hvalue rfl
    have hv := hsame v List.mem_cons_self
    have hu := hsame u (List.mem_cons_of_mem _ List.mem_cons_self)
    simp only [hbits, hv, hu] at h ⊢
    obtain ⟨z, hz, rfl⟩ := Option.map_eq_some_iff.mp h
    obtain ⟨z', hz', hlow⟩ := Arithmetic.binary_low (Nat.le_refl 64) rfl rfl (finds_word op) hz
    rw [hz', hlow.eq]
    rfl
  | cast op v =>
    rw [hoperation] at hsame hvalue hoperands h
    rw [agrees, hoperation] at hagrees
    have hbits : x.2.ty.bits = 64 := by simpa [Operation.opcode] using hvalue rfl
    have hwidth := bitsOf_mem_of_word (hoperands v List.mem_cons_self)
    simp only [hbits, hsame v List.mem_cons_self] at h hagrees ⊢
    obtain rfl := Option.some.inj h
    have hlow := Arithmetic.cast_low op (v := Arithmetic.machine.operand σ st v) hwidth (Nat.le_refl 64)
      (by simpa using hagrees) rfl
    rw [hlow.eq]
  | icmp p v u =>
    rw [hoperation] at hsame hoperands h
    rw [agrees, hoperation] at hagrees
    simp only [Bool.and_eq_true, decide_eq_true_eq] at hagrees
    have hv := hsame v List.mem_cons_self
    have hu := hsame u (List.mem_cons_of_mem _ List.mem_cons_self)
    have hfinds := finds_of_comparesWords (σ := σ) hwords hmem hoperation hagrees.2
      (hoperands v List.mem_cons_self) (hoperands u (List.mem_cons_of_mem _ List.mem_cons_self)) ht
    have hn := le_of_mem_widths (bitsOf_mem_of_word (hoperands v List.mem_cons_self))
    rw [hv, hu] at hfinds
    simp only [hv, hu] at h ⊢
    rw [Arithmetic.compare_low hn rfl rfl hfinds] at h
    exact h
  | alloca =>
    rw [hoperation] at h
    exact h
  | load a =>
    rw [hoperation] at hsame hvalue h
    have hbits : x.2.ty.bits = 64 := by simpa [Operation.opcode] using hvalue rfl
    simp only [hbits, hsame a List.mem_cons_self] at h ⊢
    obtain rfl := Option.some.inj h
    rw [(Arithmetic.load_low (n := 64) (by decide)).eq]
  | store v a =>
    rw [hoperation] at hsame h
    simp only [hsame v List.mem_cons_self, hsame a (List.mem_cons_of_mem _ List.mem_cons_self)] at h
    exact h
  | call callee args =>
    rw [hoperation] at hsame h
    have hargs : args.map (Arithmetic.exact.operand σ st) = args.map (Arithmetic.machine.operand σ st) :=
      List.map_congr_left fun o ho ↦ hsame o (List.mem_filterMap.mpr ⟨_, List.mem_map_of_mem ho, rfl⟩)
    simp only [hargs] at h
    exact h
  | br | condBr | ret | phi =>
    rw [hoperation] at h
    exact h

/-- Code for words is evaluated as a machine does it. -/
theorem evalInsts_machine {xs : List (InstId × ResolvedInst)} (hxs : ∀ x ∈ xs, f.inst? x.1 = some x.2)
    (ht : f.Truthful st) (h : f.evalInsts .exact σ xs st = some st') :
    f.evalInsts .machine σ xs st = some st' := by
  induction xs generalizing st with
  | nil => exact h
  | cons x xs ih =>
    obtain ⟨hx, hxs⟩ := List.forall_mem_cons.mp hxs
    rw [evalInsts_cons] at h ⊢
    obtain ⟨now, hnow, h⟩ := Option.bind_eq_some_iff.mp h
    rw [evalInst_machine hword hwords hx ht hnow]
    exact ih hxs (ht.evalInst hx hnow) h

omit hwords in
/-- Code for words goes where a machine does. -/
theorem departure?_machine (ht : f.Truthful st) :
    f.departure? .exact σ b st = f.departure? .machine σ b st := by
  rw [departure?, departure?]
  cases hlast : (f.blockInsts b).getLast? with
  | none => rfl
  | some x =>
    have hmem := (mem_insts_of_mem (List.mem_of_getLast? hlast)).2
    obtain ⟨hagrees, hoperands, -⟩ := isTyped_inst hword hmem
    simp only [Bool.or_eq_true, decide_eq_true_eq] at hoperands
    rw [Option.bind_some, Option.bind_some, Arithmetic.departure?, Arithmetic.departure?]
    cases hoperation : x.2.operation with
    | condBr o t e =>
      rw [agrees, hoperation, decide_eq_true_eq] at hagrees
      rw [hoperation] at hoperands
      have htruth := (hoperands o List.mem_cons_self).resolve_left (by rw [hagrees]; decide)
      obtain ⟨t, ht⟩ := exists_truth (σ := σ) .exact ht htruth
      simp only [← operand_machine (hoperands o List.mem_cons_self), ht]
      cases t <;> rfl
    | ret value =>
      cases value with
      | none => rfl
      | some o =>
        rw [hoperation] at hoperands
        simp only [Option.map_some, operand_machine (hoperands o List.mem_cons_self)]
    | _ => rfl

omit hwords in
theorem incoming_machine (hi : i ∈ f.insts) (ho : (o, b) ∈ i.operation.incoming) :
    Arithmetic.exact.operand σ st o = Arithmetic.machine.operand σ st o := by
  obtain ⟨-, hoperands, -⟩ := isTyped_inst hword hi
  simp only [Bool.or_eq_true, decide_eq_true_eq] at hoperands
  exact operand_machine (hoperands o (mem_operands_of_incoming ho))

end

/-! ## Low bits -/

/-- Whether all values have 1, 8, 16, 32 or 64 bits, what is stored has whole bytes, and calls are given
words. -/
def isNarrowCode (f : Func) : Bool :=
  f.isTyped (f.bitsOf · ∈ [1, 8, 16, 32, 64]) [1, 8, 16, 32, 64] &&
    f.insts.all fun i ↦ match i.operation with
      | .store v _ => f.bitsOf v ≠ 1
      | .call _ args => args.all (f.bitsOf · = 64)
      | _ => true

/-- Two states with the same low bits of values, the same results of comparisons, and the same effects. -/
structure SharesLow (f : Func) (st m : BlockState) : Prop where
  mem : m.mem = st.mem
  deeds : m.deeds = st.deeds
  values : ∀ id, SameLow (f.bitsOf (.value (.inst id))) (st.values id) (m.values id)
  truths : ∀ id i, f.inst? id = some i → i.opcode = .icmp → m.values id = st.values id

/-- A machine finds what an instruction takes words for, where it looks at more than their low bits. -/
def FindsWords (f : Func) (σ : World) (m : BlockState) (i : ResolvedInst) : Prop :=
  let value := Arithmetic.machine.operand σ m
  match i.operation with
  | .binary op v w => op.Finds i.ty.bits (value v) (value w)
  | .icmp p v w => p.Finds (f.bitsOf v) (value v) (value w)
  | .condBr c _ _ => value c ≠ 0 → (value c).getLsbD 0 = true
  | _ => True

/-- What all instructions of a block find, where a machine comes to it in the state `m`. -/
def FindsAll (f : Func) (σ : World) (b : BlockId) (m : BlockState) : Prop :=
  ∀ pre x post now, f.blockInsts b = pre ++ x :: post → f.evalInsts .machine σ pre m = some now →
    f.FindsWords σ now x.2

/-- Whether the narrow operators of a block look at low bits only, and it branches on results of comparisons
only. -/
def looksLow (f : Func) (b : BlockId) : Bool :=
  (f.blockInsts b).all fun x ↦ match x.2.operation with
    | .binary op _ _ => x.2.ty.bits = 64 || op ∈ [.add, .sub, .mul, .and, .or, .xor] ||
        op = .shl && 6 ≤ x.2.ty.bits
    | .icmp _ v _ => f.bitsOf v = 64
    | .condBr c _ _ => f.isTruth c
    | _ => true

/-- Nothing has to be found where nothing is looked for. -/
theorem findsAll_of_looksLow (h : f.looksLow b = true) (ht : f.Truthful m) : f.FindsAll σ b m := by
  intro pre x post now hsplit hnow
  have hx := List.all_eq_true.mp h x (hsplit ▸ List.mem_append_right _ List.mem_cons_self)
  rw [FindsWords]
  cases hoperation : x.2.operation with
  | binary op v u =>
    rw [hoperation] at hx
    simp only [Bool.or_eq_true, Bool.and_eq_true, decide_eq_true_eq] at hx
    rcases hx with (hbits | hop) | ⟨rfl, hsix⟩
    · simp only [hbits]
      exact finds_word op
    · simp only [List.mem_cons, List.not_mem_nil, or_false] at hop
      rcases hop with rfl | rfl | rfl | rfl | rfl | rfl <;> trivial
    · exact Or.inl hsix
  | icmp p v u =>
    rw [hoperation] at hx
    simp only [of_decide_eq_true hx]
    exact ⟨true, fun _ ↦ rfl, isExtended_word _ _, isExtended_word _ _⟩
  | condBr c =>
    rw [hoperation] at hx
    have hinsts : ∀ y ∈ pre, f.inst? y.1 = some y.2 := fun y hy ↦
      (mem_insts_of_mem (hsplit ▸ List.mem_append_left _ hy : y ∈ f.blockInsts b)).1
    obtain ⟨t, htruth⟩ := exists_truth (σ := σ) .machine (ht.evalInsts hinsts hnow) hx
    simp only [htruth]
    cases t <;> decide
  | _ => trivial

theorem SharesLow.refl (f : Func) (st : BlockState) : f.SharesLow st st :=
  ⟨rfl, rfl, fun _ ↦ rfl, fun _ _ _ _ ↦ rfl⟩

theorem SharesLow.define {id : InstId} (h : f.SharesLow st m)
    (hv : SameLow (f.bitsOf (.value (.inst id))) v w)
    (htruth : ∀ i, f.inst? id = some i → i.opcode = .icmp → w = v) :
    f.SharesLow (st.define id v) (m.define id w) where
  mem := h.mem
  deeds := h.deeds
  values id' := by
    by_cases heq : id' = id
    · subst heq
      simpa only [BlockState.values_define_self] using hv
    · simpa only [BlockState.values_define_of_ne heq] using h.values id'
  truths id' i hi hicmp := by
    by_cases heq : id' = id
    · subst heq
      simpa only [BlockState.values_define_self] using htruth i hi hicmp
    · simpa only [BlockState.values_define_of_ne heq] using h.truths id' i hi hicmp

theorem SharesLow.operand (h : f.SharesLow st m) (hn : f.bitsOf o ≤ 64) :
    SameLow (f.bitsOf o) (Arithmetic.exact.operand σ st o) (Arithmetic.machine.operand σ m o) := by
  cases o with
  | int k => exact Arithmetic.literal_low hn k
  | float => rfl
  | value v =>
    cases v with
    | arg => rfl
    | inst id => exact h.values id

section

variable (hnarrow : f.isNarrowCode = true)
include hnarrow

theorem isNarrowCode_inst (hi : i ∈ f.insts) : f.agrees i = true ∧
    (∀ o ∈ i.operation.operands, f.bitsOf o ∈ [1, 8, 16, 32, 64]) ∧
    (i.opcode.isEvaluated = true → i.ty.bits ∈ [1, 8, 16, 32, 64] ∨ i.opcode = .icmp ∨
      i.opcode = .call ∧ i.ty.bits = 0 ∨ i.opcode = .alloca) ∧
    (∀ v a, i.operation = .store v a → f.bitsOf v ≠ 1) ∧
    ∀ callee args, i.operation = .call callee args → ∀ o ∈ args, f.bitsOf o = 64 := by
  obtain ⟨htyped, hplain⟩ := Bool.and_eq_true_iff.mp hnarrow
  obtain ⟨hagrees, hoperands, hvalue⟩ := isTyped_inst htyped hi
  have hi' := List.all_eq_true.mp hplain i hi
  refine ⟨hagrees, fun o ho ↦ of_decide_eq_true (hoperands o ho), hvalue, fun v a hop ↦ ?_,
    fun callee args hop o ho ↦ ?_⟩
  · rw [hop] at hi'
    exact of_decide_eq_true hi'
  · rw [hop] at hi'
    exact of_decide_eq_true (List.all_eq_true.mp hi' o ho)

/-- An instruction on low bits is evaluated by a machine that finds the words it looks for. -/
theorem evalInst_low (hi : f.inst? x.1 = some x.2) (hlow : f.SharesLow st m) (hfinds : f.FindsWords σ m x.2)
    (h : f.evalInst .exact σ st x = some st') :
    ∃ m', f.evalInst .machine σ m x = some m' ∧ f.SharesLow st' m' := by
  obtain ⟨hagrees, hoperands, hvalue, hstored, hgiven⟩ := isNarrowCode_inst hnarrow (List.mem_of_getElem? hi)
  have hlows : ∀ o ∈ x.2.operation.operands, SameLow (f.bitsOf o) (Arithmetic.exact.operand σ st o)
      (Arithmetic.machine.operand σ m o) := fun o ho ↦ hlow.operand (le_of_mem_widths (hoperands o ho))
  have hword : ∀ o ∈ x.2.operation.operands, f.bitsOf o = 64 →
      Arithmetic.exact.operand σ st o = Arithmetic.machine.operand σ m o := fun o ho hbits ↦
    (hbits ▸ hlows o ho).eq
  have hbits : x.2.opcode ≠ .alloca → f.bitsOf (.value (.inst x.1)) = x.2.ty.bits := fun hne ↦ by
    simp [bitsOf, hi, hne]
  have hdefine : ∀ {v w : Word}, x.2.opcode ≠ .icmp → SameLow (f.bitsOf (.value (.inst x.1))) v w →
      f.SharesLow (st.define x.1 v) (m.define x.1 w) := fun hne hv ↦
    hlow.define hv fun i hi' hicmp ↦ absurd (Option.some.inj (hi.symm.trans hi') ▸ hicmp) hne
  rw [Inst.opcode] at hvalue hbits hdefine
  rw [evalInst] at h ⊢
  rw [agrees] at hagrees
  rw [FindsWords] at hfinds
  cases hoperation : x.2.operation with
  | binary op v u =>
    rw [hoperation] at hlows hvalue hbits hdefine hagrees hfinds h
    simp only [Bool.and_eq_true, decide_eq_true_eq] at hagrees
    have hn : x.2.ty.bits ≤ 64 := le_of_mem_widths (by simpa [Operation.opcode] using hvalue rfl)
    obtain ⟨z, hz, rfl⟩ := Option.map_eq_some_iff.mp h
    obtain ⟨z', hz', hsame⟩ := Arithmetic.binary_low hn (hagrees.1 ▸ hlows v List.mem_cons_self)
      (hagrees.2 ▸ hlows u (List.mem_cons_of_mem _ List.mem_cons_self)) hfinds hz
    exact ⟨_, congrArg (Option.map _) hz',
      hdefine Opcode.noConfusion ((hbits Opcode.noConfusion).symm ▸ hsame)⟩
  | cast op v =>
    rw [hoperation] at hlows hvalue hoperands hbits hdefine hagrees h
    have hn : x.2.ty.bits ≤ 64 := le_of_mem_widths (by simpa [Operation.opcode] using hvalue rfl)
    obtain rfl := Option.some.inj h
    exact ⟨_, rfl, hdefine Opcode.noConfusion ((hbits Opcode.noConfusion).symm ▸
      Arithmetic.cast_low op (hoperands v List.mem_cons_self) hn (by simpa using hagrees)
        (hlows v List.mem_cons_self))⟩
  | icmp p v u =>
    rw [hoperation] at hlows hoperands hagrees hfinds h
    simp only [Bool.and_eq_true, decide_eq_true_eq] at hagrees
    have hcompare := Arithmetic.compare_low (le_of_mem_widths (hoperands v List.mem_cons_self))
      (hlows v List.mem_cons_self)
      (hagrees.2.symm ▸ hlows u (List.mem_cons_of_mem _ List.mem_cons_self)) hfinds
    simp only [hcompare] at h
    obtain rfl := Option.some.inj h
    exact ⟨_, rfl, hlow.define rfl fun _ _ _ ↦ rfl⟩
  | alloca =>
    rw [hoperation] at hdefine h
    obtain rfl := Option.some.inj h
    exact ⟨_, rfl, hdefine Opcode.noConfusion rfl⟩
  | load a =>
    rw [hoperation] at hword hvalue hbits hdefine hagrees h
    have hn : x.2.ty.bits ∈ [1, 8, 16, 32, 64] := by simpa [Operation.opcode] using hvalue rfl
    simp only [hword a List.mem_cons_self (of_decide_eq_true hagrees), ← hlow.mem] at h
    obtain rfl := Option.some.inj h
    exact ⟨_, rfl, hdefine Opcode.noConfusion ((hbits Opcode.noConfusion).symm ▸ Arithmetic.load_low hn)⟩
  | store v a =>
    rw [hoperation] at hlows hword hoperands hagrees h
    simp only [Bool.and_eq_true, decide_eq_true_eq] at hagrees
    have hn : x.2.ty.bits ∈ [8, 16, 32, 64] := by
      have hmem := hagrees.1 ▸ hoperands v List.mem_cons_self
      have hne := hagrees.1 ▸ hstored v a hoperation
      exact (List.mem_cons.mp hmem).resolve_left hne
    have hbytes := SameLow.lowBytes hn (hagrees.1 ▸ hlows v List.mem_cons_self)
    simp only [hword a (List.mem_cons_of_mem _ List.mem_cons_self) hagrees.2] at h
    obtain rfl := Option.some.inj h
    refine ⟨_, rfl, ?_, ?_, hlow.values, hlow.truths⟩
    · rw [BlockState.store, BlockState.store, hlow.mem]
      exact (Memory.store_congr_low hbytes).symm
    · rw [BlockState.store, BlockState.store, hlow.deeds, hbytes]
  | call callee args =>
    rw [hoperation] at hword hdefine h
    have hargs : args.map (Arithmetic.exact.operand σ st) = args.map (Arithmetic.machine.operand σ m) :=
      List.map_congr_left fun o ho ↦ hword o (List.mem_filterMap.mpr ⟨_, List.mem_map_of_mem ho, rfl⟩)
        (hgiven _ _ hoperation o ho)
    simp only [hargs] at h
    obtain rfl := Option.some.inj h
    refine ⟨_, rfl, ?_⟩
    rw [BlockState.call, BlockState.call, hlow.mem, hlow.deeds]
    refine SharesLow.define ⟨rfl, rfl, hlow.values, hlow.truths⟩ rfl fun _ _ _ ↦ rfl
  | br | condBr | ret | phi =>
    rw [hoperation] at h
    obtain rfl := Option.some.inj h
    exact ⟨_, rfl, hlow⟩

theorem evalInsts_low {xs : List (InstId × ResolvedInst)} (hxs : ∀ x ∈ xs, f.inst? x.1 = some x.2)
    (hlow : f.SharesLow st m) (hfinds : ∀ pre x post now, xs = pre ++ x :: post →
      f.evalInsts .machine σ pre m = some now → f.FindsWords σ now x.2)
    (h : f.evalInsts .exact σ xs st = some st') :
    ∃ m', f.evalInsts .machine σ xs m = some m' ∧ f.SharesLow st' m' := by
  induction xs generalizing st m with
  | nil =>
    obtain rfl := Option.some.inj h
    exact ⟨m, rfl, hlow⟩
  | cons x xs ih =>
    obtain ⟨hx, hxs⟩ := List.forall_mem_cons.mp hxs
    rw [evalInsts_cons] at h
    obtain ⟨now, hnow, h⟩ := Option.bind_eq_some_iff.mp h
    obtain ⟨now', hnow', hlow'⟩ := evalInst_low hnarrow hx hlow (hfinds [] x xs m rfl rfl) hnow
    have hfinds' : ∀ pre y post later, xs = pre ++ y :: post →
        f.evalInsts .machine σ pre now' = some later → f.FindsWords σ later y.2 :=
      fun pre y post later hsplit hlater ↦ hfinds (x :: pre) y post later (congrArg (x :: ·) hsplit)
        (by rw [evalInsts_cons, hnow']; exact hlater)
    obtain ⟨m', hm', hend⟩ := ih hxs hlow' hfinds' h
    exact ⟨m', by rw [evalInsts_cons, hnow']; exact hm', hend⟩

/-- A block goes where a machine goes that finds a truth value where it branches, and returns the same low
bits. -/
theorem departure?_low (hlast : (f.blockInsts b).getLast? = some x) (hlow : f.SharesLow st m)
    (hfinds : f.FindsWords σ m x.2) :
    (f.departure? .exact σ b st).map (Departure.low x.2.ty.bits) =
      (f.departure? .machine σ b m).map (Departure.low x.2.ty.bits) := by
  have hmem := (mem_insts_of_mem (List.mem_of_getLast? hlast)).2
  obtain ⟨hagrees, hoperands, -⟩ := isNarrowCode_inst hnarrow hmem
  rw [departure?, departure?, hlast, Option.bind_some, Option.bind_some, Arithmetic.departure?,
    Arithmetic.departure?]
  rw [agrees] at hagrees
  rw [FindsWords] at hfinds
  cases hoperation : x.2.operation with
  | condBr o t e =>
    rw [hoperation] at hagrees hoperands hfinds
    have hone : f.bitsOf o = 1 := of_decide_eq_true hagrees
    have hbit := hlow.operand (σ := σ) (le_of_mem_widths (hoperands o List.mem_cons_self))
    rw [hone, SameLow] at hbit
    have htest : Arithmetic.exact.test (Arithmetic.exact.operand σ st o) =
        Arithmetic.machine.test (Arithmetic.machine.operand σ m o) := by
      have hlsb := congrArg (·.getLsbD 0) hbit
      simp only [BitVec.getLsbD_setWidth, Nat.zero_lt_one, decide_true, Bool.true_and] at hlsb
      rw [show ∀ y : Word, Arithmetic.exact.test y = y.getLsbD 0 from fun _ ↦ rfl, hlsb, Bool.eq_iff_iff]
      refine ⟨fun h ↦ decide_eq_true fun hzero ↦ ?_, fun h ↦ hfinds (of_decide_eq_true h)⟩
      rw [hzero] at h
      exact absurd h (by decide)
    simp only [htest]
  | ret value =>
    cases value with
    | none => rfl
    | some o =>
      rw [hoperation] at hagrees hoperands
      have hbits : f.bitsOf o = x.2.ty.bits := by simpa using hagrees
      have hsame := hlow.operand (σ := σ) (le_of_mem_widths (hoperands o List.mem_cons_self))
      rw [hbits, SameLow] at hsame
      simp only [Option.map_some, Departure.low, hsame]
  | _ => rfl

end

end Func

end TreeCover.Ir
