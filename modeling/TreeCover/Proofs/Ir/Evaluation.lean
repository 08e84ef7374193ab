import TreeCover.Ir.Func
import TreeCover.Proofs.Machine.Bytes
import TreeCover.Tiling.Actions

/-!
# Evaluation of blocks

What the instructions of a block mean. Every value is held in a machine word. `Arithmetic` says what is
done with words, and there is more than one answer: values of some bits are numbers of as many bits, and a
machine that computes with whole words applies its operators to whatever the words hold. The rest is the
same for both: a block is evaluated instruction by instruction, on the values known so far and a memory,
and leaves a record of its stores and calls.

An operator that is undefined on its operands has no result, and then the block has none.
-/

namespace TreeCover.Ir

open Machine

/-! ## Operators -/

/-- The result of an operator, if it is defined: a division has a divisor and a quotient that fits, and
a shift moves by less than the width. -/
def BinaryOp.eval? {n : Nat} (op : BinaryOp) (a b : BitVec n) : Option (BitVec n) :=
  let divides := b ≠ 0 ∧ (a ≠ BitVec.intMin n ∨ b ≠ -1)
  match op with
  | add => some (a + b)
  | sub => some (a - b)
  | mul => some (a * b)
  | and => some (a &&& b)
  | or => some (a ||| b)
  | xor => some (a ^^^ b)
  | sdiv => if divides then some (a.sdiv b) else none
  | srem => if divides then some (a.srem b) else none
  | shl => if b.toNat < n then some (a <<< b.toNat) else none
  | lshr => if b.toNat < n then some (a >>> b.toNat) else none
  | ashr => if b.toNat < n then some (a.sshiftRight b.toNat) else none
  | fadd | fsub | fmul => none

def BinaryOp.isShift : BinaryOp → Bool
  | shl | lshr | ashr => true
  | _ => false

/-- The result of an operator on words as a machine has it: shifts count modulo the width. -/
def BinaryOp.run? (op : BinaryOp) (a b : Word) : Option Word :=
  op.eval? a (if op.isShift then b &&& 63 else b)

/-- Whether a comparison holds. -/
def Predicate.eval {n : Nat} (p : Predicate) (a b : BitVec n) : Bool :=
  match p with
  | eq => a == b
  | ne => a != b
  | slt => a.slt b
  | sle => a.sle b
  | sgt => b.slt a
  | sge => b.sle a
  | ult => a.ult b
  | ule => a.ule b
  | ugt => b.ult a
  | uge => b.ule a

/-- A truth value as a word. -/
def truth (b : Bool) : Word := if b then 1 else 0

/-! ## Arithmetic -/

/-- What a block does with words. -/
structure Arithmetic where
  /-- A literal of some bits. -/
  literal : Int → Nat → Word
  /-- An operator on values of some bits. -/
  binary : BinaryOp → Nat → Word → Word → Option Word
  /-- A comparison of values of some bits. -/
  compare : Predicate → Nat → Word → Word → Bool
  /-- The cast of a value of some bits to some bits. -/
  cast : CastOp → Nat → Nat → Word → Word
  /-- A value of some bits, loaded from where a word is. -/
  load : Nat → Word → Word
  /-- Whether a truth value holds. -/
  test : Word → Bool

/-- The low bits of a word, extended to a word again. -/
def extendLow (signed : Bool) (bits : Nat) (x : Word) : Word :=
  if signed then (x.setWidth bits).signExtend 64 else (x.setWidth bits).setWidth 64

/-- The arithmetic of the language: a value of some bits is a number of as many bits, and the word that
holds it has nothing else. -/
def Arithmetic.exact : Arithmetic where
  literal n bits := (BitVec.ofInt bits n).setWidth 64
  binary op bits a b := (op.eval? (a.setWidth bits) (b.setWidth bits)).map (·.setWidth 64)
  compare p bits a b := p.eval (a.setWidth bits) (b.setWidth bits)
  cast op bits target x :=
    match op with
    | .sext => ((x.setWidth bits).signExtend target).setWidth 64
    | .zext | .trunc => ((x.setWidth bits).setWidth target).setWidth 64
  load bits w := extendLow false bits w
  test x := x.getLsbD 0

/-- How many bits of a word a cast looks at, if it looks at less than the whole word. -/
def castBits (bits : Nat) : Nat := if bits = 1 then 1 else 8 * accessBytes bits

/-- The arithmetic of a machine that has words only: operators take words as they are, and a value is
extended when it is loaded or by a cast that says so. -/
def Arithmetic.machine : Arithmetic where
  literal n bits := if fitsSigned bits n then BitVec.ofInt 64 n else (BitVec.ofInt bits n).setWidth 64
  binary op _ a b := op.run? a b
  compare p _ a b := p.eval a b
  cast op bits _ x :=
    match op with
    | .trunc => x
    | .sext => if 64 ≤ bits then x else extendLow true (castBits bits) x
    | .zext => if 64 ≤ bits then x else extendLow false (castBits bits) x
  load bits w :=
    match bits with
    | 1 => extendLow false 8 w
    | 8 => extendLow true 8 w
    | 16 => extendLow true 16 w
    | 32 => extendLow true 32 w
    | _ => w
  test x := x ≠ 0

/-! ## States -/

/-- What a block finds around it and does not change. -/
structure World where
  args : Nat → Word
  /-- The addresses of allocas. -/
  slots : InstId → Word
  /-- What a call does with its arguments and the memory: the memory afterwards, and the result. -/
  call : String → List Word → Memory → Memory × Word

/-- What a block does to the world. -/
inductive Deed where
  | store (address : Word) (bytes : Nat) (value : Word)
  | call (callee : String) (args : List Word)

/-- The values known so far, the memory, and what was done. -/
structure BlockState where
  values : InstId → Word
  mem : Memory
  deeds : List Deed

namespace BlockState

variable {st : BlockState} {id id' : InstId} {w a : Word} {bytes : Nat}

/-- Gives an instruction its value. -/
def define (st : BlockState) (id : InstId) (w : Word) : BlockState :=
  { st with values := fun id' ↦ if id' = id then w else st.values id' }

/-- Stores the low bytes of a word. -/
def store (st : BlockState) (a : Word) (bytes : Nat) (w : Word) : BlockState :=
  { st with
    mem := st.mem.store a bytes w.toNat
    deeds := st.deeds ++ [.store a bytes (lowBytes bytes w)] }

/-- A call, whose result is the value of an instruction. -/
def call (σ : World) (st : BlockState) (id : InstId) (callee : String) (args : List Word) : BlockState :=
  let result := σ.call callee args st.mem
  let st := { st with mem := result.1, deeds := st.deeds ++ [Deed.call callee args] }
  st.define id result.2

@[simp]
theorem values_define_self : (st.define id w).values id = w := if_pos rfl

theorem values_define_of_ne (h : id' ≠ id) : (st.define id w).values id' = st.values id' := if_neg h

@[simp]
theorem mem_define : (st.define id w).mem = st.mem := rfl

@[simp]
theorem deeds_define : (st.define id w).deeds = st.deeds := rfl

@[simp]
theorem values_store : (st.store a bytes w).values = st.values := rfl

end BlockState

/-! ## Instructions -/

namespace Func

/-- The width of an operand. -/
def bitsOf (f : Func) : Operand Value → Nat
  | .int _ bits => bits
  | .float _ => 64
  | .value (.arg k) => (f.params[k]?.map (·.ty.bits)).getD 0
  | .value (.inst id) =>
    ((f.inst? id).map fun i ↦ if i.opcode = .alloca then 64 else i.ty.bits).getD 0

end Func

/-- The word that an operand stands for. -/
def Arithmetic.operand (A : Arithmetic) (σ : World) (st : BlockState) : Operand Value → Word
  | .int n bits => A.literal n bits
  | .float x => x.bits
  | .value (.arg k) => σ.args k
  | .value (.inst id) => st.values id

/-- One instruction; a phi has its value from before the block. -/
def Func.evalInst (f : Func) (A : Arithmetic) (σ : World) (st : BlockState)
    (x : InstId × ResolvedInst) : Option BlockState :=
  let value := A.operand σ st
  match x.2.operation with
  | .binary op a b => (A.binary op x.2.ty.bits (value a) (value b)).map (st.define x.1)
  | .cast op a => some (st.define x.1 (A.cast op (f.bitsOf a) x.2.ty.bits (value a)))
  | .icmp p a b => some (st.define x.1 (truth (A.compare p (f.bitsOf a) (value a) (value b))))
  | .alloca => some (st.define x.1 (σ.slots x.1))
  | .load a => some (st.define x.1 (A.load x.2.ty.bits (st.mem.word (value a))))
  | .store v a => some (st.store (value a) (accessBytes x.2.ty.bits) (value v))
  | .call callee args => some (st.call σ x.1 callee (args.map value))
  | .br _ | .condBr .. | .ret _ | .phi _ => some st

/-- Instructions in order. -/
def Func.evalInsts (f : Func) (A : Arithmetic) (σ : World) (xs : List (InstId × ResolvedInst))
    (st : BlockState) : Option BlockState := xs.foldlM (f.evalInst A σ) st

/-- How control leaves a block. -/
inductive Departure where
  | goto (b : BlockId)
  | ret (value : Option Word)

/-- Where a terminator goes. -/
def Arithmetic.departure? (A : Arithmetic) (σ : World) (st : BlockState) (i : ResolvedInst) :
    Option Departure :=
  match i.operation with
  | .br t => some (.goto t)
  | .condBr c t e => some (.goto (if A.test (A.operand σ st c) then t else e))
  | .ret v => some (.ret (v.map (A.operand σ st)))
  | _ => none

/-- Where a block goes, by its last instruction. -/
def Func.departure? (f : Func) (A : Arithmetic) (σ : World) (b : BlockId) (st : BlockState) :
    Option Departure :=
  (f.blockInsts b).getLast?.bind fun x ↦ A.departure? σ st x.2

/-! ## What evaluation keeps -/

section

variable {f : Func} {A : Arithmetic} {σ : World} {st st' : BlockState} {x : InstId × ResolvedInst}
  {xs ys : List (InstId × ResolvedInst)} {id : InstId}

@[simp]
theorem Func.evalInsts_nil : f.evalInsts A σ [] st = some st := rfl

theorem Func.evalInsts_cons :
    f.evalInsts A σ (x :: xs) st = (f.evalInst A σ st x).bind (f.evalInsts A σ xs) := rfl

theorem Func.evalInsts_append :
    f.evalInsts A σ (xs ++ ys) st = (f.evalInsts A σ xs st).bind (f.evalInsts A σ ys) :=
  List.foldlM_append

/-- Whether evaluation gives an instruction a value. -/
def Opcode.isEvaluated : Opcode → Bool
  | .store | .br | .ret | .phi => false
  | _ => true

/-- An instruction gives a value to itself at most. -/
theorem Func.values_evalInst (h : f.evalInst A σ st x = some st')
    (hne : id = x.1 → x.2.opcode.isEvaluated = false) : st'.values id = st.values id := by
  by_cases hid : id = x.1
  · have hop := hne hid
    rw [Inst.opcode] at hop
    rw [evalInst] at h
    split at h
    all_goals
      next heq =>
        rw [heq] at hop
        first
          | exact absurd hop Bool.noConfusion
          | exact Option.some.inj h ▸ rfl
  · rw [evalInst] at h
    split at h
    case h_1 =>
      obtain ⟨w, -, rfl⟩ := Option.map_eq_some_iff.mp h
      exact BlockState.values_define_of_ne hid
    all_goals
      obtain rfl := Option.some.inj h
      first
        | exact BlockState.values_define_of_ne hid
        | rfl

theorem Func.values_evalInsts (h : f.evalInsts A σ xs st = some st')
    (hne : ∀ x ∈ xs, id = x.1 → x.2.opcode.isEvaluated = false) : st'.values id = st.values id := by
  induction xs generalizing st with
  | nil =>
    obtain rfl := Option.some.inj h
    rfl
  | cons x xs ih =>
    obtain ⟨hx, hxs⟩ := List.forall_mem_cons.mp hne
    rw [evalInsts_cons] at h
    obtain ⟨st₁, h₁, h₂⟩ := Option.bind_eq_some_iff.mp h
    rw [ih h₂ hxs, values_evalInst h₁ hx]

/-- Only stores and calls change the memory. -/
theorem Func.mem_evalInst (h : f.evalInst A σ st x = some st') (hx : x.2.opcode.writesMemory = false) :
    st'.mem = st.mem ∧ st'.deeds = st.deeds := by
  rw [evalInst] at h
  split at h
  case h_1 =>
    obtain ⟨w, -, rfl⟩ := Option.map_eq_some_iff.mp h
    exact ⟨rfl, rfl⟩
  case h_6 hop =>
    rw [Inst.opcode, hop] at hx
    exact absurd hx Bool.noConfusion
  case h_7 hop =>
    rw [Inst.opcode, hop] at hx
    exact absurd hx Bool.noConfusion
  all_goals
    obtain rfl := Option.some.inj h
    exact ⟨rfl, rfl⟩

theorem Func.mem_evalInsts (h : f.evalInsts A σ xs st = some st')
    (hxs : ∀ x ∈ xs, x.2.opcode.writesMemory = false) : st'.mem = st.mem ∧ st'.deeds = st.deeds := by
  induction xs generalizing st with
  | nil =>
    obtain rfl := Option.some.inj h
    exact ⟨rfl, rfl⟩
  | cons x xs ih =>
    obtain ⟨hx, hxs⟩ := List.forall_mem_cons.mp hxs
    rw [evalInsts_cons] at h
    obtain ⟨st₁, h₁, h₂⟩ := Option.bind_eq_some_iff.mp h
    obtain ⟨hmem, hdeeds⟩ := mem_evalInst h₁ hx
    obtain ⟨hmem', hdeeds'⟩ := ih h₂ hxs
    exact ⟨hmem'.trans hmem, hdeeds'.trans hdeeds⟩

/-- An operand depends on the values it names. -/
theorem Arithmetic.operand_congr {o : Operand Value}
    (h : ∀ id, o = .value (.inst id) → st'.values id = st.values id) :
    A.operand σ st' o = A.operand σ st o := by
  cases o with
  | int | float => rfl
  | value v =>
    cases v with
    | arg => rfl
    | inst id => exact h id rfl

end

end TreeCover.Ir
