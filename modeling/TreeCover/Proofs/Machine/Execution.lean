import TreeCover.Machine.Inst

/-!
# Execution of moves

The machine that the finished instructions run on: sixteen registers, a memory of bytes with 64-bit
addresses that wrap around, and the condition flags. Only moves are executed here, the two forms
that copies are made of; an instruction that does not exist, such as a move between two memory
operands, has no result.

Operands are evaluated under an assignment of words to registers. For the machine this is its
register file; with an allocation it is the content of the places of virtual registers, which gives
operands a meaning before they are placed.
-/

namespace TreeCover.Machine

/-! ## Memory -/

/-- A byte for every address. -/
abbrev Memory := Word → BitVec 8

namespace Memory

variable {m m' : Memory} {a b x : Word} {n value : Nat}

/-- The number whose low byte comes first in `n` bytes. -/
def load (m : Memory) (a : Word) : Nat → Nat
  | 0 => 0
  | n + 1 => (m a).toNat + 256 * m.load (a + 1) n

/-- Whether an address is one of the `n` from `a` on. -/
def InBytes (a : Word) (n : Nat) (x : Word) : Prop := (x - a).toNat < n

instance : Decidable (InBytes a n x) := inferInstanceAs (Decidable (_ < _))

/-- Writes the low `n` bytes of a number, the lowest first. -/
def store (m : Memory) (a : Word) (n value : Nat) : Memory := fun x ↦
  if InBytes a n x then BitVec.ofNat 8 (value >>> (8 * (x - a).toNat)) else m x

/-- The word at an address. -/
def word (m : Memory) (a : Word) : Word := BitVec.ofNat 64 (m.load a 8)

def storeWord (m : Memory) (a : Word) (w : Word) : Memory := m.store a 8 w.toNat

/-- Two words that share no byte. -/
def Apart (a b : Word) : Prop := 8 ≤ (a - b).toNat ∧ 8 ≤ (b - a).toNat

theorem Apart.symm (h : Apart a b) : Apart b a := ⟨h.2, h.1⟩

theorem add_ofNat_sub {i : Nat} (hi : i < 8) : (a + BitVec.ofNat 64 i - a).toNat = i := by
  rw [BitVec.add_comm, BitVec.add_sub_cancel, BitVec.toNat_ofNat]
  omega

theorem inBytes_add {i : Nat} (hi : i < 8) : InBytes a 8 (a + BitVec.ofNat 64 i) := by
  rw [InBytes, add_ofNat_sub hi]
  exact hi

theorem Apart.not_inBytes (h : Apart a b) (hx : InBytes a 8 x) : ¬ InBytes b 8 x := by
  rw [InBytes] at hx ⊢
  obtain ⟨h₁, h₂⟩ := h
  bv_omega

private theorem add_one_add_ofNat (a : Word) (i : Nat) :
    a + 1 + BitVec.ofNat 64 i = a + BitVec.ofNat 64 (i + 1) := by
  rw [BitVec.add_assoc, BitVec.add_comm 1, BitVec.ofNat_add]
  rfl

theorem load_congr (h : ∀ i < n, m (a + BitVec.ofNat 64 i) = m' (a + BitVec.ofNat 64 i)) :
    m.load a n = m'.load a n := by
  induction n generalizing a with
  | zero => rfl
  | succ n ih =>
    have hfirst := h 0 (Nat.zero_lt_succ n)
    rw [BitVec.add_zero] at hfirst
    rw [load, load, hfirst, ih fun i hi ↦ ?_]
    rw [add_one_add_ofNat]
    exact h (i + 1) (by omega)

private theorem load_of_bytes (hvalue : value >>> (8 * n) = 0)
    (h : ∀ i < n, m (a + BitVec.ofNat 64 i) = BitVec.ofNat 8 (value >>> (8 * i))) :
    m.load a n = value := by
  induction n generalizing a value with
  | zero => simpa [load] using hvalue.symm
  | succ n ih =>
    have hfirst := h 0 (Nat.zero_lt_succ n)
    rw [BitVec.add_zero, Nat.mul_zero, Nat.shiftRight_zero] at hfirst
    have hrest := @ih (a + 1) (value >>> 8)
      (by rw [← Nat.shiftRight_add, Nat.add_comm, ← Nat.mul_succ]; exact hvalue) fun i hi ↦ by
        rw [add_one_add_ofNat, h (i + 1) (by omega), ← Nat.shiftRight_add, Nat.mul_succ,
          Nat.add_comm 8]
    rw [load, hfirst, hrest, BitVec.toNat_ofNat, Nat.shiftRight_eq_div_pow]
    omega

theorem word_congr (h : ∀ x, InBytes a 8 x → m x = m' x) : m.word a = m'.word a := by
  rw [word, word, load_congr fun i hi ↦ h _ (inBytes_add hi)]

theorem storeWord_of_not_inBytes (w : Word) (h : ¬ InBytes a 8 x) : m.storeWord a w x = m x :=
  if_neg h

@[simp]
theorem word_storeWord (m : Memory) (a w : Word) : (m.storeWord a w).word a = w := by
  have hsmall : w.toNat >>> (8 * 8) = 0 := by
    rw [Nat.shiftRight_eq_zero]
    exact w.isLt
  rw [word, load_of_bytes hsmall fun i hi ↦ ?_, BitVec.ofNat_toNat, BitVec.setWidth_eq]
  rw [storeWord, store, if_pos (inBytes_add hi), add_ofNat_sub hi]

theorem word_storeWord_of_apart (w : Word) (h : Apart a b) : (m.storeWord a w).word b = m.word b :=
  word_congr fun _ hx ↦ storeWord_of_not_inBytes w (h.symm.not_inBytes hx)

/-- The low byte of a word is the byte at its address. -/
theorem setWidth_word (m : Memory) (a : Word) : (m.word a).setWidth 8 = m a := by
  have hload : m.load a 8 = (m a).toNat + 256 * m.load (a + 1) 7 := rfl
  apply BitVec.eq_of_toNat_eq
  rw [BitVec.toNat_setWidth, word, BitVec.toNat_ofNat, hload]
  have := (m a).isLt
  omega

end Memory

/-! ## Operands -/

/-- The address of a memory operand. -/
def Mem.address (val : Reg → Option Word) (m : Mem) : Option Word := do
  let base ← val m.base
  match m.index with
  | none => return base + BitVec.ofInt 64 m.disp
  | some (r, scale) =>
    let index ← val r
    return base + BitVec.ofInt 64 m.disp + index * BitVec.ofNat 64 scale

/-- What a source operand stands for before memory is read. -/
inductive Ref where
  | word (w : Word)
  /-- The word at an address. -/
  | load (address : Word)
deriving DecidableEq

def Ref.value (mem : Memory) : Ref → Word
  | word w => w
  | load a => mem.word a

/-- What a whole source operand stands for. -/
def Operand.ref (val : Reg → Option Word) : Operand → Option Ref
  | imm w => some (.word w)
  | reg r width => if width = 8 then (val r).map .word else none
  | mem m => (m.address val).map .load
  | _ => none

/-- The word a source operand gives. -/
def Operand.value (val : Reg → Option Word) (mem : Memory) (o : Operand) : Option Word :=
  (o.ref val).map (·.value mem)

/-- The registers an operand mentions. -/
def Operand.regs : Operand → List Reg
  | reg r _ => [r]
  | mem m => m.regs
  | _ => []

theorem Mem.address_congr {val val' : Reg → Option Word} {m : Mem}
    (h : ∀ r ∈ m.regs, val r = val' r) : m.address val = m.address val' := by
  have hbase : val m.base = val' m.base := h _ List.mem_cons_self
  cases hindex : m.index with
  | none => rw [address, address, hbase, hindex]
  | some part =>
    have hpart : val part.1 = val' part.1 := h _ (by simp [regs, hindex])
    rw [address, address, hbase, hindex]
    simp only [hpart]

theorem Operand.ref_congr {val val' : Reg → Option Word} {o : Operand}
    (h : ∀ r ∈ o.regs, val r = val' r) : o.ref val = o.ref val' := by
  cases o with
  | reg r width => rw [ref, ref, h r List.mem_cons_self]
  | mem m => rw [ref, ref, Mem.address_congr h]
  | _ => rfl

/-! ## The machine -/

/-- The condition flags. -/
structure Flags where
  carry : Bool
  parity : Bool
  zero : Bool
  sign : Bool
  overflow : Bool
deriving DecidableEq, Inhabited

/-- A state of the machine. -/
structure State where
  regs : PhysReg → Word
  mem : Memory
  flags : Flags

namespace State

/-- The content of a physical register; a virtual one is nowhere on the machine. -/
def reg (s : State) : Reg → Option Word
  | .phys r => some (s.regs r)
  | .virt _ => none

def setReg (s : State) (r : PhysReg) (w : Word) : State :=
  { s with regs := fun r' ↦ if r' = r then w else s.regs r' }

def setWord (s : State) (a w : Word) : State := { s with mem := s.mem.storeWord a w }

@[simp]
theorem regs_setReg_self (s : State) (r : PhysReg) (w : Word) : (s.setReg r w).regs r = w :=
  if_pos rfl

theorem regs_setReg_of_ne (s : State) {r r' : PhysReg} (w : Word) (h : r' ≠ r) :
    (s.setReg r w).regs r' = s.regs r' := if_neg h

@[simp]
theorem setReg_regs (s : State) (r : PhysReg) : s.setReg r (s.regs r) = s := by
  have hregs : (s.setReg r (s.regs r)).regs = s.regs := by
    funext q
    by_cases hq : q = r
    · rw [hq, regs_setReg_self]
    · rw [regs_setReg_of_ne _ _ hq]
  exact congrArg (fun regs ↦ (⟨regs, s.mem, s.flags⟩ : State)) hregs

@[simp]
theorem mem_setReg (s : State) (r : PhysReg) (w : Word) : (s.setReg r w).mem = s.mem := rfl

@[simp]
theorem flags_setReg (s : State) (r : PhysReg) (w : Word) : (s.setReg r w).flags = s.flags := rfl

@[simp]
theorem regs_setWord (s : State) (a w : Word) : (s.setWord a w).regs = s.regs := rfl

@[simp]
theorem mem_setWord (s : State) (a w : Word) : (s.setWord a w).mem = s.mem.storeWord a w := rfl

@[simp]
theorem flags_setWord (s : State) (a w : Word) : (s.setWord a w).flags = s.flags := rfl

/-- Writes a whole word to a register or to memory. -/
def write (s : State) (w : Word) : Operand → Option State
  | .reg (.phys r) width => if width = 8 then some (s.setReg r w) else none
  | .mem m => (m.address s.reg).map fun a ↦ s.setWord a w
  | _ => none

/-- Whether there is a move of a word from one operand to the other: at most one of them is in
memory, and a constant fits 32 bits. -/
def isMovable (src dst : Operand) : Bool :=
  !(src.isMem && dst.isMem) &&
    match src with
    | .imm w => fitsImm32 w
    | _ => true

/-- One instruction. -/
def step (s : State) (i : Inst) : Option State :=
  match i.operands with
  | [src, dst] =>
    if i.mnemonic = "movq" ∧ isMovable src dst ∨
        i.mnemonic = "movabsq" ∧ !src.isMem ∧ dst.isReg then
      (src.value s.reg s.mem).bind (s.write · dst)
    else none
  | _ => none

/-- Instructions in order. -/
def run (is : List Inst) (s : State) : Option State := is.foldlM step s

@[simp]
theorem run_nil (s : State) : run [] s = some s := rfl

theorem run_cons (i : Inst) (is : List Inst) (s : State) :
    run (i :: is) s = (s.step i).bind (run is) := rfl

theorem run_append (is js : List Inst) (s : State) :
    run (is ++ js) s = (run is s).bind (run js) := List.foldlM_append

theorem step_movq {src dst : Operand} {s : State} {i : Inst} (hname : i.mnemonic = "movq")
    (hops : i.operands = [src, dst]) (h : isMovable src dst = true) :
    s.step i = (src.value s.reg s.mem).bind (s.write · dst) := by
  rw [step, hops]
  exact if_pos (Or.inl ⟨hname, h⟩)

theorem step_movabsq {w : Word} {r : PhysReg} {s : State} {i : Inst}
    (hname : i.mnemonic = "movabsq") (hops : i.operands = [.imm w, .phys r]) :
    s.step i = some (s.setReg r w) := by
  rw [step, hops]
  exact if_pos (Or.inr ⟨hname, rfl, rfl⟩)

end State

end TreeCover.Machine
