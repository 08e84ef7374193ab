import TreeCover.Assembly.EdgeCopies
import TreeCover.Proofs.Machine.Execution

/-!
# Places of virtual registers

An allocation gives every virtual register a place: a register that holds values, or a slot of its
own in the frame. What a virtual register has in a state of the machine is the content of its
place, and writing one place changes no other.
-/

namespace TreeCover

open Machine

/-- The operand that names a location. -/
def Location.operand : Location → Operand
  | register r => .phys r
  | stack slot => .mem slot

/-- Whether a displacement fits the 32 bits that an address has for it. -/
def IsDisplacement (d : Int) : Prop := -2147483648 ≤ d ∧ d < 2147483648

instance (d : Int) : Decidable (IsDisplacement d) := inferInstanceAs (Decidable (_ ∧ _))

/-- A location for values: a register that is handed out, or a slot of the frame. -/
def Location.IsHome : Location → Prop
  | register r => r ∈ PhysReg.allocatable
  | stack slot => ∃ d, slot = .frame d ∧ IsDisplacement d

/-- The address of a slot of the frame. -/
def slotAddress (s : State) (d : Int) : Word := s.regs .rbp + BitVec.ofInt 64 d

theorem address_frame (s : State) (d : Int) : (Mem.frame d).address s.reg = some (slotAddress s d) :=
  rfl

private theorem ofInt_sub_ofInt (d e : Int) :
    BitVec.ofInt 64 d - BitVec.ofInt 64 e = BitVec.ofInt 64 (d - e) := by
  apply BitVec.eq_of_toInt_eq
  rw [BitVec.toInt_sub, BitVec.toInt_ofInt, BitVec.toInt_ofInt, BitVec.toInt_ofInt]
  simp only [Int.bmod_sub_bmod, Int.sub_bmod_bmod]

private theorem le_toNat_ofInt {n : Int} (h : 8 ≤ n ∨ n ≤ -8) (hlo : -4294967296 ≤ n)
    (hhi : n ≤ 4294967296) : 8 ≤ (BitVec.ofInt 64 n).toNat := by
  rw [BitVec.toNat_ofInt]
  omega

/-- Slots that do not overlap have words that share no byte. -/
theorem apart_slots {d e : Int} (hd : IsDisplacement d) (he : IsDisplacement e)
    (h : d + 8 ≤ e ∨ e + 8 ≤ d) (b : Word) :
    Memory.Apart (b + BitVec.ofInt 64 d) (b + BitVec.ofInt 64 e) := by
  have hcancel : ∀ x y : Word, b + x - (b + y) = x - y := by
    intro x y
    rw [BitVec.add_comm b x, BitVec.add_comm b y]
    bv_omega
  obtain ⟨hd₁, hd₂⟩ := hd
  obtain ⟨he₁, he₂⟩ := he
  rw [Memory.Apart, hcancel, hcancel, ofInt_sub_ofInt, ofInt_sub_ofInt]
  exact ⟨le_toNat_ofInt (by omega) (by omega) (by omega),
    le_toNat_ofInt (by omega) (by omega) (by omega)⟩

namespace Allocation

variable {a : Allocation} {s s' : State} {vs : List VReg} {v u : VReg} {r : PhysReg} {d : Int}

/-- The word that a register has in a state; that of a virtual register is in its place. -/
def valueIn (a : Allocation) (s : State) : Reg → Option Word
  | .phys r => some (s.regs r)
  | .virt v => (a.location? v).bind fun l ↦ l.operand.value s.reg s.mem

theorem valueIn_of_register (h : a.location? v = some (.register r)) :
    a.valueIn s (.virt v) = some (s.regs r) := by
  rw [valueIn, h]
  rfl

theorem valueIn_of_slot (h : a.location? v = some (.stack (.frame d))) :
    a.valueIn s (.virt v) = some (s.mem.word (slotAddress s d)) := by
  rw [valueIn, h]
  rfl

/-- Every register of `vs` has a home, and slots of different registers do not overlap. -/
structure Places (a : Allocation) (vs : List VReg) : Prop where
  home : ∀ v ∈ vs, ∃ l, a.location? v = some l ∧ l.IsHome
  apart : ∀ u ∈ vs, ∀ v ∈ vs, u ≠ v → ∀ d e, a.location? u = some (.stack (.frame d)) →
    a.location? v = some (.stack (.frame e)) → d + 8 ≤ e ∨ e + 8 ≤ d

/-- The two kinds of places. -/
theorem Places.cases (h : a.Places vs) (hv : v ∈ vs) :
    (∃ r ∈ PhysReg.allocatable, a.location? v = some (.register r)) ∨
      ∃ d, a.location? v = some (.stack (.frame d)) ∧ IsDisplacement d := by
  obtain ⟨l, hl, hhome⟩ := h.home v hv
  cases l with
  | register r => exact Or.inl ⟨r, hhome, hl⟩
  | stack slot =>
    obtain ⟨d, rfl, hd⟩ := hhome
    exact Or.inr ⟨d, hl, hd⟩

theorem Places.isDisplacement (h : a.Places vs) (hv : v ∈ vs)
    (hd : a.location? v = some (.stack (.frame d))) : IsDisplacement d := by
  rcases h.cases hv with ⟨r, -, hr⟩ | ⟨e, he, hfit⟩
  · rw [hd] at hr
    exact absurd hr (by simp)
  · rw [hd, Option.some.injEq, Location.stack.injEq] at he
    obtain rfl : d = e := congrArg Mem.disp he
    exact hfit

theorem Places.apart_slots (h : a.Places vs) (hu : u ∈ vs) (hv : v ∈ vs)
    (hne : a.location? u ≠ a.location? v) {d e : Int}
    (hd : a.location? u = some (.stack (.frame d)))
    (he : a.location? v = some (.stack (.frame e))) :
    Memory.Apart (slotAddress s d) (slotAddress s e) := by
  have huv : u ≠ v := fun heq ↦ hne (by rw [heq])
  exact TreeCover.apart_slots (h.isDisplacement hu hd) (h.isDisplacement hv he)
    (h.apart u hu v hv huv d e hd he) _

/-- The place of a register as an operand. -/
def place (a : Allocation) : Reg → Operand
  | .phys r => .phys r
  | .virt v => ((a.location? v).map Location.operand).getD (.imm 0)

theorem place_virt {l : Location} (h : a.location? v = some l) :
    a.place (.virt v) = l.operand := by
  rw [place, h, Option.map_some, Option.getD_some]


end Allocation

end TreeCover
