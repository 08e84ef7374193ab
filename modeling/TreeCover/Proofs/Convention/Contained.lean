import TreeCover.Proofs.Assembly.Pieces
import TreeCover.Proofs.Convention.Threads

/-!
# What placed code may write

The last operand of an instruction is the only one it may write. In placed code that is a scratch
register, the place of a virtual register, or the address of a store that selection emitted. So an
instruction that leaves the stack alone also leaves alone the frame pointer and every register that
holds values and is not in use.
-/

namespace TreeCover

open Machine Work Assembly

variable {a : Allocation} {i j : Inst} {is loads : List Inst} {o : Operand} {os : List Operand}
  {r r' : Reg} {q : PhysReg} {m m' : Mem} {z : Placement.Sized} {zs : List Placement.Sized}
  {w : Nat}

/-! ## Destinations -/

/-- The registers that placed code uses for values on their way: the scratch registers, and that for
the amount of a shift. -/
def Machine.PhysReg.passing : List PhysReg := [rax, rcx, r10, r11]

/-- An operand that placed code may write: a register in passing, or the place of a virtual
register. -/
inductive Allocation.Owns (a : Allocation) : Operand → Prop
  | passing {q : PhysReg} (hq : q ∈ PhysReg.passing) (width : Nat) : a.Owns (.reg (.phys q) width)
  | register {v : VReg} {q : PhysReg} (h : a.location? v = some (.register q)) (width : Nat) :
    a.Owns (.reg (.phys q) width)
  | slot {v : VReg} {m : Mem} (h : a.location? v = some (.stack m)) : a.Owns (.mem m)

/-- A placed instruction that leaves the stack alone and writes what it may, or is a store. -/
structure Machine.Inst.Contained (a : Allocation) (i : Inst) : Prop where
  plain : i.kind = .plain
  name : i.mnemonic ∉ ["call", "pushq", "popq"]
  target : ∀ o, i.operands.getLast? = some o →
    a.Owns o ∨ ∃ m bytes, o = .mem m ∧ i.StoresTo bytes m

/-- A contained instruction whose destination is a register. -/
structure Machine.Inst.Fetch (a : Allocation) (i : Inst) : Prop extends i.Contained a where
  isReg : i.operands.getLast?.any Operand.isReg = true

theorem Machine.Inst.Contained.of_last (hkind : i.kind = .plain)
    (hname : i.mnemonic ∉ ["call", "pushq", "popq"]) (hlast : i.operands.getLast? = some o)
    (ho : a.Owns o) : i.Contained a :=
  ⟨hkind, hname, fun o' ho' ↦ by
    obtain rfl := Option.some.inj (hlast.symm.trans ho')
    exact Or.inl ho⟩

theorem fetch_define {mnemonic : String} (hname : mnemonic ∉ ["call", "pushq", "popq"])
    (src : Operand) (hq : q ∈ PhysReg.passing) (width : Nat) :
    (Inst.define mnemonic [src, .reg (.phys q) width]).Fetch a :=
  ⟨.of_last rfl hname rfl (.passing hq width), rfl⟩

namespace Placement

theorem moveMnemonic_plain (n : Nat) : moveMnemonic n ∉ ["call", "pushq", "popq"] := by
  unfold moveMnemonic
  split <;> decide

theorem fetchFirst_fetch (zs : List Sized) : ∀ i ∈ (fetchFirst zs).1, i.Fetch a := by
  induction zs with
  | nil => exact fun _ hi ↦ absurd hi List.not_mem_nil
  | cons z zs ih =>
    obtain ⟨o, width⟩ := z
    rw [fetchFirst]
    split
    · exact List.forall_mem_singleton.mpr
        (fetch_define (moveMnemonic_plain width) o (by decide) width)
    · exact ih

theorem length_fetchFirst (zs : List Sized) : (fetchFirst zs).2.length = zs.length := by
  induction zs with
  | nil => rfl
  | cons z zs ih =>
    obtain ⟨o, width⟩ := z
    rw [fetchFirst]
    split
    · rfl
    · exact congrArg Nat.succ ih

/-- The first of two operands in memory is not the last one. -/
theorem getLast?_fetchFirst (h : 1 < zs.countP (·.1.isMem)) :
    (fetchFirst zs).2.getLast? = zs.getLast? := by
  induction zs with
  | nil => exact absurd h (by simp)
  | cons z zs ih =>
    obtain ⟨o, width⟩ := z
    rw [fetchFirst]
    by_cases ho : o.isMem = true
    · rw [if_pos ho]
      have hne : zs ≠ [] := by
        rintro rfl
        simp [ho] at h
      change List.getLast? (_ :: zs) = _
      rw [List.getLast?_cons_of_ne_nil hne, List.getLast?_cons_of_ne_nil hne]
    · rw [if_neg ho]
      rw [List.countP_cons_of_neg (by simpa using ho)] at h
      have hne : zs ≠ [] := by
        rintro rfl
        exact absurd h (by simp)
      have hne' : (fetchFirst zs).2 ≠ [] := by
        rw [ne_eq, ← List.length_eq_zero_iff, length_fetchFirst, List.length_eq_zero_iff]
        exact hne
      change List.getLast? (_ :: (fetchFirst zs).2) = _
      rw [List.getLast?_cons_of_ne_nil hne, List.getLast?_cons_of_ne_nil hne', ih h]

theorem repairMemory_ok (zs : List Sized) : (∀ i ∈ (repairMemory zs).1, i.Fetch a) ∧
    (repairMemory zs).2.length = zs.length ∧ (repairMemory zs).2.getLast? = zs.getLast? := by
  rw [repairMemory]
  split
  next h => exact ⟨fetchFirst_fetch zs, length_fetchFirst zs, getLast?_fetchFirst h⟩
  next => exact ⟨fun _ hi ↦ absurd hi List.not_mem_nil, rfl, rfl⟩

/-- Either the operands stay as they are, and the last one is a register if it has to be, or `rax`
takes the place of the last one. -/
theorem repairDestination_cases (i : Inst) (zs : List Sized) :
    repairDestination i zs = ⟨[], zs, []⟩ ∧
        (i.needsRegDst = true → i.effect ≠ .none → ∀ z, zs.getLast? = some z → z.1.isMem = false) ∨
      i.effect ≠ .none ∧ ∃ front slot width, zs = front ++ [(.mem slot, width)] ∧
        repairDestination i zs =
          { before := if i.effect = .update then [.define "movq" [.mem slot, .phys .rax]] else []
            operands := front ++ [(.reg (.phys .rax) width, width)]
            after := [{ mnemonic := "movq", operands := [.phys .rax, .mem slot] }] } := by
  rw [repairDestination]
  split
  next slot width hlast =>
    obtain ⟨front, rfl⟩ := List.getLast?_eq_some_iff.mp hlast
    split
    next h =>
      rw [Bool.and_eq_true, decide_eq_true_iff] at h
      exact Or.inr ⟨h.2, front, slot, width, rfl, by rw [List.dropLast_concat]; rfl⟩
    next h =>
      refine Or.inl ⟨rfl, fun hneeds heffect ↦ ?_⟩
      rw [Bool.and_eq_true, decide_eq_true_iff] at h
      exact absurd ⟨hneeds, heffect⟩ h
  next hlast =>
    refine Or.inl ⟨rfl, fun _ _ z hz ↦ ?_⟩
    obtain ⟨o, width⟩ := z
    cases o with
    | mem m => exact absurd hz (hlast m width)
    | _ => rfl

/-! ## Instructions -/

end Placement

end TreeCover
