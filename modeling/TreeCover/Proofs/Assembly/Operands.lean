import Mathlib.Data.List.Forall2
import TreeCover.Assembly.Placement
import TreeCover.Proofs.Assembly.Mirror

/-!
# Operands in their places

The operands of an instruction, once they are placed, give on the machine what they gave with
virtual registers: a register is read in its place, and an address is the same word, after the parts
of it that live in the frame have been loaded. One address is all that the two registers for it can
hold, so of all operands at most one may be in memory before placement.
-/

namespace TreeCover

open Machine Core

variable {a : Allocation} {vs : List VReg} {need : VReg → Nat} {carried : Bool} {s p p' : Core}
  {c : Callee} {r : Reg} {m : Mem} {o : Operand} {ops : List Operand} {scratch : PhysReg}

/-- The operand that accesses some bytes of a location. -/
def Location.access (width : Nat) : Location → Operand
  | register r => .reg (.phys r) width
  | stack slot => .mem slot

namespace Placement

/-- The registers of an address are known, and its virtual registers are needed as a whole. -/
def Legible (vs : List VReg) (need : VReg → Nat) (rs : List Reg) : Prop :=
  (∀ u, .virt u ∈ rs → u ∈ vs ∧ 8 ≤ need u) ∧ ∀ q, .phys q ∈ rs → q ∈ PhysReg.shared

theorem Legible.mono {rs rs' : List Reg} (h : Legible vs need rs) (hsub : rs' ⊆ rs) :
    Legible vs need rs' := ⟨fun u hu ↦ h.1 u (hsub hu), fun q hq ↦ h.2 q (hsub hq)⟩

/-- A placed operand gives on `p` what the operand gives on `s`. -/
def Presents (a : Allocation) (s p : Core) : Operand → Sized → Prop
  | .reg (.virt u) width, q => ∃ l, a.location? u = some l ∧ q = (l.access width, width)
  | .mem m, q => ∃ m', q = (.mem m', 8) ∧ p.address m' = s.address m ∧
      ∀ r ∈ m'.regs, ∃ q, r = .phys q ∧ q ≠ .rax
  | o, q => q = (o, 8)

/-- Part of an address is placed: it is in a register then. -/
theorem addressReg_ok (hplaces : a.Places vs) (h : a.Mirrors vs need carried s p) (c : Callee)
    (hr : Legible vs need [r]) (scratch : PhysReg) :
    ∃ loads q p', addressReg a r scratch = .ok (loads, .phys q) ∧ p.run c loads = some p' ∧
      AgreeBut [scratch] p p' ∧ p'.regs (.phys q) = s.regs r ∧
      q ∈ scratch :: (PhysReg.allocatable ++ PhysReg.shared) := by
  cases r with
  | phys q =>
    have hq := hr.2 q (List.mem_singleton_self _)
    exact ⟨[], q, p, rfl, rfl, .refl _ _, (h.shared q hq).symm,
      List.mem_cons_of_mem _ (List.mem_append_right _ hq)⟩
  | virt u =>
    obtain ⟨hu, hneed⟩ := hr.1 u (List.mem_singleton_self _)
    have hvalue : ∀ l, a.location? u = some l → p.content l = s.regs (.virt u) := fun l hl ↦
      (sameBytes_eight.mp ((h.virt u hu l hl).mono hneed)).symm
    rcases hplaces.cases hu with ⟨q, hq, hl⟩ | ⟨d, hl, -⟩
    · refine ⟨[], q, p, ?_, rfl, .refl _ _, hvalue _ hl,
        List.mem_cons_of_mem _ (List.mem_append_left _ hq)⟩
      rw [addressReg, Allocation.locate, hl]
      rfl
    · refine ⟨[.define "movq" [.mem (.frame d), .phys scratch]], scratch,
        p.setReg (.phys scratch) (p.content (.stack (.frame d))), ?_, ?_,
        .setReg (List.mem_singleton_self _), ?_, List.mem_cons_self⟩
      · rw [addressReg, Allocation.locate, hl]
        rfl
      · rw [run_cons, step_load rfl rfl]
        rfl
      · rw [regs_setReg_self, hvalue _ hl]

/-- An address is placed: it names the same word. -/
theorem address_ok (hplaces : a.Places vs) (h : a.Mirrors vs need carried s p) (c : Callee)
    (hm : Legible vs need m.regs) :
    ∃ loads m' p', address a m = .ok (loads, m') ∧ p.run c loads = some p' ∧
      AgreeBut [.r10, .r11] p p' ∧ p'.address m' = s.address m ∧
      ∀ r ∈ m'.regs, ∃ q, r = .phys q ∧ q ≠ .rax := by
  have hbase : Legible vs need [m.base] := hm.mono (by simp [Mem.regs])
  obtain ⟨loads, q, p₁, hplaced, hloads, hagree, hvalue, hq⟩ :=
    addressReg_ok hplaces h c hbase .baseScratch
  have hne : ∀ q ∈ PhysReg.baseScratch :: (PhysReg.allocatable ++ PhysReg.shared),
      q ≠ .rax ∧ q ∉ [PhysReg.indexScratch] := by decide
  have hne' : ∀ q ∈ PhysReg.indexScratch :: (PhysReg.allocatable ++ PhysReg.shared), q ≠ .rax := by
    decide
  cases hindex : m.index with
  | none =>
    refine ⟨loads, { m with base := .phys q }, p₁, ?_, hloads, hagree.mono (by decide), ?_, ?_⟩
    · simp only [address, hplaced, hindex, bind, Except.bind, pure, Except.pure]
    · rw [Core.address, hvalue, Core.address]
      simp only [hindex]
    · simpa [Mem.regs, hindex] using (hne q hq).1
  | some part =>
    obtain ⟨r, scale⟩ := part
    have hr : Legible vs need [r] := hm.mono (by simp [Mem.regs, hindex])
    have h₁ : a.Mirrors vs need false s p₁ :=
      h.agreeBut hplaces hagree (by decide) fun hc ↦ absurd hc Bool.false_ne_true
    obtain ⟨more, q', p₂, hplaced', hmore, hagree', hvalue', hq'⟩ :=
      addressReg_ok hplaces h₁ c hr .indexScratch
    -- the second load leaves the register of the base alone
    have hkept : p₂.regs (.phys q) = s.regs m.base := by rw [hagree'.regs q (hne q hq).2, hvalue]
    refine ⟨loads ++ more, { m with base := .phys q, index := some (.phys q', scale) }, p₂, ?_, ?_,
      (hagree.mono (by decide)).trans (hagree'.mono (by decide)), ?_, ?_⟩
    · simp only [address, hplaced, hindex, hplaced', bind, Except.bind, pure, Except.pure]
    · rw [run_append, hloads, Option.bind_some, hmore]
    · rw [Core.address, Core.address]
      simp only [hindex, hkept, hvalue']
    · simpa [Mem.regs] using ⟨(hne q hq).1, hne' q' hq'⟩

/-- An operand whose registers can be placed. -/
def OperandLegible (vs : List VReg) (need : VReg → Nat) : Operand → Prop
  | .reg (.virt u) _ => u ∈ vs
  | .mem m => Legible vs need m.regs
  | _ => True

/-- An operand that is not in memory needs no load. -/
theorem operand_ok (hplaces : a.Places vs) (ho : OperandLegible vs need o) (hmem : o.isMem = false)
    (s p : Core) : ∃ q, operand a o = .ok ([], q) ∧ Presents a s p o q := by
  cases o with
  | mem m => exact absurd hmem (by simp [Operand.isMem])
  | reg r width =>
    cases r with
    | phys q => exact ⟨_, rfl, rfl⟩
    | virt u =>
      obtain ⟨l, hl, -⟩ := hplaces.home u ho
      refine ⟨_, ?_, l, hl, rfl⟩
      rw [operand, Allocation.locate, hl]
      cases l <;> rfl
  | _ => exact ⟨_, rfl, rfl⟩

theorem operands_ok_of_not_mem (hplaces : a.Places vs) (hops : ∀ o ∈ ops, OperandLegible vs need o)
    (hmem : ∀ o ∈ ops, o.isMem = false) (s p : Core) :
    ∃ qs, operands a ops = .ok ([], qs) ∧ List.Forall₂ (Presents a s p) ops qs := by
  induction ops with
  | nil => exact ⟨[], rfl, .nil⟩
  | cons o ops ih =>
    rw [List.forall_mem_cons] at hops hmem
    obtain ⟨q, ho, hq⟩ := operand_ok hplaces hops.1 hmem.1 s p
    obtain ⟨qs, hoperands, hqs⟩ := ih hops.2 hmem.2
    refine ⟨q :: qs, ?_, .cons hq hqs⟩
    rw [operands, ho]
    change (operands a ops >>= fun x ↦ _) = _
    rw [hoperands]
    rfl

/-- Operands are placed: they give what they gave before. -/
theorem operands_ok (hplaces : a.Places vs) (h : a.Mirrors vs need carried s p) (c : Callee)
    (hops : ∀ o ∈ ops, OperandLegible vs need o) (hcount : ops.countP Operand.isMem ≤ 1) :
    ∃ loads qs p', operands a ops = .ok (loads, qs) ∧ p.run c loads = some p' ∧
      AgreeBut [.r10, .r11] p p' ∧ List.Forall₂ (Presents a s p') ops qs := by
  induction ops with
  | nil => exact ⟨[], [], p, rfl, rfl, .refl _ _, .nil⟩
  | cons o ops ih =>
    rw [List.forall_mem_cons] at hops
    cases hmem : o.isMem with
    | false =>
      obtain ⟨loads, qs, p', hoperands, hloads, hagree, hqs⟩ := ih hops.2
        (by simpa [List.countP_cons, hmem] using hcount)
      obtain ⟨q, ho, hq⟩ := operand_ok hplaces hops.1 hmem s p'
      refine ⟨loads, q :: qs, p', ?_, hloads, hagree, .cons hq hqs⟩
      rw [operands, ho]
      change (operands a ops >>= fun x ↦ _) = _
      rw [hoperands]
      rfl
    | true =>
      -- no other operand is in memory, so nothing else is loaded
      have hrest : ∀ o ∈ ops, o.isMem = false := by
        have hzero : ops.countP Operand.isMem = 0 := by
          rw [List.countP_cons, if_pos hmem] at hcount
          omega
        intro o ho
        exact Bool.eq_false_iff.mpr (List.countP_eq_zero.mp hzero o ho)
      cases o with
      | mem m =>
        obtain ⟨loads, m', p', haddress, hloads, hagree, hm', hrax⟩ :=
          address_ok hplaces h c hops.1
        obtain ⟨qs, hoperands, hqs⟩ := operands_ok_of_not_mem hplaces hops.2 hrest s p'
        refine ⟨loads, (.mem m', 8) :: qs, p', ?_, hloads, hagree,
          .cons ⟨m', rfl, hm', hrax⟩ hqs⟩
        have ho : operand a (.mem m) = .ok (loads, .mem m', 8) := by
          rw [operand, haddress]
          rfl
        rw [operands, ho]
        change (operands a ops >>= fun x ↦ _) = _
        rw [hoperands]
        change Except.ok (loads ++ [], _) = _
        rw [List.append_nil]
      | _ => exact absurd hmem (by simp [Operand.isMem])

/-! ## Scratch registers -/

/-- What operands give does not depend on `rax`. -/
theorem Presents.agreeBut {z : Sized} (h : Presents a s p o z) (hagree : AgreeBut [.rax] p p') :
    Presents a s p' o z := by
  cases o with
  | mem m =>
    obtain ⟨m', hz, haddress, hregs⟩ := h
    refine ⟨m', hz, ?_, hregs⟩
    rw [← haddress]
    refine Core.address_congr fun r hr ↦ ?_
    obtain ⟨q, rfl, hq⟩ := hregs r hr
    exact hagree.regs q (by simpa using hq)
  | reg r width =>
    cases r with
    | virt v => exact h
    | phys q => exact h
  | _ => exact h

end Placement

end TreeCover
