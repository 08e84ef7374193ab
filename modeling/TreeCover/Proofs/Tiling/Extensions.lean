import TreeCover.Proofs.Machine.Operations
import TreeCover.Proofs.Tiling.Expansion

/-!
# Extensions of narrow values

An extension looks at whole bytes: the width of the value is rounded up to an access size, except that a
single bit is masked out. So the bits above a value of an odd width are taken for part of it. Where no
move extends an access of that size, the move that zero-extends two bytes is emitted with an operand of
another size, and there is no such instruction.

Main statement: `applyRule_extend_iff`.
-/

namespace TreeCover

open Ir Machine Machine.Core Work

variable {c : Callee} {s : Core} {u v : VReg} {signed : Bool} {bits n : Nat} {x y : Word}

/-! ## Low bits -/

theorem getLsbD_extendLow {k : Nat} (hk : k < n) (hn : n ≤ 64) :
    (extendLow signed n x).getLsbD k = x.getLsbD k := by
  have hlow : (x.setWidth n).getLsbD k = x.getLsbD k := by
    rw [BitVec.getLsbD_setWidth, decide_eq_true hk, Bool.true_and]
  have hword : decide (k < 64) = true := decide_eq_true (Nat.lt_of_lt_of_le hk hn)
  rw [extendLow]
  cases signed with
  | true =>
    rw [if_pos rfl, BitVec.getLsbD_signExtend, hword, if_pos hk, Bool.true_and, hlow]
  | false =>
    rw [if_neg Bool.false_ne_true, BitVec.getLsbD_setWidth, hword, Bool.true_and, hlow]

/-- Only the low bits count. -/
theorem extendLow_congr (h : ∀ k < n, x.getLsbD k = y.getLsbD k) :
    extendLow signed n x = extendLow signed n y := by
  have hlow : x.setWidth n = y.setWidth n := by
    refine BitVec.eq_of_getLsbD_eq fun k hk ↦ ?_
    rw [BitVec.getLsbD_setWidth, BitVec.getLsbD_setWidth, h k hk]
  rw [extendLow, extendLow, hlow]

/-- Extensions of different numbers of bits differ somewhere. -/
theorem exists_extendLow_ne (signed : Bool) (hlt : bits < n) (hn : n ≤ 64) :
    ∃ x, extendLow signed n x ≠ extendLow signed bits x := by
  by_contra hall
  rw [not_exists_not] at hall
  -- the bit above the low ones does not count on the right
  have hlow : extendLow signed bits (BitVec.twoPow 64 bits) = extendLow signed bits 0 := by
    refine extendLow_congr fun k hk ↦ ?_
    rw [BitVec.getLsbD_twoPow, decide_eq_false (Nat.ne_of_lt hk).symm, Bool.and_false,
      BitVec.ofNat_eq_ofNat, BitVec.getLsbD_zero]
  have heq : extendLow signed n (BitVec.twoPow 64 bits) = extendLow signed n 0 :=
    (hall _).trans (hlow.trans (hall 0).symm)
  have hbit := congrArg (BitVec.getLsbD · bits) heq
  simp only [getLsbD_extendLow hlt hn, BitVec.getLsbD_twoPow, BitVec.ofNat_eq_ofNat,
    BitVec.getLsbD_zero] at hbit
  exact absurd hbit (by simp [Nat.lt_of_lt_of_le hlt hn])

/-! ## What is executed -/

namespace Machine.Core

theorem Puts.unique {is : List Inst} (h : Puts c is s v x) (h' : Puts c is s v y) : x = y := by
  obtain ⟨s₁, hrun, -, hx⟩ := h
  obtain ⟨s₂, hrun', -, hy⟩ := h'
  obtain rfl := Option.some.inj (hrun.symm.trans hrun')
  exact hx.symm.trans hy

/-- Whether some move extends an access that is large enough. -/
def extends? (signed : Bool) (bits : Nat) : Bool := bits ≤ 16 || bits == 32 || signed && bits ≤ 32

/-- Widths with one access size have one extension. -/
theorem extendInsts_congr (hbits : bits ≠ 1) (hn : n ≠ 1) (haccess : accessBytes bits = accessBytes n)
    (hclear : signed = true ∨ (bits = 32 ↔ n = 32)) :
    extendInsts signed bits u v = extendInsts signed n u v := by
  have hiff : (bits = 32 ∧ (!signed) = true) ↔ (n = 32 ∧ (!signed) = true) := by
    rcases hclear with rfl | hclear
    · simp
    · rw [hclear]
  rw [extendInsts, extendInsts, if_neg hbits, if_neg hn, haccess]
  exact if_congr hiff rfl rfl

/-- What the instructions of an extension compute: the low bits count, rounded up. -/
theorem puts_extendInsts (h : extends? signed bits = true) :
    Puts c (extendInsts signed bits u v) s v
      (extendLow signed (castBits bits) (s.regs (.virt u))) := by
  have hmachine : ∀ n ∈ [8, 16, 32], Puts c (extendInsts signed n u v) s v
      (extendLow signed n (s.regs (.virt u))) := by
    intro n hn
    have hlt : n < 64 ∧ n ∈ widths ∧ castBits n = n := by
      simp only [List.mem_cons, List.not_mem_nil, or_false] at hn
      rcases hn with rfl | rfl | rfl <;> decide
    have hputs := puts_extend (c := c) (s := s) (u := u) (v := v) signed hlt.2.1 hlt.1
    rwa [hlt.2.2] at hputs
  have hround : ∀ n ∈ [8, 16, 32], bits ≠ 1 → n = 8 * accessBytes bits →
      (signed = true ∨ (bits = 32 ↔ n = 32)) → Puts c (extendInsts signed bits u v) s v
        (extendLow signed (castBits bits) (s.regs (.virt u))) := by
    intro n hn hone haccess hclear
    have hsize : n ≠ 1 ∧ 8 * accessBytes n = n := by
      simp only [List.mem_cons, List.not_mem_nil, or_false] at hn
      rcases hn with rfl | rfl | rfl <;> decide
    rw [extendInsts_congr hone hsize.1 (by omega) hclear, castBits, if_neg hone, ← haccess]
    exact hmachine n hn
  rw [extends?, Bool.or_eq_true, Bool.or_eq_true, Bool.and_eq_true, decide_eq_true_iff, beq_iff_eq,
    decide_eq_true_iff] at h
  by_cases hone : bits = 1
  · subst hone
    exact puts_extend_one signed
  · rcases Nat.lt_or_ge 8 bits with hbyte | hbyte
    · rcases Nat.lt_or_ge 16 bits with hpair | hpair
      · have hhalf : bits ≤ 32 ∧ (signed = true ∨ (bits = 32 ↔ (32 : Nat) = 32)) := by
          rcases h with (h | h) | ⟨hsigned, h⟩
          · omega
          · exact ⟨Nat.le_of_eq h, Or.inr (by simp [h])⟩
          · exact ⟨h, Or.inl hsigned⟩
        exact hround 32 (by decide) hone (by rw [accessBytes]; split_ifs <;> omega) hhalf.2
      · exact hround 16 (by decide) hone (by rw [accessBytes]; split_ifs <;> omega)
          (Or.inr (by omega))
    · exact hround 8 (by decide) hone (by rw [accessBytes]; split_ifs <;> omega) (Or.inr (by omega))

/-- Without such a move there is no code that runs. -/
theorem run_extendInsts_of_not (h : extends? signed bits = false) :
    run c (extendInsts signed bits u v) s = none := by
  have hwide : 16 < bits ∧ bits ≠ 32 ∧ (signed = true → 32 < bits) := by
    rw [extends?, Bool.or_eq_false_iff, Bool.or_eq_false_iff, Bool.and_eq_false_iff,
      decide_eq_false_iff_not, beq_eq_false_iff_ne, decide_eq_false_iff_not] at h
    refine ⟨by omega, h.1.2, fun hsigned ↦ ?_⟩
    rcases h.2 with hfalse | hlt
    · exact absurd (hsigned.symm.trans hfalse) (by decide)
    · omega
  obtain ⟨n, hn, hinsts⟩ : ∃ n, n ≠ 2 ∧ extendInsts signed bits u v =
      [.intoReg (.define "movzwq" [.reg (.virt u) n, .vreg v])] := by
    have hbranches : bits ≠ 1 ∧ ¬ (bits = 32 ∧ (!signed) = true) :=
      ⟨by omega, fun heq ↦ hwide.2.1 heq.1⟩
    rw [extendInsts, if_neg hbranches.1, if_neg hbranches.2]
    rcases Nat.lt_or_ge 32 bits with hlong | hhalf
    · have haccess : accessBytes bits = 8 := by
        rw [accessBytes]
        split_ifs <;> omega
      rw [haccess]
      exact ⟨8, by decide, by cases signed <;> rfl⟩
    · have haccess : accessBytes bits = 4 := by
        rw [accessBytes]
        split_ifs <;> omega
      rw [haccess]
      cases signed with
      | true => exact absurd (hwide.2.2 rfl) (Nat.not_lt.mpr hhalf)
      | false => exact ⟨4, by decide, rfl⟩
  have hform : formOf "movzwq" 2 = some (.extend 2 id) := rfl
  have hread : s.read 2 (.reg (.virt u) n) = none := by
    rw [Core.read, if_neg hn]
  rw [hinsts, run_singleton, step_of_form "movzwq" [.reg (.virt u) n, .vreg v] rfl rfl (by decide)
    (by decide) hform, perform, if_pos (encodable_to_vreg rfl)]
  simp only [gather, use, Form.extend, hread, Option.bind_eq_bind, Option.bind_none]

/-- The widths of an extension whose code computes what it should are those of bits and of accesses
that some move extends. -/
theorem puts_extendInsts_iff (hpos : 0 < bits) (hlt : bits < 64) :
    (∀ s, Puts c (extendInsts signed bits u v) s v (extendLow signed bits (s.regs (.virt u)))) ↔
      bits ∈ [1, 8, 16, 32] := by
  constructor
  · intro hall
    by_contra hbits
    have hother : bits ≠ 1 ∧ bits ≠ 8 ∧ bits ≠ 16 ∧ bits ≠ 32 := by
      simpa [not_or] using hbits
    cases hextends : extends? signed bits with
    | false =>
      obtain ⟨s', hrun, -⟩ := hall ⟨fun _ ↦ 0, fun _ ↦ 0, default⟩
      exact absurd ((run_extendInsts_of_not hextends).symm.trans hrun) (by simp)
    | true =>
      have hround : bits < castBits bits ∧ castBits bits ≤ 64 := by
        rw [castBits, if_neg hother.1, accessBytes]
        split_ifs <;> omega
      obtain ⟨x, hx⟩ := exists_extendLow_ne signed hround.1 hround.2
      have hputs := puts_extendInsts hextends (c := c) (u := u) (v := v)
        (s := ⟨fun _ ↦ x, fun _ ↦ 0, default⟩)
      exact hx (hputs.unique (hall _))
  · intro hbits s
    have hkept : extends? signed bits = true ∧ castBits bits = bits := by
      simp only [List.mem_cons, List.not_mem_nil, or_false] at hbits
      rcases hbits with rfl | rfl | rfl | rfl <;> cases signed <;> decide
    have hputs := puts_extendInsts hkept.1 (c := c) (s := s) (u := u) (v := v)
    rwa [hkept.2] at hputs

end Machine.Core

/-! ## The action -/

section

variable {r : Rule} {id k : NodeId} {w : Workspace}

/-- The action of a cast draws a register and emits the extension into it. -/
theorem applyRule_extend (haction : r.action = if signed then .signExtend else .zeroExtend)
    (hkid : (w.forest.node id).kids.head? = some k)
    (hwidth : (w.forest.node (w.forest.owner k)).width = bits) (hlt : bits < 64)
    (rest : List Bound) :
    applyRule r id (.reg u :: rest) w = .ok (.reg w.code.vregs)
      ((extendInsts signed bits u w.code.vregs).foldl Workspace.emitted w.drawn) := by
  have hbits : firstKidWidth id w = .ok bits w := by
    refine bind_eq_ok.mpr ⟨w, w, get_eq_ok.mpr ⟨rfl, rfl⟩, pure_eq_ok.mpr ⟨?_, rfl⟩⟩
    rw [hkid, Option.map_some, hwidth, Option.getD_some]
  have hextend : emitExtension signed id u w = .ok (.reg w.code.vregs)
      ((extendInsts signed bits u w.code.vregs).foldl Workspace.emitted w.drawn) := by
    refine bind_eq_ok.mpr ⟨bits, w, hbits, ?_⟩
    rw [if_neg (Nat.not_le_of_lt hlt)]
    exact bind_eq_ok.mpr ⟨_, _, freshVReg_ok_iff.mpr ⟨rfl, rfl⟩,
      bind_eq_ok.mpr ⟨(), _, emitAll_ok_iff.mpr rfl, pure_eq_ok.mpr ⟨rfl, rfl⟩⟩⟩
  have hfirst : (leafResult r (.reg u :: rest) 0 >>= asReg r) w = .ok u w :=
    bind_eq_ok.mpr ⟨.reg u, w, leafResult_ok_iff.mpr ⟨rfl, rfl⟩, asReg_ok_iff.mpr ⟨rfl, rfl⟩⟩
  cases signed <;> rw [applyRule, haction] <;> exact hextend

/-- **Extensions of the widths of accesses are right.** The action of a cast of a value of fewer bits
than a word puts the extension of its low bits into a new register, whatever is above them, if the value
has one bit or fills an access that some move extends. For all other widths there are states in which
the code does something else or does not run. -/
theorem applyRule_extend_iff (haction : r.action = if signed then .signExtend else .zeroExtend)
    (hkid : (w.forest.node id).kids.head? = some k)
    (hwidth : (w.forest.node (w.forest.owner k)).width = bits) (hpos : 0 < bits) (hlt : bits < 64)
    (rest : List Bound) :
    ∃ w' is, applyRule r id (.reg u :: rest) w = .ok (.reg w.code.vregs) w' ∧ Emits w w' is ∧
      ∀ c, (∀ s, Puts c is s w.code.vregs (extendLow signed bits (s.regs (.virt u)))) ↔
        bits ∈ [1, 8, 16, 32] :=
  ⟨_, _, applyRule_extend haction hkid hwidth hlt rest, w.emits_drawn_foldl _,
    fun _ ↦ puts_extendInsts_iff hpos hlt⟩

end

/-! ## Sign extensions -/

def signExtension : Rule := ⟨"sext", .reg, Grammar.inst (.cast .sext) [.reg], 1, none, .signExtend⟩

theorem action_signExtension :
    signExtension.action = if true then .signExtend else .zeroExtend := rfl

theorem signExtension_mem_rules : signExtension ∈ Grammar.rules := by
  have hcasts : signExtension ∈ Grammar.casts := List.mem_cons_self
  simp only [Grammar.rules, List.mem_append]
  tauto

/-- The sign extension of an argument of some bits, with the argument in a register. -/
def extended (bits : Nat) : Workspace where
  code := { name := "f", blocks := [{ id := 0, succs := [] }], vregs := 1 }
  session := {}
  forest.nodes := #[{ op := .arg 0, width := bits },
    { op := .inst (.cast .sext), width := 64, kids := [0] }]

theorem kids_extended (bits : Nat) : ((extended bits).forest.node 1).kids.head? = some 0 := rfl

theorem width_extended (bits : Nat) :
    ((extended bits).forest.node ((extended bits).forest.owner 0)).width = bits := rfl

/-- Two bytes are extended. -/
theorem applyRule_extend_iff_16 :
    ((extended 16).forest.node 1).kids.head? = some 0 ∧
      ((extended 16).forest.node ((extended 16).forest.owner 0)).width = 16 ∧
      ∃ w' is, applyRule signExtension 1 [.reg 0] (extended 16) = .ok (.reg 1) w' ∧
        Emits (extended 16) w' is ∧
        ∀ c, (∀ s, Puts c is s 1 (extendLow true 16 (s.regs (.virt 0)))) ↔ 16 ∈ [1, 8, 16, 32] :=
  ⟨kids_extended 16, width_extended 16, applyRule_extend_iff action_signExtension (kids_extended 16)
    (width_extended 16) (by decide) (by decide) []⟩

/-- The instruction for six bytes does not run. -/
theorem extension_of_48_bits : signExtension ∈ Grammar.rules ∧
    ∃ w' is, applyRule signExtension 1 [.reg 0] (extended 48) = .ok (.reg 1) w' ∧
      Emits (extended 48) w' is ∧ ∀ c s, run c is s = none :=
  ⟨signExtension_mem_rules, _, _, applyRule_extend action_signExtension (kids_extended 48)
    (width_extended 48) (by decide) [], (extended 48).emits_drawn_foldl _,
    fun _ _ ↦ run_extendInsts_of_not (by decide)⟩

end TreeCover
