import Mathlib.Data.Nat.Init
import TreeCover.Proofs.Flow.Layout
import TreeCover.Proofs.Liveness.Build
import TreeCover.Proofs.Liveness.Definedness

/-!
# Intervals in any layout

In tidy code a register is written in one block or on the edges into one block, and that block
dominates all reads. If the register is live over no edge that leads backwards, but those that close
a loop, its interval covers every position at which it is live, whatever else the layout does.

The loops around which the register is live are what has to be watched, for their blocks could stand
in front of the header, where the stretch does not come. But nothing in such a loop writes the
register, so it is live over all edges of the loop, and the loop stands behind its header.
-/

namespace TreeCover

open Machine

variable {blocks : List Block} {block : Block} {exempt : VReg → Prop} {v : VReg}
  {a b d e h i t u : Nat}

/-! ## What the sets say -/

theorem instsAt_of_getElem? (hblock : blocks[b]? = some block) : instsAt blocks b = block.insts := by
  rw [instsAt, hblock, Option.map_some, Option.getD_some]

theorem phisAt_of_getElem? (hblock : blocks[b]? = some block) : phisAt blocks b = block.phis := by
  rw [phisAt, hblock, Option.map_some, Option.getD_some]

theorem isPhiOf_iff_of_getElem? (hblock : blocks[b]? = some block) :
    IsPhiOf blocks b v ↔ v ∈ block.phis.map (·.dst) := by
  rw [IsPhiOf, phisAt_of_getElem? hblock, List.mem_map]

/-- A block without writes between two points passes liveness on. -/
theorem LiveAt.back (hlive : LiveAt blocks v b block.insts.length) (hblock : blocks[b]? = some block)
    (hi : i ≤ block.insts.length) (hnot : ∀ inst ∈ block.insts, v ∉ inst.defs) :
    LiveAt blocks v b i := by
  induction hi using Nat.decreasingInduction with
  | self => exact hlive
  | of_succ i hi ih =>
    exact .pass hblock (List.getElem?_eq_getElem hi) (hnot _ (List.getElem_mem hi)) ih

/-- What is in the set before an instruction is live there, if what is in the exit set is. -/
theorem liveAt_of_mem_liveThrough (hblock : blocks[b]? = some block)
    (hexit : v ∈ exitSet blocks b block → LiveAt blocks v b block.insts.length)
    (hi : i ≤ block.insts.length)
    (hv : v ∈ liveThrough (block.insts.drop i) (exitSet blocks b block)) :
    LiveAt blocks v b i := by
  induction hi using Nat.decreasingInduction with
  | self =>
    rw [List.drop_length] at hv
    exact hexit hv
  | of_succ i hi ih =>
    have hinst := List.getElem?_eq_getElem hi
    rw [List.drop_eq_getElem_cons hi] at hv
    rcases (mem_liveBefore (nodup_liveThrough (nodup_exitSet _ _ _) _)).mp hv with ⟨hv, hdef⟩ | huse
    · exact .pass hblock hinst hdef (ih hv)
    · exact .read hblock hinst huse

theorem exists_block_of_mem_entrySet (hv : v ∈ entrySet blocks b) :
    ∃ block, blocks[b]? = some block := by
  by_contra hnone
  have hlen : (blocks.drop b) = [] :=
    List.drop_eq_nil_of_le (List.getElem?_eq_none_iff.mp (Option.eq_none_iff_forall_ne_some.mpr
      fun block hblock ↦ hnone ⟨block, hblock⟩))
  rw [entrySet, ← Nat.add_zero b, ← List.getElem?_drop, drop_entrySets, hlen] at hv
  exact List.not_mem_nil hv

/-- What is in the set at the start of a block is live there, and no phi of the block writes it. -/
theorem liveAt_of_mem_entrySet (hv : v ∈ entrySet blocks b) :
    LiveAt blocks v b 0 ∧ ¬ IsPhiOf blocks b v := by
  -- The sets of later blocks come first, as in the pass.
  induction hn : blocks.length - b using Nat.strongRecOn generalizing b with
  | _ n ih =>
    obtain ⟨block, hblock⟩ := exists_block_of_mem_entrySet hv
    obtain ⟨hlive, hphi⟩ := (mem_entrySet hblock).mp hv
    refine ⟨liveAt_of_mem_liveThrough hblock (fun hexit ↦ ?_) (Nat.zero_le _) hlive,
      mt (isPhiOf_iff_of_getElem? hblock).mp hphi⟩
    obtain ⟨s, hs, ⟨hlt, hentry⟩ | ⟨succ, hsucc, hin⟩⟩ := mem_exitSet.mp hexit
    · have hlen := (List.getElem?_eq_some_iff.mp hblock).1
      obtain ⟨succ, hsucc⟩ := exists_block_of_mem_entrySet hentry
      obtain ⟨hlive, hphi⟩ := ih (blocks.length - s) (by omega) hentry rfl
      exact .edge hblock hs hsucc (mt (isPhiOf_iff_of_getElem? hsucc).mpr hphi) hlive
    · obtain ⟨phi, hphi, hfrom⟩ := List.mem_flatMap.mp hin
      obtain ⟨operand, hoperand, hmem⟩ := List.mem_flatMap.mp hfrom
      obtain ⟨⟨operand, p⟩, hinput, rfl⟩ := List.mem_map.mp hoperand
      obtain ⟨hincoming, hp⟩ := List.mem_filter.mp hinput
      obtain rfl := beq_iff_eq.mp hp
      exact .input hblock hs hsucc hphi hincoming hmem

/-! ## Where a live register was written -/

/-- Block `d` gives `v` its value, in an instruction or by its phis. -/
def Makes (blocks : List Block) (d : Nat) (v : VReg) : Prop :=
  WritesIn blocks d v ∨ IsPhiOf blocks d v

theorem Tidy.makes_unique (htidy : Tidy blocks exempt) (hd : Makes blocks d v)
    (he : Makes blocks e v) : d = e := by
  rcases hd with hd | hd <;> rcases he with he | he
  · exact htidy.block_unique d e v hd he
  · exact absurd he (htidy.not_phi d e v hd)
  · exact absurd hd (htidy.not_phi e d v he)
  · exact htidy.phi_unique d e v hd he

/-- An exempt register is read only where the block that writes it dominates. -/
def ReadsBelow (blocks : List Block) (exempt : VReg → Prop) (v : VReg) : Prop :=
  exempt v → ∀ e b, WritesIn blocks e v → ReadsIn blocks b v → (blockGraph blocks).Dominates e b

theorem ReadsBelow.of_supplied (hbelow : ReadsBelow blocks exempt v) (hread : ReadsIn blocks b v)
    (h : Supplied blocks exempt b v) :
    IsPhiOf blocks b v ∨
      ∃ d, d ≠ b ∧ Makes blocks d v ∧ (blockGraph blocks).Dominates d b := by
  rcases h with ⟨e, hne, hw, hdom⟩ | ⟨d, hphi, hdom⟩
  · exact Or.inr ⟨e, hne, Or.inl hw, hdom.elim id fun hv ↦ hbelow hv e b hw hread⟩
  · by_cases hdb : d = b
    · exact Or.inl (hdb ▸ hphi)
    · exact Or.inr ⟨d, hdb, Or.inr hphi, hdom⟩

/-- In tidy code, where a register is live it was written before in the block, by a phi of the block,
or in a block that dominates it. -/
theorem LiveAt.made (hlive : LiveAt blocks v b i) (htidy : Tidy blocks exempt)
    (hbelow : ReadsBelow blocks exempt v) :
    (∃ inst ∈ (instsAt blocks b).take i, v ∈ inst.defs) ∨ IsPhiOf blocks b v ∨
      ∃ d, d ≠ b ∧ Makes blocks d v ∧ (blockGraph blocks).Dominates d b := by
  induction hlive with
  | @read b i block inst hblock hinst huse =>
    have hinst' : (instsAt blocks b)[i]? = some inst := by rwa [instsAt_of_getElem? hblock]
    refine (htidy.reads b i inst hinst' v huse).imp_right (hbelow.of_supplied (Or.inl ⟨inst, ?_, huse⟩))
    exact List.mem_of_getElem? hinst'
  | @pass b i block inst hblock hinst hdef _ ih =>
    refine ih.imp_left fun ⟨inst', hmem, hv⟩ ↦ ⟨inst', ?_, hv⟩
    rw [instsAt_of_getElem? hblock, List.take_add_one, hinst, Option.toList_some,
      List.mem_append, List.mem_singleton] at hmem
    rw [instsAt_of_getElem? hblock]
    exact hmem.resolve_right fun heq ↦ hdef (heq ▸ hv)
  | @input b s block succ phi operand hblock hs hsucc hphi hin hv =>
    have hhands : Hands blocks b s v :=
      ⟨phi, by rwa [phisAt_of_getElem? hsucc], operand, hin, hv⟩
    have hread : ReadsIn blocks b v := Or.inr ⟨s, edge_blockGraph hblock hs hsucc, hhands⟩
    refine (htidy.hands b s v hhands).imp (fun hw ↦ ?_) (hbelow.of_supplied hread)
    rwa [instsAt_of_getElem? hblock, List.take_length, ← instsAt_of_getElem? hblock]
  | @edge b s block succ hblock hs hsucc hdst _ ih =>
    rcases ih with ⟨_, hmem, -⟩ | hphi | ⟨d, hne, hmakes, hdom⟩
    · exact absurd hmem List.not_mem_nil
    · exact absurd ((isPhiOf_iff_of_getElem? hsucc).mp hphi) hdst
    · have hdom := hdom.of_edge hne (edge_blockGraph hblock hs hsucc)
      by_cases hdb : d = b
      · subst hdb
        rw [instsAt_of_getElem? hblock, List.take_length, ← instsAt_of_getElem? hblock]
        exact hmakes.imp_right Or.inl
      · exact Or.inr (Or.inr ⟨d, hdb, hmakes, hdom⟩)

/-! ## Around a loop -/

section Loop

variable (htidy : Tidy blocks exempt) (hbelow : ReadsBelow blocks exempt v)
  (hred : (Loops.of (blockGraph blocks)).Reducible)
  (hback : (t, h) ∈ (Loops.of (blockGraph blocks)).backEdges) (hentry : v ∈ entrySet blocks h)

include htidy hbelow hred hback hentry

/-- No block of a loop gives a value to what its header expects from outside. -/
theorem not_makes_of_mem_loopBody (hx : b ∈ (blockGraph blocks).loopBody t h)
    (hreach : (blockGraph blocks).Reachable b) : ¬ Makes blocks b v := by
  intro hmakes
  obtain ⟨-, hedge⟩ := FlowGraph.edge_of_mem_backEdges hback
  have hdom := FlowGraph.dominates_of_mem_loopBody (hred t h hback) hedge.source_lt_length hx
  obtain ⟨hlive, hphi⟩ := liveAt_of_mem_entrySet hentry
  rcases hlive.made htidy hbelow with ⟨_, hmem, -⟩ | hphi' | ⟨d, hne, hmakes', hdom'⟩
  · exact absurd hmem List.not_mem_nil
  · exact hphi hphi'
  · obtain rfl := htidy.makes_unique hmakes hmakes'
    exact hne (FlowGraph.Dominates.antisymm hreach hdom' hdom)

/-- What a header expects is live throughout its loop. -/
theorem liveOver_of_mem_loopBody (hx : b ∈ (blockGraph blocks).loopBody t h)
    (hreach : (blockGraph blocks).Reachable a) (hab : (blockGraph blocks).Edge a b) :
    LiveOver blocks v a b := by
  obtain ⟨-, hclosing⟩ := FlowGraph.edge_of_mem_backEdges hback
  have hlive := liveAt_of_mem_entrySet hentry
  have hgraph : ∀ {x}, x < (blockGraph blocks).length → ∃ block, blocks[x]? = some block := by
    intro x hx
    rw [blockGraph, List.length_map] at hx
    exact ⟨_, List.getElem?_eq_getElem hx⟩
  -- from the end of a block of the loop back to its start
  have hstart : ∀ {x s}, (blockGraph blocks).Reachable x → x ∈ (blockGraph blocks).loopBody t h →
      (blockGraph blocks).Edge x s → LiveAt blocks v s 0 → ¬ IsPhiOf blocks s v →
      LiveAt blocks v x 0 ∧ ¬ IsPhiOf blocks x v := by
    intro x s hreach hx hedge hlive hphi
    have hnot := not_makes_of_mem_loopBody htidy hbelow hred hback hentry hx hreach
    obtain ⟨block, hblock⟩ := hgraph hedge.source_lt_length
    obtain ⟨succ, hsucc⟩ := hgraph hedge.lt_length
    have hs : s ∈ block.succs := by
      have := hedge.1
      rwa [FlowGraph.succs, blockGraph, List.getElem?_map, hblock] at this
    have hend : LiveAt blocks v x block.insts.length :=
      .edge hblock hs hsucc (mt (isPhiOf_iff_of_getElem? hsucc).mpr hphi) hlive
    refine ⟨hend.back hblock (Nat.zero_le _) fun inst hinst hv ↦ hnot (Or.inl ⟨inst, ?_, hv⟩),
      fun hphi ↦ hnot (Or.inr hphi)⟩
    rwa [instsAt_of_getElem? hblock]
  have hall : LiveAt blocks v b 0 ∧ ¬ IsPhiOf blocks b v := by
    have hb := hreach.step hab
    rcases (FlowGraph.mem_loopBody_iff hclosing.source_lt_length).mp hx with rfl | hlead
    · exact hlive
    · clear hab
      induction hlead using Relation.ReflTransGen.head_induction_on with
      | refl => exact hstart hb hx hclosing hlive.1 hlive.2
      | @head x s hstep hlead ih =>
        have hs := (FlowGraph.mem_loopBody_iff hclosing.source_lt_length).mpr (Or.inr hlead)
        obtain ⟨hlive, hphi⟩ := ih hs (hb.step hstep.1)
        exact hstart hb hx hstep.1 hlive hphi
  obtain ⟨succ, hsucc⟩ := hgraph hab.lt_length
  exact ⟨hab, hall.1, succ, hsucc, mt (isPhiOf_iff_of_getElem? hsucc).mpr hall.2⟩

end Loop

namespace Liveness

/-- **Soundness in any layout.** In tidy code with reducible loops, the interval of a register covers
every position at which it is live or written, if the register is live over no edge that leads
backwards without closing a loop. -/
theorem covers_of_tidy (vregs : Nat) (htidy : Tidy blocks exempt)
    (hbelow : ReadsBelow blocks exempt v) (hred : (Loops.of (blockGraph blocks)).Reducible)
    (hturns : TurnsAtLoops blocks v) (hreach : (blockGraph blocks).Reachable b)
    (hblock : blocks[b]? = some block) {inst : Inst} (hinst : block.insts[i]? = some inst) :
    (LiveAt blocks v b i → (build blocks (Loops.of (blockGraph blocks)) vregs).Covers v
      (2 * (firstInst blocks b + i))) ∧
    (v ∈ inst.defs ∨ LiveAt blocks v b (i + 1) →
      (build blocks (Loops.of (blockGraph blocks)) vregs).Covers v
        (2 * (firstInst blocks b + i) + 1)) := by
  refine covers_of_turnsAtLoops hturns hreach hblock (fun t h hback hbody hv ↦ ?_) hinst
  refine Loops.le_of_mem_loopBody hred hback (fun u x hu _ hx _ hedge ↦ ?_) hbody hreach
  exact hturns u x hu (liveOver_of_mem_loopBody htidy hbelow hred hback hv hx hu hedge)

end Liveness

end TreeCover
