import TreeCover.Proofs.Tiling.Selection

/-!
# Reads of selected code

In the code that is selected for a function in static single assignment form, every read is of a
register that was written before, with two exceptions. An address of an alloca that was computed in one
block is reused in blocks that this block does not dominate; and a phi of the entry has no value when
control comes in. Main statement: `selected_readsDefined`.
-/

namespace TreeCover

open Ir Machine Work

variable {f : Func} {trees : List (List NodeId)} {w₀ w : Workspace} {s : Session} {u : Unit}

/-- Selected code is tidy. -/
theorem Selecting.tidy (hp : Planted f trees w₀)
    (h : Selecting trees w₀ [] w.code w.forest) : Tidy w.code.blocks w.forest.HoldsAlloca where
  reads := h.draft.reads
  hands b s v hhands := by
    obtain ⟨dst, o, hfeeds, hv⟩ := hhands.exists_feeds
    exact (h.draft.feeds b s dst o hfeeds v hv).symm
  block_unique := h.draft.block_unique
  phi_unique d d' v hd hd' :=
    hp.declared.blank.unique d d' v ((h.draft.phis d v).mp hd) ((h.draft.phis d' v).mp hd')
  not_phi e d v hw hphi := Nat.not_lt.mpr (h.draft.range e v hw).1
    (hp.declared.blank.bound d v ((h.draft.phis d v).mp hphi))

/-- A block that control leaves ends in a branch. -/
theorem exists_branch_of_edge {a b : BlockId} (h : f.graph.Edge a b) :
    b ∈ f.succsOf a ∧ ∃ x ∈ f.blockInsts a, x.2.opcode.isTerminator = true := by
  obtain ⟨hmem, -⟩ := h
  rw [FlowGraph.succs, Func.graph, Func.succs, List.getElem?_map] at hmem
  refine ⟨hmem, ?_⟩
  cases hblock : f.blocks[a]? with
  | none => simp [hblock] at hmem
  | some block =>
    simp only [hblock, Option.map_some, Option.getD_some, Ir.Block.succs] at hmem
    cases hlast : block.insts.getLast? with
    | none => simp [hlast] at hmem
    | some i =>
      simp only [hlast] at hmem
      split at hmem
      next hbr =>
        obtain ⟨k, hk⟩ := List.mem_iff_getElem?.mp (List.mem_of_getLast? hlast)
        exact ⟨(f.firstInst a + k, i), Func.mem_blockInsts.mpr ⟨block, k, hblock, hk, rfl⟩, by
          rw [hbr]; rfl⟩
      next => exact absurd hmem List.not_mem_nil

/-- Every edge feeds the phis it leads to. -/
theorem Selecting.writesOn (hp : Planted f trees w₀) (hlength : trees.length = f.blocks.length)
    (h : Selecting trees w₀ [] w.code w.forest) {a b : BlockId} {v : VReg}
    (hedge : (blockGraph w.code.blocks).Edge a b) (hphi : IsPhiOf w.code.blocks b v) :
    WritesOn w.code.blocks a b v := by
  rw [h.graph hp] at hedge
  obtain ⟨hsucc, x, hx, hterm⟩ := exists_branch_of_edge hedge
  obtain ⟨phi, hphi, k, hk, his⟩ := hp.declared.source b v ((h.draft.phis b v).mp hphi)
  have ha : a < trees.length := by
    have hlt := hedge.source_lt_length
    rwa [Func.graph, Func.succs, List.length_map, ← hlength] at hlt
  obtain ⟨r, hr, k', kid, hmove⟩ :=
    (hp.block a _ (List.getElem?_eq_getElem ha)).moves hx hterm hsucc hphi
  obtain ⟨_, _, _, _, _, _, _, -, -, hk', hmove', -⟩ :=
    (hp.building.nodes r hmove.1).shape.of_phiMove (Node.op_of_core hmove.2)
  have heq := hmove.eq hmove'
  obtain rfl := Option.some.inj (congrArg Node.source heq : _)
  obtain ⟨rfl, -⟩ := Prod.mk.inj (Option.some.inj (congrArg Node.phiTarget heq : _))
  obtain rfl := Option.some.inj (hk.symm.trans hk')
  obtain ⟨v', o, hslot, hfeeds⟩ := h.fed r (List.mem_flatten.mpr ⟨_, List.getElem_mem ha, hr⟩)
    List.not_mem_nil _ _ _ _ _ _ hmove
  obtain rfl := Slot.vreg.inj ((Node.slot_of_core his.2).symm.trans hslot)
  exact hfeeds.writesOn

/-- **Reads.** In the code selected for a function in static single assignment form, everything that is
read on a path from the entry was written before on that path, exactly if nothing reads a phi of the
entry, and the address of an alloca is read only where the block that computed it dominates. -/
theorem selected_readsDefined (hssa : f.IsSsa)
    (hx : (buildForest f >>= selectAll) (.start f s) = .ok u w) :
    ReadsDefined w.code.blocks ↔
      (∀ b v, f.graph.Reachable b → ReadsIn w.code.blocks b v → ¬ IsPhiOf w.code.blocks 0 v) ∧
      ∀ v, w.forest.HoldsAlloca v → ∀ e b, WritesIn w.code.blocks e v →
        ReadsIn w.code.blocks b v → f.graph.Dominates e b := by
  obtain ⟨trees, w₀, hbuild, hselect⟩ := bind_eq_ok.mp hx
  obtain ⟨hp, hlength⟩ := buildForest_planted hbuild
  have h := Selecting.selectAll hp hssa hlength hselect
  have hiff := (h.tidy hp).readsDefined_iff fun a b hedge v ↦ h.writesOn hp hlength hedge
  rwa [h.graph hp] at hiff

/-! ## An address that is shared -/

/-- A function that takes the address of an alloca in two blocks of which neither dominates the
other. -/
def siblings : Func where
  name := "f"
  ret := .int 64
  params := [⟨"c", .int 64⟩]
  blocks := [
    ⟨"entry", [⟨some "p", .int 64, .alloca⟩, ⟨some "q", .ptr, .alloca⟩,
      ⟨some "t", .int 1, .icmp .eq (.value (.arg 0)) (.int 0 64)⟩,
      ⟨none, .void, .condBr (.value (.inst 2)) 1 2⟩]⟩,
    ⟨"left", [⟨none, .ptr, .store (.value (.inst 0)) (.value (.inst 1))⟩, ⟨none, .void, .br 3⟩]⟩,
    ⟨"right", [⟨none, .int 64, .store (.int 7 64) (.value (.inst 0))⟩, ⟨none, .void, .br 3⟩]⟩,
    ⟨"join", [⟨none, .int 64, .ret (some (.int 0 64))⟩]⟩]

theorem isSsa_siblings : siblings.IsSsa := Func.isSsa_of_isNear (by decide)

/-- The entry writes register 0 only, and the block on the right has no phis and starts with a read of
register 1. -/
def readsRegisterOne (blocks : List Machine.Block) : Bool :=
  (instsAt blocks 0).all (fun i ↦ i.defs.all (· = 0)) && (phisAt blocks 2).isEmpty &&
    ((instsAt blocks 2)[0]?.any fun i ↦ i.uses.contains 1) &&
    blocks.map (·.succs) = siblings.succs

theorem siblings_selected : ∃ w, (buildForest siblings >>= selectAll) (.start siblings {}) = .ok () w ∧
    readsRegisterOne w.code.blocks = true := by
  have hcheck : succeeds (fun _ w ↦ readsRegisterOne w.code.blocks)
      ((buildForest siblings >>= selectAll) (.start siblings {})) = true := by decide +kernel
  obtain ⟨_, w, hx, hreads⟩ := exists_of_succeeds hcheck
  exact ⟨w, hx, hreads⟩

theorem siblings_reads : siblings.IsSsa ∧
    ∃ w, (buildForest siblings >>= selectAll) (.start siblings {}) = .ok () w ∧
      (ReadsDefined w.code.blocks ↔
        (∀ b v, siblings.graph.Reachable b → ReadsIn w.code.blocks b v →
          ¬ IsPhiOf w.code.blocks 0 v) ∧
        ∀ v, w.forest.HoldsAlloca v → ∀ e b, WritesIn w.code.blocks e v →
          ReadsIn w.code.blocks b v → siblings.graph.Dominates e b) := by
  obtain ⟨w, hx, -⟩ := siblings_selected
  exact ⟨isSsa_siblings, w, hx, selected_readsDefined isSsa_siblings hx⟩

/-- The register that the block on the left computes is read on the right, where nothing wrote it. -/
theorem siblings_undefined : siblings.IsSsa ∧
    (∀ b < siblings.blocks.length, siblings.graph.Reachable b) ∧
    ∃ w, (buildForest siblings >>= selectAll) (.start siblings {}) = .ok () w ∧
      ¬ ReadsDefined w.code.blocks := by
  have hentry := FlowGraph.Reachable.entry siblings.graph
  have hleft : siblings.graph.Reachable 1 := hentry.step ⟨by decide, by decide⟩
  have hright : siblings.graph.Reachable 2 := hentry.step ⟨by decide, by decide⟩
  have hjoin : siblings.graph.Reachable 3 := hleft.step ⟨by decide, by decide⟩
  obtain ⟨w, hx, hcheck⟩ := siblings_selected
  refine ⟨isSsa_siblings, fun b hb ↦ ?_, w, hx, fun hdefined ↦ ?_⟩
  · have hcases : b = 0 ∨ b = 1 ∨ b = 2 ∨ b = 3 := by
      rw [show siblings.blocks.length = 4 from rfl] at hb
      omega
    rcases hcases with rfl | rfl | rfl | rfl
    exacts [hentry, hleft, hright, hjoin]
  · simp only [readsRegisterOne, Bool.and_eq_true, decide_eq_true_eq] at hcheck
    obtain ⟨⟨⟨hwrites, hphis⟩, hread⟩, hsuccs⟩ := hcheck
    obtain ⟨i, hi, hv⟩ := (Option.any_eq_true _ _).mp hread
    have hgraph : blockGraph w.code.blocks = siblings.graph := hsuccs
    have hpath : (blockGraph w.code.blocks).IsPath [2, 0] 2 :=
      hgraph ▸ FlowGraph.IsPath.entry.step ⟨by decide, by decide⟩
    rcases (hdefined [2, 0] 2 hpath).1 0 i hi 1 (by simpa using hv) with
      (hnone | ⟨i', hi', hdef⟩ | ⟨phi, hphi, -⟩) | ⟨i', hi', -⟩
    · exact hnone
    · have hzero := List.all_eq_true.mp (List.all_eq_true.mp hwrites i' hi') 1 hdef
      exact absurd hzero (by decide)
    · rw [List.isEmpty_iff.mp hphis] at hphi
      exact absurd hphi List.not_mem_nil
    · exact absurd hi' List.not_mem_nil

end TreeCover
