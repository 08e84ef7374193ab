import TreeCover.Proofs.Allocation.Valid
import TreeCover.Proofs.Liveness.AnyLayout
import TreeCover.Proofs.Tiling.Invariants
import TreeCover.Proofs.Tiling.Reads

/-!
# Registers that are live at the same time

Two registers that are both live at some point of selected code get different physical registers,
if their intervals cover that point. In a layout of any kind the intervals of a register do so
wherever it is live, if the register is orderly: over an edge that leads backwards it is live only
where the edge closes a loop, and if it holds the address of an alloca, the block that computed the
address dominates all that use it. Main statement: `selected_apart`.

A layout that is not forward has edges that lead backwards without closing a loop. A register that is
live over such an edge is forgotten in front of it, as `detour_clobbered` shows.
-/

namespace TreeCover

open Ir Machine Work

/-! ## Hulls -/

namespace Interval

variable {i j : Interval} {p : Nat} {rs : List Span}

theorem SpansSorted.start_le {r r' : Span} (h : SpansSorted (r :: rs)) (hr : r' ∈ r :: rs) :
    r.1 ≤ r'.1 := by
  rcases List.mem_cons.mp hr with rfl | hr
  · exact Nat.le_refl _
  · have hup := h.upward r List.mem_cons_self
    have hapart : nextPosition r.2 < r'.1 := List.rel_of_pairwise_cons h.apart hr
    have := le_nextPosition r.2
    omega

theorem SpansSorted.le_stop {r r' : Span} (h : SpansSorted rs) (hlast : rs.getLast? = some r)
    (hr : r' ∈ rs) : r'.2 ≤ r.2 := by
  obtain ⟨front, rfl⟩ := List.getLast?_eq_some_iff.mp hlast
  rcases List.mem_append.mp hr with hr | hr
  · have hup := h.upward r (List.mem_append_right _ List.mem_cons_self)
    have hapart := (List.pairwise_append.mp h.apart).2.2 r' hr r List.mem_cons_self
    have := le_nextPosition r'.2
    omega
  · rw [List.mem_singleton.mp hr]

/-- A covered position lies in the hull. -/
theorem Sorted.exists_hull (h : i.Sorted) (hp : i.covers p = true) :
    ∃ s e, i.start? = some s ∧ i.end? = some e ∧ s ≤ p ∧ p ≤ e := by
  obtain ⟨r, hr, hlo, hhi⟩ := covers_iff.mp hp
  obtain ⟨first, rest, hspans⟩ := List.exists_cons_of_ne_nil (List.ne_nil_of_mem hr)
  obtain ⟨last, hlast⟩ := Option.isSome_iff_exists.mp
    (List.getLast?_isSome.mpr (List.ne_nil_of_mem hr))
  have hstop := SpansSorted.le_stop h hlast hr
  have hstart : first.1 ≤ r.1 := by
    rw [Sorted, hspans] at h
    exact h.start_le (hspans ▸ hr)
  exact ⟨first.1, last.2, by rw [start?, hspans]; rfl, by rw [end?, hlast]; rfl, by omega, by omega⟩

/-- The hulls of two intervals that cover one position meet. -/
theorem hullsMeet_of_covers (hi : i.Sorted) (hj : j.Sorted) (hip : i.covers p = true)
    (hjp : j.covers p = true) : i.hullsMeet j = true := by
  obtain ⟨s, e, hs, he, hsp, hpe⟩ := hi.exists_hull hip
  obtain ⟨s', e', hs', he', hsp', hpe'⟩ := hj.exists_hull hjp
  rw [hullsMeet, hs, he, hs', he', Bool.and_eq_true, decide_eq_true_iff, decide_eq_true_iff]
  omega

end Interval

namespace Liveness

variable {blocks : List Machine.Block} {loops : Loops} {vregs p budget : Nat} {v w : VReg}
  {frame : Frame} {r : PhysReg}

theorem sorted_build (blocks : List Machine.Block) (loops : Loops) (vregs : Nat) :
    (build blocks loops vregs).intervals.Sorted := by
  obtain ⟨-, hsorted, -⟩ := @passBlocks_spec blocks loops _ 0 (sorted_replicate vregs) blocks
    List.drop_zero
  intro v
  have hv := hsorted v
  rw [build, IntervalTable.interval, List.getElem?_map]
  rw [IntervalTable.interval] at hv
  cases hget : (passBlocks blocks (blockRanges blocks) loops
    (List.replicate vregs Interval.empty) 0 blocks).intervals[v]? with
  | none => exact Interval.sorted_empty
  | some i =>
    rw [hget] at hv
    exact hv

/-- Registers whose intervals cover one position are apart, if only allocas have slots before. -/
theorem apart_of_covers (hframe : Frame.Extends {} frame) (hne : v ≠ w)
    (hv : (build blocks loops vregs).Covers v p) (hw : (build blocks loops vregs).Covers w p)
    (hr : (LinearScan.run budget (build blocks loops vregs).intervals frame).1.location? v
      = some (.register r)) :
    (LinearScan.run budget (build blocks loops vregs).intervals frame).1.location? w
      ≠ some (.register r) := by
  obtain ⟨reqs, rfl, hnone⟩ := hframe.exists_answer
  have hvalid := LinearScan.valid_run budget (build blocks loops vregs).intervals reqs hnone
  have hsorted := sorted_build blocks loops vregs
  have hentry : ∀ {u}, (build blocks loops vregs).Covers u p →
      ∃ i, (build blocks loops vregs).intervals[u]? = some i ∧ i.Sorted ∧ i.covers p = true := by
    intro u hu
    have hi := hsorted u
    rw [Covers, IntervalTable.Covers, IntervalTable.interval] at hu
    rw [IntervalTable.interval] at hi
    cases hget : (build blocks loops vregs).intervals[u]? with
    | none =>
      rw [hget] at hu
      exact absurd hu Bool.false_ne_true
    | some i =>
      rw [hget] at hu hi
      exact ⟨i, rfl, hi, hu⟩
  obtain ⟨i, hi, hsi, hip⟩ := hentry hv
  obtain ⟨j, hj, hsj, hjp⟩ := hentry hw
  exact hvalid.apart v w i j hne hi hj (Interval.hullsMeet_of_covers hsi hsj hip hjp) r hr

end Liveness

/-! ## Selected code -/

variable {f : Func} {s : Session} {u : Unit} {w : Workspace}

/-- A register that is live over no edge that leads backwards without closing a loop; and if it holds
the address of an alloca, the block that writes it dominates all its reads. -/
structure Workspace.Orderly (w : Workspace) (v : VReg) : Prop where
  turns : TurnsAtLoops w.code.blocks v
  below : ReadsBelow w.code.blocks w.forest.HoldsAlloca v

/-- The live intervals of selected code. -/
def Workspace.liveness (w : Workspace) (f : Func) : Liveness :=
  Liveness.build w.code.blocks (Loops.of f.succs) w.code.vregs

/-- The allocation for selected code. -/
def Workspace.allocation (w : Workspace) (f : Func) (budget : Nat) : Allocation :=
  (LinearScan.run budget (w.liveness f).intervals w.code.frame).1

/-- `v` is live before instruction `i` of block `b`, or just behind it, which is where the
instruction writes. -/
def OccupiedAt (blocks : List Machine.Block) (v : VReg) (b i : Nat) (inst : Machine.Inst) :
    Bool → Prop
  | false => LiveAt blocks v b i
  | true => v ∈ inst.defs ∨ LiveAt blocks v b (i + 1)

/-- **Interference.** In code selected for a function in static single assignment form whose loops are
reducible, whatever its layout, the interval of an orderly register covers the two positions of every
reachable instruction at which the register is live or written. So two orderly registers that are
live or written at one position do not share a physical register. -/
theorem selected_apart (hssa : f.IsSsa)
    (hx : (buildForest f >>= selectAll) (.start f s) = .ok u w)
    (hred : (Loops.of f.graph).Reducible) {b : Nat} (hreach : f.graph.Reachable b)
    {block : Machine.Block} (hblock : w.code.blocks[b]? = some block) {i : Nat} {inst : Machine.Inst}
    (hinst : block.insts[i]? = some inst) (behind : Bool) {v : VReg} (hv : w.Orderly v)
    (hlive : OccupiedAt w.code.blocks v b i inst behind) :
    (w.liveness f).Covers v (2 * (firstInst w.code.blocks b + i) + behind.toNat) ∧
      ∀ v', v ≠ v' → w.Orderly v' → OccupiedAt w.code.blocks v' b i inst behind →
        ∀ budget r, (w.allocation f budget).location? v = some (.register r) →
          (w.allocation f budget).location? v' ≠ some (.register r) := by
  obtain ⟨trees, w₀, hbuild, hselect⟩ := bind_eq_ok.mp hx
  obtain ⟨hp, hlength⟩ := buildForest_planted hbuild
  have h := Selecting.selectAll hp hssa hlength hselect
  have hgraph := h.graph hp
  have hframe : Frame.Extends {} w.code.frame := by
    have hblank : w₀.code.frame = {} := hp.declared.blank.frame
    exact (keptBySelection_extends {}).selectAll (hblank ▸ .refl _) hselect
  have hcovers : ∀ {v}, w.Orderly v → OccupiedAt w.code.blocks v b i inst behind →
      (w.liveness f).Covers v (2 * (firstInst w.code.blocks b + i) + behind.toNat) := by
    intro v hv hlive
    have hsound := Liveness.covers_of_tidy w.code.vregs (h.tidy hp) hv.below
      (hgraph.symm ▸ hred) hv.turns (hgraph.symm ▸ hreach) hblock hinst
    rw [hgraph] at hsound
    cases behind with
    | false => exact hsound.1 hlive
    | true => exact hsound.2 hlive
  refine ⟨hcovers hv hlive, fun v' hne hv' hlive' budget r hr ↦ ?_⟩
  exact Liveness.apart_of_covers hframe hne (hcovers hv hlive) (hcovers hv' hlive') hr

/-! ## A loop behind its exit -/

/-- Whether there is no alloca in a forest. -/
def Forest.lacksAlloca (g : Forest) : Bool :=
  (List.range g.size).all fun k ↦ decide ((g.node k).op ≠ .inst .alloca)

theorem Forest.not_holdsAlloca {g : Forest} {v : VReg} (h : g.lacksAlloca = true) :
    ¬ g.HoldsAlloca v := by
  rintro ⟨k, hop, -⟩
  by_cases hk : k < g.size
  · exact of_decide_eq_true (List.all_eq_true.mp h k (List.mem_range.mpr hk)) hop
  · rw [Forest.node_of_le _ (Nat.le_of_not_lt hk)] at hop
    exact NodeOp.noConfusion hop

/-- Nothing is live in a block that reads nothing and that control does not leave. -/
theorem not_liveAt_of_last {blocks : List Machine.Block} {block : Machine.Block} {v : VReg}
    {b i : Nat} (hblock : blocks[b]? = some block) (hsuccs : block.succs = [])
    (hreads : ∀ inst ∈ block.insts, v ∉ inst.uses) : ¬ LiveAt blocks v b i := by
  intro hlive
  induction hlive with
  | read hb hinst huse =>
    obtain rfl := Option.some.inj (hb.symm.trans hblock)
    exact hreads _ (List.mem_of_getElem? hinst) huse
  | pass _ _ _ _ ih => exact ih hblock
  | input hb hs | edge hb hs =>
    obtain rfl := Option.some.inj (hb.symm.trans hblock)
    rw [hsuccs] at hs
    exact List.not_mem_nil hs

/-- A function whose loop stands behind the block that it exits to. -/
def earlyExit : Func where
  name := "f"
  ret := .void
  params := []
  blocks := [
    ⟨"entry", [⟨some "k", .int 64, .call "g" []⟩, ⟨none, .void, .br 2⟩]⟩,
    ⟨"exit", [⟨none, .void, .ret none⟩]⟩,
    ⟨"loop", [⟨some "c", .int 64, .call "h" [.value (.inst 0)]⟩,
      ⟨some "t", .int 1, .icmp .eq (.value (.inst 3)) (.int 0 64)⟩,
      ⟨none, .void, .condBr (.value (.inst 4)) 2 1⟩]⟩]

/-- The code of that function. Register 0 is the argument of every call in the loop. -/
def earlyExitCode : List Machine.Block :=
  [{ id := 0, succs := [2], insts := callCode "g" [] (some 0) ++ [jumpTo 0] },
    { id := 1, succs := [], label := some 1, insts :=
      [{ mnemonic := "ret", operands := [], kind := .ret }] },
    { id := 2, succs := [2, 1], label := some 0, insts := callCode "h" [.vreg 0] (some 1) ++
      [{ mnemonic := "cmpq", operands := [.imm 0, .vreg 1] }, branchTo "je" 0, jumpTo 1] }]

/-- Only the edge around the loop leads backwards with a live register. -/
theorem turnsAtLoops_earlyExit (v : VReg) : TurnsAtLoops earlyExitCode v := by
  rintro a s - ⟨⟨hs, -⟩, hlive, -⟩
  have hexit : ¬ LiveAt earlyExitCode v 1 0 := by
    refine not_liveAt_of_last rfl rfl fun inst hinst ↦ ?_
    obtain rfl := List.mem_singleton.mp hinst
    exact List.not_mem_nil
  match a, hs with
  | 0, hs => exact Or.inl (by simp_all [blockGraph, earlyExitCode, FlowGraph.succs])
  | 1, hs => exact absurd hs List.not_mem_nil
  | 2, hs =>
    rcases List.mem_cons.mp hs with rfl | hs
    · exact Or.inr (by decide)
    · obtain rfl := List.mem_singleton.mp hs
      exact absurd hlive hexit
  | a + 3, hs => exact absurd hs List.not_mem_nil

theorem earlyExit_apart : earlyExit.IsSsa ∧ (Loops.of earlyExit.graph).isForwardLayout = false ∧
    (Loops.of earlyExit.graph).Reducible ∧ earlyExit.graph.Reachable 2 ∧
    ∃ w, (buildForest earlyExit >>= selectAll) (.start earlyExit {}) = .ok () w ∧
      w.Orderly 0 ∧ w.Orderly 1 ∧ LiveAt w.code.blocks 0 2 4 ∧
      ∀ budget r, (w.allocation earlyExit budget).location? 0 = some (.register r) →
        (w.allocation earlyExit budget).location? 1 ≠ some (.register r) := by
  have hssa : earlyExit.IsSsa := Func.isSsa_of_isNear (by decide)
  have hred : (Loops.of earlyExit.graph).Reducible := by
    have hback : (Loops.of earlyExit.graph).backEdges = [(2, 2)] := by decide
    intro t h he
    rw [hback, List.mem_singleton, Prod.mk.injEq] at he
    obtain ⟨rfl, rfl⟩ := he
    exact .refl _ 2
  have hreach : earlyExit.graph.Reachable 2 :=
    (FlowGraph.Reachable.entry _).step ⟨by decide, by decide⟩
  have hselects : succeeds (fun _ w ↦ decide (w.code.blocks = earlyExitCode) && w.forest.lacksAlloca)
      ((buildForest earlyExit >>= selectAll) (.start earlyExit {})) = true := by decide +kernel
  obtain ⟨_, w, hx, hcheck⟩ := exists_of_succeeds hselects
  rw [Bool.and_eq_true, decide_eq_true_iff] at hcheck
  obtain ⟨hblocks, halloca⟩ := hcheck
  have horderly : ∀ v, w.Orderly v := fun v ↦
    ⟨hblocks ▸ turnsAtLoops_earlyExit v, fun hv ↦ absurd hv (Forest.not_holdsAlloca halloca)⟩
  have hlive : LiveAt w.code.blocks 0 2 4 := by
    rw [hblocks]
    have hread : LiveAt earlyExitCode 0 2 0 :=
      @LiveAt.read earlyExitCode 0 2 0 earlyExitCode[2] earlyExitCode[2].insts[0] rfl rfl (by decide)
    have hend : LiveAt earlyExitCode 0 2 7 :=
      @LiveAt.edge earlyExitCode 0 2 2 earlyExitCode[2] earlyExitCode[2] rfl (by decide) rfl
        (by decide) hread
    exact hend.back rfl (by decide) (by decide)
  refine ⟨hssa, by decide, hred, hreach, w, hx, horderly 0, horderly 1, hlive, fun budget r hr ↦ ?_⟩
  have hblock : w.code.blocks[2]? = some earlyExitCode[2] := by rw [hblocks]; rfl
  exact (selected_apart hssa hx hred hreach hblock (i := 3) rfl true (horderly 0)
    (Or.inr hlive)).2 1 (by decide) (horderly 1) (Or.inl (by decide)) budget r hr

/-! ## A detour through later code -/

/-- A function in which control comes to the second block only from the third. -/
def detour : Func where
  name := "f"
  ret := .int 64
  params := [⟨"p", .ptr⟩]
  blocks := [
    ⟨"entry", [⟨some "v", .int 64, .call "g" []⟩, ⟨none, .void, .br 2⟩]⟩,
    ⟨"b", [⟨none, .int 64, .ret (some (.value (.inst 0)))⟩]⟩,
    ⟨"c", [⟨some "w", .int 64, .call "h" []⟩,
      ⟨none, .int 64, .store (.value (.inst 3)) (.value (.arg 0))⟩, ⟨none, .void, .br 1⟩]⟩]

/-- The code of that function. -/
def detourCode : List Machine.Block :=
  [{ id := 0, succs := [2], insts := callCode "g" [] (some 0) ++ [jumpTo 0] },
    { id := 1, succs := [], label := some 1, insts :=
      [.define "movq" [.vreg 0, .phys .rax], { mnemonic := "ret", operands := [], kind := .ret }] },
    { id := 2, succs := [1], label := some 0, insts := callCode "h" [] (some 1) ++
      [moveTo 2 (.mem (.frame 16)),
        { mnemonic := "movq", operands := [.vreg 1, .mem (.based (.virt 2) 0)] }, jumpTo 1] }]

/-- The intervals of that code; that of register 0 is cut short behind the first block. -/
theorem intervals_detour : (Liveness.build detourCode (Loops.of detour.succs) 3).intervals =
    [{ spans := [(3, 3), (6, 6)], uses := [6] }, { spans := [(13, 16)], uses := [16] },
      { spans := [(15, 16)], uses := [16] }] := by decide +kernel

theorem allocation_detour :
    LinearScan.run 9 (Liveness.build detourCode (Loops.of detour.succs) 3).intervals {} =
      ({ decisions := [.assign 0 .rbx, .assign 1 .rbx, .assign 2 .rsi], used := ⟨[.rsi, .rbx]⟩ },
        {}) := by
  have hhulls : LinearScan.hulls [{ spans := [(3, 3), (6, 6)], uses := [6] },
      { spans := [(13, 16)], uses := [16] }, { spans := [(15, 16)], uses := [16] }] =
        [⟨0, 3, 6⟩, ⟨1, 13, 16⟩, ⟨2, 15, 16⟩] := List.mergeSort_of_pairwise (by decide)
  rw [intervals_detour, LinearScan.run, hhulls]
  rfl

/-- Behind the second call both results are live, but the interval of the first does not cover that
position, and both are in one register. -/
theorem detour_clobbered : detour.IsSsa ∧ (∀ b < detour.blocks.length, detour.graph.Reachable b) ∧
    (Loops.of detour.graph).isForwardLayout = false ∧ (Loops.of detour.graph).Reducible ∧
    ∃ w, (buildForest detour >>= selectAll) (.start detour {}) = .ok () w ∧
      LiveAt w.code.blocks 0 2 2 ∧ LiveAt w.code.blocks 1 2 2 ∧
      ¬ (w.liveness detour).Covers 0 (2 * (firstInst w.code.blocks 2 + 1) + 1) ∧
      (w.allocation detour 9).location? 0 = some (.register .rbx) ∧
      (w.allocation detour 9).location? 1 = some (.register .rbx) := by
  have hentry := FlowGraph.Reachable.entry detour.graph
  have hlast : detour.graph.Reachable 2 := hentry.step ⟨by decide, by decide⟩
  have hmiddle : detour.graph.Reachable 1 := hlast.step ⟨by decide, by decide⟩
  have hreach : ∀ b < detour.blocks.length, detour.graph.Reachable b := by
    intro b hb
    match b, hb with
    | 0, _ => exact hentry
    | 1, _ => exact hmiddle
    | 2, _ => exact hlast
  have hred : (Loops.of detour.graph).Reducible := by
    have hback : (Loops.of detour.graph).backEdges = [] := by decide
    intro t h he
    rw [hback] at he
    exact absurd he List.not_mem_nil
  have hselects : succeeds (fun _ w ↦ decide (w.code.blocks = detourCode ∧ w.code.vregs = 3 ∧
      w.code.frame.slots = [] ∧ w.code.frame.size = returnAddressBytes))
      ((buildForest detour >>= selectAll) (.start detour {})) = true := by decide +kernel
  obtain ⟨_, w, hx, hcheck⟩ := exists_of_succeeds hselects
  obtain ⟨hblocks, hvregs, hslots, hsize⟩ := of_decide_eq_true hcheck
  have hframe : w.code.frame = {} := by
    rw [← hslots, ← hsize]
  have hlocation : ∀ v < 2, (w.allocation detour 9).location? v = some (.register .rbx) := by
    intro v hv
    rw [Workspace.allocation, Workspace.liveness, hblocks, hvregs, hframe, allocation_detour]
    revert v
    decide
  have hread : LiveAt detourCode 0 1 0 :=
    @LiveAt.read detourCode 0 1 0 detourCode[1] detourCode[1].insts[0] rfl rfl (by decide)
  have hend : LiveAt detourCode 0 2 5 :=
    @LiveAt.edge detourCode 0 2 1 detourCode[2] detourCode[1] rfl (by decide) rfl (by decide) hread
  have hstored : LiveAt detourCode 1 2 3 :=
    @LiveAt.read detourCode 1 2 3 detourCode[2] detourCode[2].insts[3] rfl rfl (by decide)
  refine ⟨Func.isSsa_of_isNear (by decide), hreach, by decide, hred, w, hx, ?_, ?_, ?_,
    hlocation 0 (by decide), hlocation 1 (by decide)⟩
  · exact hblocks ▸ hend.back rfl (by decide) (by decide)
  · exact hblocks ▸ @LiveAt.pass detourCode 1 2 2 detourCode[2] detourCode[2].insts[2] rfl rfl
      (by decide) hstored
  · have hposition : 2 * (firstInst w.code.blocks 2 + 1) + 1 = 13 := by
      rw [hblocks]
      rfl
    rw [hposition, Workspace.liveness, hblocks, hvregs, Liveness.Covers, intervals_detour]
    exact Bool.false_ne_true

end TreeCover
