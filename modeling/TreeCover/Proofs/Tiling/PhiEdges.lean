import TreeCover.Proofs.Convention.Compiled
import TreeCover.Proofs.Labels.Selected
import TreeCover.Proofs.Tiling.PhiCopies
import TreeCover.Proofs.Tiling.SharedValues

/-!
# Every edge feeds every phi once

A block that branches to another, with one or both targets of its branch, makes one copy into each phi of
it. So in the code every phi has one input from every such block, the first that the phi lists for it, and
no other inputs. Main statement: `compiled_feedsOnce`.
-/

namespace TreeCover

open Ir Machine Work Assembly

variable {text : String} {fs : List Func} {f : Func} {s₀ s' : Session} {c : Compiled}
  {trees : List (List NodeId)} {w v : Workspace} {b s : BlockId} {r : NodeId}
  {x x' : InstId × ResolvedInst} {phi : Machine.Phi} {inputs : List PhiInput} {input : PhiInput} {z : Unit}

/-! ## Edges -/

namespace Ir.Func

/-- Only the last instruction of a block can be a branch. -/
theorem mem_succsOf (hwell : f.WellFormed) : s ∈ f.succsOf b ↔ f.BranchesTo b s := by
  rw [succsOf, BranchesTo]
  cases hb : f.blocks[b]? with
  | none => simp [blockInsts, hb]
  | some block =>
    obtain ⟨body, last, hbody, -, hnone, -⟩ :=
      (hwell.blocks block (List.mem_of_getElem? hb)).terminator
    rw [Option.map_some, Option.getD_some, Block.succs, hbody, List.getLast?_concat]
    constructor
    · intro hs
      by_cases hbr : last.opcode = .br
      · simp only [hbr, if_true] at hs
        have hlast : block.insts[body.length]? = some last := by rw [hbody, List.getElem?_concat_length]
        exact ⟨_, mem_blockInsts.mpr ⟨block, _, hb, hlast, rfl⟩, hbr, List.mem_eraseDups.mp hs⟩
      · simp only [hbr, if_false] at hs
        exact absurd hs List.not_mem_nil
    · rintro ⟨⟨id, i⟩, hi, hbr, hs⟩
      obtain ⟨_, k, hb', hk, -⟩ := mem_blockInsts.mp hi
      obtain rfl := Option.some.inj (hb.symm.trans hb')
      rw [hbody] at hk
      have hbr : i.opcode = .br := hbr
      rcases List.mem_append.mp (List.mem_of_getElem? hk) with hmem | hmem
      · have hterm := hnone i hmem
        rw [hbr] at hterm
        exact absurd hterm (by decide)
      · obtain rfl := List.mem_singleton.mp hmem
        simpa [hbr] using hs

theorem nodup_succsOf (f : Func) (b : BlockId) : (f.succsOf b).Nodup := by
  rw [succsOf]
  cases f.blocks[b]? with
  | none => exact List.nodup_nil
  | some block =>
    rw [Option.map_some, Option.getD_some, Block.succs]
    split
    · split
      · exact nodup_eraseDups _
      · exact List.nodup_nil
    · exact List.nodup_nil

theorem nodup_blockPhis (f : Func) (b : BlockId) : (f.blockPhis b).Nodup :=
  (f.blockPhis_sorted b).imp fun {_ _} hlt ↦ ne_of_apply_ne Prod.fst (Nat.ne_of_lt hlt)

/-- What all blocks hand on, in order. -/
def edges (f : Func) : List (BlockId × BlockId × InstId × ResolvedInst) :=
  (List.range f.blocks.length).flatMap fun b ↦ (f.phiEdges b).map (b, ·)

theorem mem_edges (hwell : f.WellFormed) {e : BlockId × BlockId × InstId × ResolvedInst} :
    e ∈ f.edges ↔ f.BranchesTo e.1 e.2.1 ∧ e.2.2 ∈ f.blockPhis e.2.1 := by
  rw [← mem_succsOf hwell, ← mem_phiEdges, edges, List.mem_flatMap]
  constructor
  · rintro ⟨b, -, he⟩
    obtain ⟨e', he', rfl⟩ := List.mem_map.mp he
    exact he'
  · intro he
    obtain ⟨x, hx, -⟩ := (mem_succsOf hwell).mp (mem_phiEdges.mp he).1
    obtain ⟨_, _, hb, -⟩ := mem_blockInsts.mp hx
    exact ⟨e.1, List.mem_range.mpr (List.getElem?_eq_some_iff.mp hb).1,
      List.mem_map.mpr ⟨e.2, he, rfl⟩⟩

theorem nodup_edges (f : Func) : f.edges.Nodup :=
  nodup_pairs List.nodup_range fun b _ ↦
    nodup_pairs (f.nodup_succsOf b) fun s _ ↦ f.nodup_blockPhis s

/-- A block has one terminator. -/
theorem filter_isTerminator (hwell : f.WellFormed) (hb : b < f.blocks.length) :
    ∃ x, (f.blockInsts b).filter (·.2.opcode.isTerminator) = [x] := by
  obtain ⟨body, last, hbody, hlast, hnone, -⟩ := (hwell.blocks _ (List.getElem_mem hb)).terminator
  refine ⟨(f.firstInst b + body.length, last), ?_⟩
  rw [blockInsts, List.getElem?_eq_getElem hb]
  have hbefore : (body.mapIdx fun k i ↦ (f.firstInst b + k, i)).filter (·.2.opcode.isTerminator) = [] := by
    refine List.filter_eq_nil_iff.mpr fun x hx hterm ↦ ?_
    obtain ⟨k, hk, rfl⟩ := List.mem_mapIdx.mp hx
    exact Bool.false_ne_true ((hnone _ (List.getElem_mem hk)).symm.trans hterm)
  change (f.blocks[b].insts.mapIdx _).filter _ = _
  rw [hbody, List.mapIdx_concat, List.filter_append, hbefore, List.nil_append]
  exact List.filter_cons_of_pos hlast

end Ir.Func

/-! ## Copies and inputs -/

/-- There is one copy for each edge, in order. -/
theorem Planted.copies (hp : Planted f trees w) (hlength : trees.length = f.blocks.length)
    (hwell : f.WellFormed) : List.Forall₂ (fun r e ↦ IsCopy e.1 w r e.2)
      (trees.flatten.filter fun r ↦ (w.forest.node r).op = .phiMove) f.edges := by
  have hblocks : List.Forall₂ (fun roots b ↦ TreesOf f b w roots ∧ b < f.blocks.length) trees
      (List.range f.blocks.length) := by
    refine List.forall₂_of_length_eq_of_get (by rw [hlength, List.length_range]) fun b hb hb' ↦ ?_
    rw [List.length_range] at hb'
    simp only [List.get_eq_getElem, List.getElem_range]
    exact ⟨hp.block b _ (List.getElem?_eq_getElem hb), hb'⟩
  rw [List.filter_flatten, ← List.flatMap_def, Func.edges]
  refine List.rel_flatMap hblocks fun roots b ⟨htrees, hb⟩ ↦ ?_
  obtain ⟨x, hx⟩ := Func.filter_isTerminator hwell hb
  have hcopies := htrees.copies
  rw [hx, List.flatMap_singleton] at hcopies
  exact List.forall₂_map_right_iff.mpr hcopies

/-- The operand `o` is what the value is bound to where block `b` hands it to the phi of an edge: the copy
for the edge asked for the node of the value, and was given `o`. If the node has a value, `o` is the
register in which it is computed, unless the copy takes the value in without a register. -/
def Binds (f : Func) (trees : List (List NodeId)) (w v : Workspace) (b : BlockId)
    (e : BlockId × InstId × ResolvedInst) (value : Ir.Operand Value) (o : Machine.Operand) : Prop :=
  ∃ a kid goal bound, Applies trees w a ∧ IsCopy b w a.node e ∧ w.Denotes f (.operand value) kid ∧
    a.rule.pattern.leaves w.forest a.node = [(w.forest.owner kid, goal)] ∧ a.kids = [bound] ∧
      bound.operand? = some o ∧ (w.forest.HasValue (w.forest.owner kid) →
        (∃ x, (v.forest.node (w.forest.owner kid)).slot = .vreg x ∧ o = .vreg x) ∨
          (w.forest.node (w.forest.owner kid)).Inlines goal)

/-- The register that a consumer named is its operand. -/
theorem Bound.Names.operand? {bound : Bound} {x : VReg} {o : Machine.Operand} (h : bound.Names x)
    (ho : bound.operand? = some o) (haddr : ∀ m, bound ≠ .addr m) : o = .vreg x := by
  rcases h with rfl | rfl
  · exact (Option.some.inj ho).symm
  · exact absurd rfl (haddr _)

theorem Application.Gives.binds {a : Application} {kid : NodeId} {o : Machine.Operand}
    {e : BlockId × InstId × ResolvedInst} {value : Ir.Operand Value} (h : a.Gives w.forest kid o)
    (hbuild : buildForest f (.start f s₀) = .ok trees w) (hselect : selectAll trees w = .ok z v)
    (happlies : Applies trees w a) (hcopy : IsCopy b w a.node e)
    (hkid : w.Denotes f (.operand value) kid) : Binds f trees w v b e value o := by
  obtain ⟨goal, bound, hleaves, hkids, ho, haddr⟩ := h
  refine ⟨a, kid, goal, bound, happlies, hcopy, hkid, hleaves, hkids, ho, fun hvalue ↦ ?_⟩
  obtain ⟨_, _, hchronicle⟩ := selectAll_chronicle hbuild hselect
  obtain ⟨-, r, t, hcomes, -, hfollows⟩ := hchronicle.exists_follows happlies
  obtain ⟨hp, -⟩ := buildForest_planted hbuild
  obtain ⟨_, _, -, hvisited⟩ := (Visited.kept hp).comes (.start hp (buildForest_recorded hbuild)) hcomes
  have htakes := hfollows.takes
  rw [hleaves, hkids, List.forall₂_cons] at htakes
  refine (htakes.1 (hvisited.skeleton.hasValue_iff.mpr hvalue)).imp ?_ fun h ↦
    hvisited.skeleton.inlines_iff.mp h.2
  exact fun ⟨x, _, hslot, hx⟩ ↦ ⟨x, hslot, hx.operand? ho haddr⟩

/-- The input is what an edge hands on. -/
structure Carries (f : Func) (trees : List (List NodeId)) (w v : Workspace)
    (e : BlockId × BlockId × InstId × ResolvedInst) (input : PhiInput) : Prop where
  pred : input.pred = e.1
  succ : input.succ = e.2.1
  register : ∃ k, w.defs.phis.lookup e.2.2.1 = some k ∧ (w.forest.node k).slot = .vreg input.dst
  value : ∃ value, e.2.2.2.operation.incoming.find? (·.2 == e.1) = some (value, e.1) ∧
    Binds f trees w v e.1 e.2 value input.operand

section

variable (hbuild : buildForest f (.start f s₀) = .ok trees w) (hselect : selectAll trees w = .ok z v)
  (hwell : f.WellFormed)
include hbuild hselect hwell

theorem HandsOn.carries {e : BlockId × BlockId × InstId × ResolvedInst}
    (h : HandsOn trees w r input) (hcopy : IsCopy e.1 w r e.2) (he : e ∈ f.edges) :
    Carries f trees w v e input := by
  obtain ⟨id, i, k, kid, a, his, hslot, happlies, rfl, hgives⟩ := h
  obtain ⟨k', kid', his'⟩ := hcopy
  have heq := his'.eq his
  obtain hpred := Option.some.inj (congrArg Node.block heq : _)
  obtain ⟨rfl, hsucc⟩ := Prod.mk.inj (Option.some.inj (congrArg Node.phiTarget heq : _))
  obtain ⟨rfl, -⟩ := List.cons.inj (congrArg Node.kids heq : _)
  obtain ⟨value, hvalue, hk, hkid⟩ :=
    (buildForest_planted hbuild).1.of_copy his' ((Func.mem_edges hwell).mp he).2
  exact ⟨hpred.symm, hsucc.symm, ⟨k', hk, hslot⟩, value, hvalue,
    hgives.binds hbuild hselect happlies ⟨k', kid', his'⟩ hkid⟩

/-- **Inputs.** The phis hold one input for each edge. -/
theorem selectAll_carries : ∃ inputs, List.Forall₂ (Carries f trees w v) f.edges inputs ∧
    ∀ s, phisAt v.code.blocks s = (phisAt w.code.blocks s).map (·.taking s inputs) := by
  obtain ⟨hp, hlength⟩ := buildForest_planted hbuild
  obtain ⟨inputs, hhanded⟩ := selectAll_handed hp (buildForest_recorded hbuild) hselect
  refine ⟨inputs, ?_, hhanded.phis⟩
  have hall := forall₂_comp_iff.mp ⟨_, (hp.copies hlength hwell).flip, hhanded.copies⟩
  refine ((List.forall₂_and_left _ _).mpr ⟨fun e he ↦ he, hall⟩).imp fun e input h ↦ ?_
  obtain ⟨he, r, hcopy, hhands⟩ := h
  exact hhands.carries hbuild hselect hwell hcopy he

end

/-! ## Phis -/

/-- A phi of the code, in block `s`, has what the phi `x` of the function lists: one input from each block
that branches to `s`, and no others. -/
structure FedOnce (f : Func) (trees : List (List NodeId)) (w v : Workspace) (s : BlockId)
    (x : InstId × ResolvedInst) (phi : Machine.Phi) : Prop where
  /-- The operand is what the first value is bound to that the phi lists for the block. -/
  once : ∀ b, f.BranchesTo b s → ∃ value o, x.2.operation.incoming.find? (·.2 == b) = some (value, b) ∧
    phi.inputsFrom b = [o] ∧ Binds f trees w v b (s, x) value o
  only : ∀ input ∈ phi.incoming, f.BranchesTo input.2 s

/-- Phis of one block that have one register are the same. -/
theorem Planted.eq_of_register (hp : Planted f trees w)
    (hx : (x, phi) ∈ (f.blockPhis s).zip (phisAt w.code.blocks s)) (hx' : x' ∈ f.blockPhis s) {k : NodeId}
    (hk : w.defs.phis.lookup x'.1 = some k) (hslot : (w.forest.node k).slot = .vreg phi.dst) :
    x' = x := by
  have hphis := hp.declared.phis s
  obtain ⟨phi', hphi'⟩ := exists_mem_zip hx' hphis.length_eq
  obtain ⟨k', hk', his⟩ := (List.forall₂_iff_zip.mp hphis).2 hphi'
  obtain rfl := Option.some.inj (hk.symm.trans hk')
  refine eq_of_mem_zip (hp.declared.blank.nodup s) hphi' hx ?_
  exact Slot.vreg.inj ((Node.slot_of_core his.2).symm.trans hslot)

/-- The inputs of a phi are those that edges into it hand on. -/
theorem Carries.iff_of_zip {e : BlockId × BlockId × InstId × ResolvedInst}
    (h : Carries f trees w v e input) (hp : Planted f trees w) (he : e.2.2 ∈ f.blockPhis e.2.1)
    (hx : (x, phi) ∈ (f.blockPhis s).zip (phisAt w.code.blocks s)) :
    input.succ = s ∧ input.dst = phi.dst ↔ e.2 = (s, x) := by
  obtain ⟨k, hk, hslot⟩ := h.register
  rw [h.succ]
  constructor
  · rintro ⟨rfl, hdst⟩
    rw [hdst] at hslot
    exact Prod.ext rfl (hp.eq_of_register hx he hk hslot)
  · intro heq
    obtain ⟨k', hk', his⟩ := (List.forall₂_iff_zip.mp (hp.declared.phis s)).2 hx
    rw [heq] at hk ⊢
    obtain rfl := Option.some.inj (hk.symm.trans hk')
    exact ⟨rfl, Slot.vreg.inj (hslot.symm.trans (Node.slot_of_core his.2))⟩

/-- **Phis.** If phis hold one input for each edge, then each edge feeds each of its phis once. -/
theorem Planted.fedOnce (hp : Planted f trees w) (hwell : f.WellFormed)
    (hcarries : List.Forall₂ (Carries f trees w v) f.edges inputs)
    (hx : (x, phi) ∈ (f.blockPhis s).zip (phisAt w.code.blocks s)) :
    FedOnce f trees w v s x (phi.taking s inputs) := by
  classical
  obtain ⟨hmem, hphi⟩ := List.of_mem_zip hx
  have hincoming : (phi.taking s inputs).incoming = (inputs.filter fun input ↦
      input.succ = s ∧ input.dst = phi.dst).map fun input ↦ (input.operand, input.pred) := by
    rw [Phi.taking, hp.declared.blank.inputs s phi hphi, List.nil_append]
  refine ⟨fun b hb ↦ ?_, fun e he ↦ ?_⟩
  · have hedge : (b, s, x) ∈ f.edges := (Func.mem_edges hwell).mpr ⟨hb, hmem⟩
    have hpicked := List.rel_filter (p := fun e ↦ decide (e = (b, s, x)))
      (q := fun input ↦ input.pred == b && decide (input.succ = s ∧ input.dst = phi.dst))
      (fun e input hinput ↦ by
        obtain ⟨he, h⟩ := hinput
        beta_reduce
        rw [Bool.and_eq_true, decide_eq_true_iff, beq_iff_eq, decide_eq_true_iff,
          h.iff_of_zip hp ((Func.mem_edges hwell).mp he).2 hx, h.pred, Prod.ext_iff])
      ((List.forall₂_and_left _ _).mpr ⟨fun _ he ↦ he, hcarries⟩)
    rw [filter_eq_singleton f.nodup_edges hedge fun _ _ ↦ decide_eq_true_iff] at hpicked
    obtain ⟨input, ⟨-, h⟩, hone⟩ := exists_of_forall₂_one hpicked
    obtain ⟨value, hvalue, hbinds⟩ := h.value
    refine ⟨value, input.operand, hvalue, ?_, hbinds⟩
    rw [Phi.inputsFrom, hincoming, List.filter_map, List.map_map, List.filter_filter]
    exact congrArg (List.map _) hone
  · rw [hincoming] at he
    obtain ⟨input, hinput, rfl⟩ := List.mem_map.mp he
    obtain ⟨hinput, hpicked⟩ := List.mem_filter.mp hinput
    obtain ⟨e, he, h⟩ := exists_of_forall₂ hcarries hinput
    have hbranches := ((Func.mem_edges hwell).mp he).1
    rwa [← h.pred, ← h.succ, (of_decide_eq_true hpicked).1] at hbranches

/-- **Edges.** In a compiled function, each phi of a block has one input from each block that branches to
it, also if both targets of the branch are this block, and no others. -/
theorem compiled_feedsOnce (hparse : parse text = .ok fs) (hf : f ∈ fs)
    (h : compileFunc f s₀ = .ok c s') : ∃ s₁ trees w v,
      buildForest f (.start f s₁) = .ok trees w ∧ selectAll trees w = .ok () v ∧
        c.blocks = v.code.blocks ∧ ∀ s, List.Forall₂ (fun x phi ↦ StandsFor s w x phi ∧
          FedOnce f trees w v s x phi) (f.blockPhis s) (phisAt c.blocks s) := by
  have hwell : f.WellFormed := parse_reads hparse (fun _ ↦ readLines_wellFormed nofun) f hf
  obtain ⟨s₁, v, -, -, -, hx, hblocks, -⟩ := compileFunc_eq_ok h
  obtain ⟨trees, w, hbuild, hselect⟩ := bind_eq_ok.mp hx
  obtain ⟨inputs, hcarries, hphis⟩ := selectAll_carries hbuild hselect hwell
  obtain ⟨hp, -⟩ := buildForest_planted hbuild
  refine ⟨s₁, trees, w, v, hbuild, hselect, hblocks, fun s ↦ ?_⟩
  obtain ⟨hlength, hstands⟩ := List.forall₂_iff_zip.mp (hp.declared.phis s)
  rw [hblocks, hphis, List.forall₂_map_right_iff]
  refine List.forall₂_iff_zip.mpr ⟨hlength, fun hx ↦ ?_⟩
  have hphi := hstands hx
  exact ⟨hphi, hp.fedOnce hwell hcarries hx⟩

/-! ## A loop -/

/-- A function that counts down. Both targets of its first branch are the loop, which is entered again from
itself; its phi lists a block that does not branch to it, and one block twice. -/
def countdownText : String :=
  "define i64 @f(i64 %n) \x7b\n" ++
  "entry:\n" ++
  "  %c = icmp sgt i64 %n, 0\n" ++
  "  br i1 %c, label %loop, label %loop\n" ++
  "loop:\n" ++
  "  %x = phi i64 [ %n, %entry ], [ %y, %loop ], [ 7, %exit ], [ 9, %loop ]\n" ++
  "  %y = sub i64 %x, 1\n" ++
  "  %d = icmp sgt i64 %y, 0\n" ++
  "  br i1 %d, label %loop, label %exit\n" ++
  "exit:\n" ++
  "  ret i64 %y\n" ++
  "\x7d\n"

def countdown : Func where
  name := "f"
  ret := .int 64
  params := [⟨"n", .int 64⟩]
  blocks := [
    ⟨"entry", [⟨some "c", .int 1, .icmp .sgt (.value (.arg 0)) (.int 0 64)⟩,
      ⟨none, .void, .condBr (.value (.inst 0)) 1 1⟩]⟩,
    ⟨"loop", [⟨some "x", .int 64, .phi [(.value (.arg 0), 0), (.value (.inst 3), 1), (.int 7 64, 2),
        (.int 9 64, 1)]⟩,
      ⟨some "y", .int 64, .binary .sub (.value (.inst 2)) (.int 1 64)⟩,
      ⟨some "d", .int 1, .icmp .sgt (.value (.inst 3)) (.int 0 64)⟩,
      ⟨none, .void, .condBr (.value (.inst 4)) 1 2⟩]⟩,
    ⟨"exit", [⟨none, .int 64, .ret (some (.value (.inst 3)))⟩]⟩]

theorem parse_countdown : parse countdownText = .ok [countdown] := by
  rw [parse_eq_parseChars]
  unfold countdownText
  simp only [String.toList_append, String.reduceToList]
  decide +kernel

/-- The selected code of that function. The phi has one input from each of the two blocks. -/
def countdownBlocks : List Machine.Block := [
  { id := 0, label := some 1, succs := [1]
    insts := [moveTo 1 (.mem (.frame 16)), { mnemonic := "cmpq", operands := [.imm 0, .vreg 1] },
      branchTo "jg" 0, jumpTo 0] },
  { id := 1, label := some 0, succs := [1, 2], phis := [⟨0, [(.mem (.frame 16), 0), (.vreg 2, 1)]⟩]
    insts := [moveTo 2 (.vreg 0), .update "subq" [.imm 1, .vreg 2],
      { mnemonic := "cmpq", operands := [.imm 0, .vreg 2] }, branchTo "jg" 0, jumpTo 2] },
  { id := 2, label := some 2, succs := []
    insts := [.define "movq" [.vreg 2, .phys .rax], { mnemonic := "ret", operands := [], kind := .ret }] }]

theorem allocation_countdown :
    LinearScan.run 16 (Liveness.build countdownBlocks (Loops.of countdown.succs) 3).intervals {} =
      ({ decisions := [.assign 1 .rbx, .assign 0 .rbx, .assign 2 .rsi], used := ⟨[.rsi, .rbx]⟩ }, {}) := by
  have hintervals : (Liveness.build countdownBlocks (Loops.of countdown.succs) 3).intervals =
      [{ spans := [(7, 8), (17, 17)], uses := [8] }, { spans := [(1, 2)], uses := [2] },
        { spans := [(9, 18)], uses := [10, 12, 18] }] := by decide +kernel
  -- the phi, which has the first register, is not the first to be written
  have hhulls : LinearScan.hulls [{ spans := [(7, 8), (17, 17)], uses := [8] },
      { spans := [(1, 2)], uses := [2] }, { spans := [(9, 18)], uses := [10, 12, 18] }] =
        [⟨1, 1, 2⟩, ⟨0, 7, 17⟩, ⟨2, 9, 18⟩] := by
    have hperm : ([⟨0, 7, 17⟩, ⟨1, 1, 2⟩, ⟨2, 9, 18⟩] : List LinearScan.Hull).Perm
        [⟨1, 1, 2⟩, ⟨0, 7, 17⟩, ⟨2, 9, 18⟩] := by decide
    have hhulls := (List.mergeSort_perm _ LinearScan.Hull.le).trans hperm
    refine List.Perm.eq_of_pairwise (fun h h' hh hh' hle hle' ↦ ?_) (LinearScan.sorted_hulls _)
      (by decide) hhulls
    exact (by decide : ∀ h ∈ _, ∀ h' ∈ _, h.start ≤ h'.start → h'.start ≤ h.start → h = h') h
      (hhulls.mem_iff.mp hh) h' hh' hle hle'
  rw [hintervals, LinearScan.run, hhulls]
  rfl

theorem compileFunc_countdown : ∃ c s', compileFunc countdown {} = .ok c s' := by
  obtain ⟨c, s', h, -⟩ := compileFunc_of_selected (P := fun _ ↦ True) (by decide) (by decide +kernel)
    allocation_countdown fun _ ↦ ⟨_, _, rfl, trivial⟩
  exact ⟨c, s', h⟩

theorem compiled_feedsOnce_countdown : parse countdownText = .ok [countdown] ∧
    ∃ c s', compileFunc countdown {} = .ok c s' ∧ ∃ s₁ trees w v,
      buildForest countdown (.start countdown s₁) = .ok trees w ∧ selectAll trees w = .ok () v ∧
        c.blocks = v.code.blocks ∧ ∀ s, List.Forall₂ (fun x phi ↦ StandsFor s w x phi ∧
          FedOnce countdown trees w v s x phi) (countdown.blockPhis s) (phisAt c.blocks s) := by
  obtain ⟨c, s', h⟩ := compileFunc_countdown
  exact ⟨parse_countdown, c, s', h,
    compiled_feedsOnce parse_countdown (List.mem_singleton_self _) h⟩

end TreeCover
