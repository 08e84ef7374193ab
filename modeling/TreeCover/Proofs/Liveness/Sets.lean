import Mathlib.Data.List.Basic
import Mathlib.Data.List.Nodup
import TreeCover.Liveness.Build
import TreeCover.Proofs.Flow.Layout

/-!
# Live sets and live paths

What the pass computes at the start and the end of each block are sets that satisfy the usual
dataflow equations, but for one thing: at the end of a block the sets of earlier blocks are not
known yet and are left out. `LiveAt` is liveness in the sense of paths, with nothing left out.

The two agree up to loops, if a register is live over edges that lead backwards only where these
close a loop; in a forward layout no others lead backwards. Along a path to a read, what is lost at a
back edge is live at its header, so a register that is live on a path is in the computed set or the
block belongs to a loop whose header has the register in its set.
-/

namespace TreeCover

open Machine

variable {blocks : List Block} {block succ : Block} {v : VReg} {b s i : Nat}

/-! ## Sets as lists -/

theorem mem_addAll {xs ys : List VReg} : v ∈ addAll xs ys ↔ v ∈ xs ∨ v ∈ ys := by
  rw [addAll]
  induction ys generalizing xs with
  | nil => simp
  | cons y ys ih => rw [List.foldl_cons, ih, List.mem_insert_iff, List.mem_cons, or_assoc,
      or_left_comm]

theorem nodup_addAll {xs : List VReg} (h : xs.Nodup) (ys : List VReg) : (addAll xs ys).Nodup := by
  rw [addAll]
  induction ys generalizing xs with
  | nil => exact h
  | cons y ys ih => exact ih (List.Nodup.insert h)

/-- Takes `ds` out of a list without repetitions. -/
def removeAll (xs ds : List VReg) : List VReg := ds.foldl (fun zs d ↦ zs.erase d) xs

theorem nodup_removeAll {xs : List VReg} (h : xs.Nodup) (ds : List VReg) :
    (removeAll xs ds).Nodup := by
  rw [removeAll]
  induction ds generalizing xs with
  | nil => exact h
  | cons d ds ih => exact ih (h.erase d)

theorem mem_removeAll {xs ds : List VReg} (h : xs.Nodup) :
    v ∈ removeAll xs ds ↔ v ∈ xs ∧ v ∉ ds := by
  rw [removeAll]
  induction ds generalizing xs with
  | nil => simp
  | cons d ds ih =>
    rw [List.foldl_cons, ih (h.erase d), h.mem_erase_iff, List.mem_cons, not_or, and_assoc,
      and_left_comm]

/-! ## Through a block -/

/-- The registers live before an instruction, given those live after it. -/
def liveBefore (inst : Inst) (live : List VReg) : List VReg :=
  addAll (removeAll live inst.defs) inst.uses

/-- The registers live before some instructions, given those live after the last of them. -/
def liveThrough (insts : List Inst) (live : List VReg) : List VReg := insts.foldr liveBefore live

theorem mem_liveBefore {inst : Inst} {live : List VReg} (h : live.Nodup) :
    v ∈ liveBefore inst live ↔ (v ∈ live ∧ v ∉ inst.defs) ∨ v ∈ inst.uses := by
  rw [liveBefore, mem_addAll, mem_removeAll h]

theorem nodup_liveThrough {live : List VReg} (h : live.Nodup) (insts : List Inst) :
    (liveThrough insts live).Nodup := by
  induction insts with
  | nil => exact h
  | cons inst insts ih => exact nodup_addAll (nodup_removeAll ih _) _

private theorem foldl_liveOut (f : Nat → List VReg) (g : Nat → List VReg) (ss : List Nat)
    (live : List VReg) :
    v ∈ ss.foldl (fun live s ↦ addAll (addAll live (f s)) (g s)) live ↔
      v ∈ live ∨ ∃ s ∈ ss, v ∈ f s ∨ v ∈ g s := by
  induction ss generalizing live with
  | nil => simp
  | cons s ss ih =>
    rw [List.foldl_cons, ih, mem_addAll, mem_addAll, List.exists_mem_cons_iff, or_assoc, or_assoc,
      or_assoc]

theorem nodup_liveOut (blocks : List Block) (later : List (List VReg)) (b : Nat) (block : Block) :
    (liveOut blocks later b block).Nodup := by
  rw [liveOut]
  refine List.foldlRecOn (motive := List.Nodup) _ _ List.nodup_nil fun live h s _ ↦ ?_
  exact nodup_addAll (nodup_addAll h _) _

/-- What is live at the end of a block, as far as later blocks and phis tell. -/
theorem mem_liveOut {later : List (List VReg)} :
    v ∈ liveOut blocks later b block ↔ ∃ s ∈ block.succs,
      (b < s ∧ v ∈ later[s - (b + 1)]?.getD []) ∨
        ∃ succ, blocks[s]? = some succ ∧ v ∈ phiInputs succ b := by
  rw [liveOut, foldl_liveOut (fun s ↦ if s ≤ b then [] else later[s - (b + 1)]?.getD [])
    fun s ↦ (blocks[s]?.map fun succ ↦ phiInputs succ b).getD []]
  refine (or_iff_right List.not_mem_nil).trans (exists_congr fun s ↦ and_congr_right fun _ ↦ ?_)
  refine or_congr ?_ ?_
  · split
    next hle => exact ⟨fun h ↦ absurd h List.not_mem_nil, fun h ↦ absurd h.1 (by omega)⟩
    next hgt => exact (and_iff_right (by omega)).symm
  · cases blocks[s]? with
    | none => simp
    | some succ => simp

/-! ## The sets of the pass -/

/-- The registers live on entry to a block, given those live on entry to later ones. -/
def entryLive (blocks : List Block) (later : List (List VReg)) (b : Nat) (block : Block) :
    List VReg :=
  removeAll (liveThrough block.insts (liveOut blocks later b block)) (block.phis.map (·.dst))

/-- The registers live on entry to the given blocks, the first of which is at `b`. -/
def entrySetsFrom (blocks : List Block) : Nat → List Block → List (List VReg)
  | _, [] => []
  | b, block :: rest =>
    entryLive blocks (entrySetsFrom blocks (b + 1) rest) b block ::
      entrySetsFrom blocks (b + 1) rest

/-- The registers live on entry to each block. -/
def entrySets (blocks : List Block) : List (List VReg) := entrySetsFrom blocks 0 blocks

/-- The registers live on entry to block `b`. -/
def entrySet (blocks : List Block) (b : Nat) : List VReg := (entrySets blocks)[b]?.getD []

/-- The registers live at the end of block `b`. -/
def exitSet (blocks : List Block) (b : Nat) (block : Block) : List VReg :=
  liveOut blocks ((entrySets blocks).drop (b + 1)) b block

private theorem drop_entrySetsFrom (blocks rest : List Block) (b i : Nat) :
    (entrySetsFrom blocks b rest).drop i = entrySetsFrom blocks (b + i) (rest.drop i) := by
  induction i generalizing b rest with
  | zero => rfl
  | succ i ih =>
    cases rest with
    | nil => rw [List.drop_nil, entrySetsFrom, List.drop_nil, entrySetsFrom]
    | cons block rest =>
      rw [entrySetsFrom, List.drop_succ_cons, List.drop_succ_cons, ih, Nat.add_right_comm,
        Nat.add_assoc]

private theorem length_entrySetsFrom (blocks rest : List Block) (b : Nat) :
    (entrySetsFrom blocks b rest).length = rest.length := by
  induction rest generalizing b with
  | nil => rfl
  | cons block rest ih => rw [entrySetsFrom, List.length_cons, ih, List.length_cons]

theorem drop_entrySets (blocks : List Block) (b : Nat) :
    (entrySets blocks).drop b = entrySetsFrom blocks b (blocks.drop b) := by
  rw [entrySets, drop_entrySetsFrom, Nat.zero_add]

theorem nodup_exitSet (blocks : List Block) (b : Nat) (block : Block) :
    (exitSet blocks b block).Nodup := nodup_liveOut _ _ _ _

theorem mem_exitSet : v ∈ exitSet blocks b block ↔ ∃ s ∈ block.succs,
    (b < s ∧ v ∈ entrySet blocks s) ∨ ∃ succ, blocks[s]? = some succ ∧ v ∈ phiInputs succ b := by
  rw [exitSet, mem_liveOut]
  refine exists_congr fun s ↦ and_congr_right fun _ ↦ or_congr_left (and_congr_right fun hlt ↦ ?_)
  rw [List.getElem?_drop, Nat.add_sub_cancel' hlt, entrySet]

theorem drop_entrySets_eq_cons (hblock : blocks[b]? = some block) :
    (entrySets blocks).drop b = entrySet blocks b :: (entrySets blocks).drop (b + 1) := by
  have hlen : b < (entrySets blocks).length := by
    have hlt := (List.getElem?_eq_some_iff.mp hblock).1
    rwa [entrySets, length_entrySetsFrom]
  rw [List.drop_eq_getElem_cons hlen, entrySet, List.getElem?_eq_getElem hlen, Option.getD_some]

/-- What is live on entry to a block is live before its first instruction and not made by a phi. -/
theorem entrySet_eq (hblock : blocks[b]? = some block) :
    entrySet blocks b =
      removeAll (liveThrough block.insts (exitSet blocks b block)) (block.phis.map (·.dst)) := by
  have hdrop : blocks.drop b = block :: blocks.drop (b + 1) := by
    obtain ⟨hlt, rfl⟩ := List.getElem?_eq_some_iff.mp hblock
    exact List.drop_eq_getElem_cons hlt
  have hcons := drop_entrySets_eq_cons hblock
  rw [drop_entrySets, hdrop, entrySetsFrom, ← drop_entrySets] at hcons
  exact (List.cons.inj hcons).1.symm

theorem mem_entrySet (hblock : blocks[b]? = some block) :
    v ∈ entrySet blocks b ↔ v ∈ liveThrough block.insts (exitSet blocks b block) ∧
      v ∉ block.phis.map (·.dst) := by
  rw [entrySet_eq hblock, mem_removeAll (nodup_liveThrough (nodup_exitSet _ _ _) _)]

/-! ## Liveness along paths -/

/-- The edges between blocks. -/
def blockGraph (blocks : List Block) : FlowGraph := blocks.map (·.succs)

/-- `LiveAt blocks v b i` says that a path from before instruction `i` of block `b` (from its end,
if `i` is their number) leads to a read of `v` without passing a write of `v`. An operand handed
to a phi is read at the end of the block that hands it over, and the destination of a phi is
written on each edge into its block. -/
inductive LiveAt (blocks : List Block) (v : VReg) : Nat → Nat → Prop where
  | read {b i : Nat} {block : Block} {inst : Inst} : blocks[b]? = some block →
      block.insts[i]? = some inst → v ∈ inst.uses → LiveAt blocks v b i
  | pass {b i : Nat} {block : Block} {inst : Inst} : blocks[b]? = some block →
      block.insts[i]? = some inst → v ∉ inst.defs → LiveAt blocks v b (i + 1) → LiveAt blocks v b i
  | input {b s : Nat} {block succ : Block} {phi : Phi} {operand : Operand} :
      blocks[b]? = some block → s ∈ block.succs → blocks[s]? = some succ → phi ∈ succ.phis →
      (operand, b) ∈ phi.incoming → v ∈ operand.vregs → LiveAt blocks v b block.insts.length
  | edge {b s : Nat} {block succ : Block} : blocks[b]? = some block → s ∈ block.succs →
      blocks[s]? = some succ → v ∉ succ.phis.map (·.dst) → LiveAt blocks v s 0 →
      LiveAt blocks v b block.insts.length

theorem edge_blockGraph (hblock : blocks[b]? = some block) (hs : s ∈ block.succs)
    (hsucc : blocks[s]? = some succ) : (blockGraph blocks).Edge b s := by
  refine ⟨?_, ?_⟩
  · rwa [FlowGraph.succs, blockGraph, List.getElem?_map, hblock, Option.map_some, Option.getD_some]
  · rw [blockGraph, List.length_map]
    exact (List.getElem?_eq_some_iff.mp hsucc).1

theorem mem_phiInputs {phi : Phi} {operand : Operand} (hphi : phi ∈ succ.phis)
    (hin : (operand, b) ∈ phi.incoming) (hv : v ∈ operand.vregs) : v ∈ phiInputs succ b := by
  have hfrom : operand ∈ phi.inputsFrom b :=
    List.mem_map.mpr ⟨(operand, b), List.mem_filter.mpr ⟨hin, by simp⟩, rfl⟩
  exact List.mem_flatMap.mpr ⟨phi, hphi, List.mem_flatMap.mpr ⟨operand, hfrom, hv⟩⟩

/-- Whether block `b` belongs to a loop whose header has `v` in its set. -/
def LiveAround (blocks : List Block) (v : VReg) (b : Nat) : Prop :=
  ∃ t h, (t, h) ∈ (Loops.of (blockGraph blocks)).backEdges ∧ b ∈ (blockGraph blocks).loopBody t h ∧
    v ∈ entrySet blocks h

/-- `v` is live over the edge from `a` to `s`, which does not write it. -/
structure LiveOver (blocks : List Block) (v : VReg) (a s : Nat) : Prop where
  edge : (blockGraph blocks).Edge a s
  live : LiveAt blocks v s 0
  not_phi : ∃ succ, blocks[s]? = some succ ∧ v ∉ succ.phis.map (·.dst)

/-- Where `v` is live over an edge that leads backwards in the layout, a loop is closed. -/
def TurnsAtLoops (blocks : List Block) (v : VReg) : Prop :=
  ∀ a s, (blockGraph blocks).Reachable a → LiveOver blocks v a s →
    a < s ∨ (a, s) ∈ (Loops.of (blockGraph blocks)).backEdges

theorem turnsAtLoops_of_forward (hforward : (Loops.of (blockGraph blocks)).isForwardLayout = true)
    (v : VReg) : TurnsAtLoops blocks v :=
  fun _ _ ha h ↦ Loops.lt_or_mem_backEdges hforward ha h.edge

/-- **One pass is enough.** A register that is live on a path, but backwards only around loops, is in
the computed set there, or around a loop. -/
theorem LiveAt.mem_liveThrough_or_around (h : LiveAt blocks v b i) (hturns : TurnsAtLoops blocks v)
    (hreach : (blockGraph blocks).Reachable b) (hblock : blocks[b]? = some block) :
    v ∈ liveThrough (block.insts.drop i) (exitSet blocks b block) ∨ LiveAround blocks v b := by
  -- At the end of a block the set is the exit set, before an instruction it is one step further.
  have hend : ∀ {b : Nat} {block : Block},
      liveThrough (block.insts.drop block.insts.length) (exitSet blocks b block)
        = exitSet blocks b block := by
    intro b block
    rw [List.drop_length]
    rfl
  have hstep : ∀ {b i : Nat} {block : Block} {inst : Inst}, block.insts[i]? = some inst →
      liveThrough (block.insts.drop i) (exitSet blocks b block)
        = liveBefore inst (liveThrough (block.insts.drop (i + 1)) (exitSet blocks b block)) := by
    intro b i block inst hinst
    obtain ⟨hlt, rfl⟩ := List.getElem?_eq_some_iff.mp hinst
    rw [List.drop_eq_getElem_cons hlt]
    rfl
  have hnodup : ∀ {b i : Nat} {block : Block},
      (liveThrough (block.insts.drop i) (exitSet blocks b block)).Nodup :=
    nodup_liveThrough (nodup_exitSet _ _ _) _
  induction h generalizing block with
  | read hb hinst huse =>
    obtain rfl := Option.some.inj (hb.symm.trans hblock)
    rw [hstep hinst, mem_liveBefore hnodup]
    exact Or.inl (Or.inr huse)
  | pass hb hinst hdef _ ih =>
    obtain rfl := Option.some.inj (hb.symm.trans hblock)
    rw [hstep hinst, mem_liveBefore hnodup]
    exact (ih hreach hb).imp (fun hlive ↦ Or.inl ⟨hlive, hdef⟩) id
  | input hb hs hsucc hphi hin hv =>
    obtain rfl := Option.some.inj (hb.symm.trans hblock)
    rw [hend, mem_exitSet]
    exact Or.inl ⟨_, hs, Or.inr ⟨_, hsucc, mem_phiInputs hphi hin hv⟩⟩
  | @edge b s block succ hb hs hsucc hdst hlive ih =>
    obtain rfl := Option.some.inj (hb.symm.trans hblock)
    have hedge := edge_blockGraph hb hs hsucc
    -- What is in the set of the successor's start comes to `b` forwards or around the loop.
    have hentry : v ∈ entrySet blocks s →
        v ∈ exitSet blocks b block ∨ LiveAround blocks v b := by
      intro hv
      rcases hturns b s hreach ⟨hedge, hlive, succ, hsucc, hdst⟩ with hlt | hback
      · exact Or.inl (mem_exitSet.mpr ⟨s, hs, Or.inl ⟨hlt, hv⟩⟩)
      · exact Or.inr ⟨b, s, hback, (FlowGraph.loopBody_closed _ b s).1, hv⟩
    rw [hend]
    rcases ih (hreach.step hedge) hsucc with hlive | ⟨t, h, hback, hbody, hv⟩
    · exact hentry ((mem_entrySet hsucc).mpr ⟨hlive, hdst⟩)
    · by_cases hsh : s = h
      · subst hsh
        exact hentry hv
      · exact Or.inr ⟨t, h, hback, FlowGraph.mem_loopBody_of_edge hbody hsh hedge, hv⟩

end TreeCover
