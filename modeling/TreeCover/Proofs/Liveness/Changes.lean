import TreeCover.Proofs.Liveness.Build

/-!
# The pass, change by change

A visit to a block is a list of changes to single intervals: it stretches the intervals of phis, of
what is live at the end, and of what instructions read, it cuts those of what instructions write,
and at a loop header it stretches what is live at the start over the loop.

Only cuts lose positions, and a cut at an instruction loses none behind that instruction. So no
change in a block touches what was covered at or after its end, which is all that was covered for
later blocks: the stretch over a loop lasts to the end of the pass. This uses neither the order of
the blocks nor where the loops come from.
-/

namespace TreeCover

open Machine IntervalTable

/-- A change of one interval. -/
inductive Change where
  /-- Covers the positions from `start` to `stop`. -/
  | stretch (v : VReg) (start stop : Nat)
  /-- Cuts at the write of instruction number `k`. -/
  | cut (v : VReg) (k : Nat)
  /-- Covers the positions from `start` to the read of instruction number `k`, and lists the use. -/
  | read (v : VReg) (start k : Nat)

namespace Change

def apply (t : IntervalTable) : Change → IntervalTable
  | .stretch v start stop => t.update v (·.addRange start stop)
  | .cut v k => t.cut k v
  | .read v start k => t.read start k v

/-- The table after some changes. -/
def run (t : IntervalTable) (cs : List Change) : IntervalTable := cs.foldl apply t

theorem run_append (t : IntervalTable) (cs cs' : List Change) :
    run t (cs ++ cs') = run (run t cs) cs' := List.foldl_append

end Change

/-! ## The changes of a visit -/

section Visit

variable {blocks : List Block} {block : Block} {loops : Loops} {t : IntervalTable} {c : Change}
  {b n : Nat}

/-- Stretches the intervals of some registers. -/
def stretches (vs : List VReg) (start stop : Nat) : List Change :=
  vs.map fun v ↦ .stretch v start stop

/-- Gives the phis of all successors a position at the end of the block. -/
def phiChanges (blocks : List Block) (block : Block) (last : Nat) : List Change :=
  (block.succs.filterMap (blocks[·]?)).flatMap fun succ ↦ stretches (succ.phis.map (·.dst)) last last

/-- Walks backwards over instructions, the first of which has number `k`. -/
def instChanges (start : Nat) : Nat → List Inst → List Change
  | _, [] => []
  | k, i :: is =>
    instChanges start (k + 1) is ++ (i.defs.map (.cut · k) ++ i.uses.map (.read · start k))

/-- Stretches what is live on entry to a loop header to the end of the loop. -/
def loopChanges (blocks : List Block) (loops : Loops) (b : Nat) (range : BlockRange) : List Change :=
  match loops.loopEnd? b with
  | some e =>
    stretches (entrySet blocks b) range.start
      (((blockRanges blocks)[e]?.map (·.last)).getD range.last)
  | none => []

/-- The changes of a visit to the block at `b`, in order. -/
def blockChanges (blocks : List Block) (loops : Loops) (b : Nat) (block : Block) : List Change :=
  let n := firstInst blocks b
  let range : BlockRange := ⟨2 * n, 2 * (n + block.insts.length)⟩
  phiChanges blocks block range.last ++
    stretches (exitSet blocks b block) range.start range.last ++
    instChanges range.start n block.insts ++ loopChanges blocks loops b range

theorem run_stretches (t : IntervalTable) (vs : List VReg) (start stop : Nat) :
    Change.run t (stretches vs start stop) = stretch t vs start stop := List.foldl_map

theorem run_phiChanges (blocks : List Block) (block : Block) (last : Nat) (t : IntervalTable) :
    Change.run t (phiChanges blocks block last) = definePhis blocks block last t := by
  rw [Change.run, phiChanges, List.foldl_flatMap, definePhis]
  congr
  funext t succ
  exact run_stretches t _ last last

theorem run_instChanges (start k : Nat) (insts : List Inst) (t : IntervalTable)
    (live : List VReg) :
    Change.run t (instChanges start k insts) = (passInsts start k insts t live).1 := by
  induction insts generalizing k with
  | nil => rfl
  | cons i is ih =>
    have hpass : passInsts start k (i :: is) t live =
        passInst start k i (passInsts start (k + 1) is t live).1
          (passInsts start (k + 1) is t live).2 := rfl
    rw [instChanges, Change.run_append, Change.run_append, ih, hpass, passInst_eq, Change.run,
      Change.run, List.foldl_map, List.foldl_map]
    rfl

/-- The changes of a visit are all it does to the intervals. -/
theorem run_blockChanges {p : LivenessPass} (hblock : blocks[b]? = some block)
    (hlater : p.liveIn = (entrySets blocks).drop (b + 1)) :
    Change.run p.intervals (blockChanges blocks loops b block) =
      (passBlock blocks (blockRanges blocks) loops b block p).intervals := by
  rw [passBlock_eq hblock (getElem?_blockRanges hblock) hlater, blockChanges, Change.run_append,
    Change.run_append, Change.run_append, run_phiChanges, run_stretches,
    run_instChanges _ _ _ _ (exitSet blocks b block), loopChanges]
  cases loops.loopEnd? b with
  | none => rfl
  | some e => exact run_stretches _ _ _ _

/-! ## What changes keep -/

/-- The position from which a change keeps all that is covered. -/
def Change.keptFrom : Change → Nat
  | .cut _ k => 2 * k + 1
  | _ => 0

theorem Change.keepsFrom_apply (c : Change) (ht : t.Sorted) : KeepsFrom c.keptFrom t (c.apply t) := by
  cases c with
  | stretch v start stop => exact keepsFrom_addRange v start stop ht
  | cut v k => exact keepsFrom_cut k v ht
  | read v start k => exact keepsFrom_read start k v ht

theorem Change.sorted_run (cs : List Change) (ht : t.Sorted) : (Change.run t cs).Sorted :=
  List.foldlRecOn (motive := IntervalTable.Sorted) cs _ ht fun _ h c _ ↦ (c.keepsFrom_apply h).sorted

theorem keptFrom_of_mem_stretches {vs : List VReg} {start stop : Nat}
    (hc : c ∈ stretches vs start stop) : c.keptFrom = 0 := by
  obtain ⟨v, -, rfl⟩ := List.mem_map.mp hc
  rfl

/-- A cut keeps what is covered behind its instruction. -/
theorem keptFrom_of_mem_instChanges {start k : Nat} {insts : List Inst}
    (hc : c ∈ instChanges start k insts) : c.keptFrom ≤ 2 * (k + insts.length) := by
  induction insts generalizing k with
  | nil => exact absurd hc List.not_mem_nil
  | cons i is ih =>
    rw [List.length_cons]
    rcases List.mem_append.mp hc with hc | hc
    · have := ih hc
      omega
    · rcases List.mem_append.mp hc with hc | hc
      · obtain ⟨v, -, rfl⟩ := List.mem_map.mp hc
        rw [Change.keptFrom]
        omega
      · obtain ⟨v, -, rfl⟩ := List.mem_map.mp hc
        exact Nat.zero_le _

/-- **One block.** No change in a block loses a position at or after its end. -/
theorem keptFrom_of_mem_blockChanges (hc : c ∈ blockChanges blocks loops b block) :
    c.keptFrom ≤ 2 * (firstInst blocks b + block.insts.length) := by
  rw [blockChanges, List.mem_append, List.mem_append, List.mem_append] at hc
  rcases hc with ((hc | hc) | hc) | hc
  · obtain ⟨succ, -, hc⟩ := List.mem_flatMap.mp hc
    rw [keptFrom_of_mem_stretches hc]
    exact Nat.zero_le _
  · rw [keptFrom_of_mem_stretches hc]
    exact Nat.zero_le _
  · exact keptFrom_of_mem_instChanges hc
  · rw [loopChanges] at hc
    split at hc
    next =>
      rw [keptFrom_of_mem_stretches hc]
      exact Nat.zero_le _
    next => exact absurd hc List.not_mem_nil

end Visit

/-! ## Loops -/

namespace Liveness

variable {blocks : List Block} {block : Block} {loops : Loops} {vregs b h e : Nat}

/-- The intervals when the blocks from `b` on have been visited. -/
def tableFrom (blocks : List Block) (loops : Loops) (vregs b : Nat) : IntervalTable :=
  (passBlocks blocks (blockRanges blocks) loops (List.replicate vregs Interval.empty) b
    (blocks.drop b)).intervals

theorem tableFrom_eq_run (hblock : blocks[b]? = some block) :
    tableFrom blocks loops vregs b =
      Change.run (tableFrom blocks loops vregs (b + 1)) (blockChanges blocks loops b block) := by
  obtain ⟨hlater, -, -⟩ := @passBlocks_spec blocks loops _ (b + 1) (sorted_replicate vregs) _ rfl
  have hdrop : blocks.drop b = block :: blocks.drop (b + 1) := by
    obtain ⟨hlt, rfl⟩ := List.getElem?_eq_some_iff.mp hblock
    exact List.drop_eq_getElem_cons hlt
  rw [tableFrom, tableFrom, hdrop, passBlocks, run_blockChanges hblock hlater]

/-- The registers live on entry to a block are published in ascending order. -/
theorem getElem?_liveIn_build (hblock : blocks[b]? = some block) :
    (build blocks loops vregs).liveIn[b]? = some ((entrySet blocks b).mergeSort (· ≤ ·)) := by
  obtain ⟨hlive, -, -⟩ := @passBlocks_spec blocks loops _ 0 (sorted_replicate vregs) blocks
    List.drop_zero
  have hset : (entrySets blocks)[b]? = some (entrySet blocks b) := by
    rw [← Nat.add_zero b, ← List.getElem?_drop, drop_entrySets_eq_cons hblock]
    rfl
  rw [build]
  simp only
  rw [hlive, List.drop_zero, List.getElem?_map, hset, Option.map_some]

/-- What is live on entry to block `h` is covered from its start to the last position of
block `e`. -/
def CoversThrough (l : Liveness) (h e : Nat) : Prop :=
  ∃ header last live, l.ranges[h]? = some header ∧ l.ranges[e]? = some last ∧
    l.liveIn[h]? = some live ∧ ∀ v ∈ live, ∀ p, header.start ≤ p → p ≤ last.last → l.Covers v p

theorem coversThrough_build (hend : loops.loopEnd? h = some e) (hh : h < blocks.length)
    (he : e < blocks.length) : (build blocks loops vregs).CoversThrough h e := by
  have hheader := List.getElem?_eq_getElem hh
  have hlast := getElem?_blockRanges (List.getElem?_eq_getElem he)
  obtain ⟨t, hcovers, -, -, hloop⟩ := blockCovered_build loops vregs hheader
  refine ⟨_, _, _, getElem?_blockRanges hheader, hlast, getElem?_liveIn_build hheader, ?_⟩
  intro v hv p hstart hstop
  rw [List.mem_mergeSort] at hv
  exact (hcovers v p).mpr (hloop e _ hend hlast v hv p hstart hstop)

/-- **Loops stay covered.** Whatever the blocks, their order and the loops are, what is live on entry
to the header of a loop is covered to the last position of the loop. The loops of the blocks' own
graph end inside it. The visit to a block is a run of changes, none of which takes from an interval
a position at or after the end of the block. -/
theorem build_covers_loops (blocks : List Block) (loops : Loops) (vregs : Nat) :
    (∀ h e, loops.loopEnd? h = some e → h < blocks.length → e < blocks.length →
      (build blocks loops vregs).CoversThrough h e) ∧
    (∀ h e, (Loops.of (blockGraph blocks)).loopEnd? h = some e →
      h < blocks.length ∧ e < blocks.length) ∧
    (∀ b block, blocks[b]? = some block → ∃ range,
      (build blocks loops vregs).ranges[b]? = some range ∧
      tableFrom blocks loops vregs b =
        Change.run (tableFrom blocks loops vregs (b + 1)) (blockChanges blocks loops b block) ∧
      ∀ front c back, blockChanges blocks loops b block = front ++ c :: back →
        ∀ v p, range.stop ≤ p →
          (Change.run (tableFrom blocks loops vregs (b + 1)) front).Covers v p →
          (c.apply (Change.run (tableFrom blocks loops vregs (b + 1)) front)).Covers v p) ∧
    ∀ v p, (build blocks loops vregs).Covers v p ↔ (tableFrom blocks loops vregs 0).Covers v p := by
  refine ⟨fun h e ↦ coversThrough_build, ?_, ?_, covers_build blocks loops vregs⟩
  · intro h e hend
    have hlen : (blockGraph blocks).length = blocks.length := List.length_map _
    obtain ⟨t, hback, -⟩ := Loops.exists_loopBody_of_loopEnd hend
    have he := Loops.loopEnd_lt_length hend
    have hh := (FlowGraph.edge_of_mem_backEdges hback).2.2
    rw [hlen] at he hh
    exact ⟨hh, he⟩
  · intro b block hblock
    refine ⟨_, getElem?_blockRanges hblock, tableFrom_eq_run hblock, ?_⟩
    intro front c back hchanges v p hp hcovers
    obtain ⟨-, hsorted, -⟩ :=
      @passBlocks_spec blocks loops _ (b + 1) (sorted_replicate vregs) _ rfl
    have hmem : c ∈ blockChanges blocks loops b block := by
      rw [hchanges]
      exact List.mem_append_right _ List.mem_cons_self
    have hkept := keptFrom_of_mem_blockChanges hmem
    exact (c.keepsFrom_apply (Change.sorted_run front hsorted)).covers v p
      (Nat.le_trans hkept hp) hcovers

/-- Blocks that are no reverse post-order, with a loop that is entered at two blocks. -/
def tangled : List Block :=
  [{ id := 0, succs := [1, 2], insts := [moveTo 0 (.imm 9)] },
    { id := 1, succs := [3], insts := [moveTo 1 (.vreg 0)] },
    { id := 2, succs := [1], insts := [moveTo 1 (.imm 1)] },
    { id := 3, succs := [2], insts := [moveTo 1 (.imm 2)] }]

/-- No block after the header reads register `0`, which is live around the loop. -/
theorem tangled_covers_loop :
    (Loops.of (blockGraph tangled)).isForwardLayout = false ∧
      ¬ (Loops.of (blockGraph tangled)).Reducible ∧
      (Loops.of (blockGraph tangled)).loopEnd? 1 = some 3 ∧
      ∀ p, 2 ≤ p → p ≤ 7 → (build tangled (Loops.of (blockGraph tangled)) 2).Covers 0 p := by
  have hend : (Loops.of (blockGraph tangled)).loopEnd? 1 = some 3 := by decide
  have hirreducible : ¬ (Loops.of (blockGraph tangled)).Reducible := by
    intro hred
    have hpath : (blockGraph tangled).IsPath [2, 0] 2 :=
      FlowGraph.IsPath.entry.step ⟨by decide, by decide⟩
    have hmem := hred 2 1 (by decide) [2, 0] hpath
    exact absurd hmem (by decide)
  obtain ⟨hloops, -⟩ := build_covers_loops tangled (Loops.of (blockGraph tangled)) 2
  obtain ⟨header, last, live, hheader, hlast, hlive, hcovers⟩ :=
    hloops 1 3 hend (by decide) (by decide)
  obtain rfl : ⟨2, 4⟩ = header := Option.some.inj hheader
  obtain rfl : ⟨6, 8⟩ = last := Option.some.inj hlast
  rw [@getElem?_liveIn_build tangled tangled[1] _ 2 1 rfl] at hlive
  obtain rfl := Option.some.inj hlive
  exact ⟨by decide, hirreducible, hend, hcovers 0 (List.mem_mergeSort.mpr (by decide))⟩

end Liveness

end TreeCover
