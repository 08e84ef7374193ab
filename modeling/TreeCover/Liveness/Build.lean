import TreeCover.Flow.Loops
import TreeCover.Liveness.Interval
import TreeCover.Machine.Block

/-!
# Building live intervals

Instructions are numbered through all blocks in layout order; number `k` reads at position `2k`
and writes at `2k + 1`. One pass visits the blocks from last to first. What is live at the end of
a block is what its successors want at their start, together with the operands of their phis;
uses stretch an interval back to the start of the block, and a definition cuts it there.

The destination of a phi is written by a copy at the end of each predecessor. What is live at the
start of a loop header is stretched to the end of the loop, whose blocks were visited before: this
makes one pass enough.
-/

namespace TreeCover

open Machine

/-! ## Positions -/

/-- The positions `[start, stop)` of a block. -/
structure BlockRange where
  start : Nat
  stop : Nat
deriving DecidableEq, Repr

/-- The last position inside a block; that of an empty block is its start. -/
def BlockRange.last (r : BlockRange) : Nat := max (r.stop - 1) r.start

/-- The positions of blocks whose first instruction has number `n`. -/
def blockRangesFrom (n : Nat) : List Block → List BlockRange
  | [] => []
  | b :: bs => ⟨2 * n, 2 * (n + b.insts.length)⟩ :: blockRangesFrom (n + b.insts.length) bs

def blockRanges (blocks : List Block) : List BlockRange := blockRangesFrom 0 blocks

/-! ## Interval tables -/

/-- Intervals by virtual register. -/
abbrev IntervalTable := List Interval

/-- Changes the interval of `v`; the table grows for a register it does not have yet. -/
def IntervalTable.update (t : IntervalTable) (v : VReg) (f : Interval → Interval) : IntervalTable :=
  (t ++ List.replicate (v + 1 - t.length) Interval.empty).modify v f

def IntervalTable.interval (t : IntervalTable) (v : VReg) : Interval := t[v]?.getD Interval.empty

/-! ## The pass -/

/-- Values live on entry to a loop header, stretched to the end of the loop. -/
structure LoopExtension where
  header : Nat
  count : Nat
  last : Nat
deriving DecidableEq, Repr

/-- Where every virtual register of a function is live. -/
structure Liveness where
  intervals : IntervalTable
  ranges : List BlockRange
  /-- The registers live on entry to each block, in ascending order. -/
  liveIn : List (List VReg)
  /-- The loops that were stretched, in the order of the pass. -/
  extensions : List LoopExtension

/-- The pass after some blocks at the end of the layout; `liveIn` belongs to these blocks. -/
structure LivenessPass where
  intervals : IntervalTable
  liveIn : List (List VReg) := []
  extensions : List LoopExtension := []

/-- Adds `ys` to a list without repetitions. -/
def addAll (xs ys : List VReg) : List VReg := ys.foldl (fun zs y ↦ zs.insert y) xs

/-- Stretches the interval of each register over a range of positions. -/
def stretch (t : IntervalTable) (vs : List VReg) (start stop : Nat) : IntervalTable :=
  vs.foldl (fun t v ↦ t.update v (·.addRange start stop)) t

/-- What the block at `b` hands to the phis of a successor. -/
def phiInputs (succ : Block) (b : Nat) : List VReg :=
  succ.phis.flatMap fun phi ↦ (phi.inputsFrom b).flatMap (·.vregs)

/-- The registers live at the end of the block at `b`, given those live on entry to later blocks.
A successor at or before `b` has not been visited and counts only through its phis. -/
def liveOut (blocks : List Block) (later : List (List VReg)) (b : Nat) (block : Block) :
    List VReg :=
  block.succs.foldl (fun live s ↦
    let entry := if s ≤ b then [] else later[s - (b + 1)]?.getD []
    let inputs := (blocks[s]?.map fun succ ↦ phiInputs succ b).getD []
    addAll (addAll live entry) inputs) []

/-- Gives the phis of all successors a position at the end of the block. -/
def definePhis (blocks : List Block) (block : Block) (last : Nat) (t : IntervalTable) :
    IntervalTable :=
  (block.succs.filterMap (blocks[·]?)).foldl
    (fun t succ ↦ stretch t (succ.phis.map (·.dst)) last last) t

/-- Walks backwards over instruction number `k` of a block that starts at `start`. -/
def passInst (start k : Nat) (inst : Inst) (t : IntervalTable) (live : List VReg) :
    IntervalTable × List VReg :=
  let (t, live) := inst.defs.foldl
    (fun (t, live) d ↦ (IntervalTable.update t d (·.startAt (2 * k + 1)), live.erase d)) (t, live)
  inst.uses.foldl (fun (t, live) u ↦
    (IntervalTable.update t u fun i ↦ (i.addRange start (2 * k)).addUse (2 * k), live.insert u))
    (t, live)

/-- Walks backwards over instructions, the first of which has number `k`. -/
def passInsts (start : Nat) : Nat → List Inst → IntervalTable → List VReg →
    IntervalTable × List VReg
  | _, [], t, live => (t, live)
  | k, i :: is, t, live =>
    let (t, live) := passInsts start (k + 1) is t live
    passInst start k i t live

/-- Visits the block at `b` after all blocks behind it. -/
def passBlock (blocks : List Block) (ranges : List BlockRange) (loops : Loops) (b : Nat)
    (block : Block) (p : LivenessPass) : LivenessPass :=
  let range := ranges[b]?.getD ⟨0, 0⟩
  let live := liveOut blocks p.liveIn b block
  let t := stretch (definePhis blocks block range.last p.intervals) live range.start range.last
  let (t, live) := passInsts range.start (range.start / 2) block.insts t live
  let live := block.phis.foldl (fun live phi ↦ live.erase phi.dst) live
  match loops.loopEnd? b with
  | some e =>
    let last := (ranges[e]?.map (·.last)).getD range.last
    { intervals := stretch t live range.start last
      liveIn := live :: p.liveIn
      extensions := p.extensions ++ [⟨b, live.length, last⟩] }
  | none => { p with intervals := t, liveIn := live :: p.liveIn }

/-- Visits the given blocks, the first of which is at `b`, from last to first. -/
def passBlocks (blocks : List Block) (ranges : List BlockRange) (loops : Loops)
    (t : IntervalTable) : Nat → List Block → LivenessPass
  | _, [] => { intervals := t }
  | b, block :: rest =>
    passBlock blocks ranges loops b block (passBlocks blocks ranges loops t (b + 1) rest)

/-- The live intervals of a function with `vregs` virtual registers. -/
def Liveness.build (blocks : List Block) (loops : Loops) (vregs : Nat) : Liveness :=
  let ranges := blockRanges blocks
  let p := passBlocks blocks ranges loops (List.replicate vregs Interval.empty) 0 blocks
  { intervals := p.intervals.map (·.reverseUses)
    ranges
    liveIn := p.liveIn.map (·.mergeSort (· ≤ ·))
    extensions := p.extensions }

end TreeCover
