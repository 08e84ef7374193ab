import TreeCover.Flow.Reach

/-!
# Loops of a flow graph

A flow graph is a table of successor lists; block `0` is the entry, and a successor outside the
table leads nowhere. A depth-first walk from the entry gives a reverse post-order and the back
edges, those whose target is still open on the path of the walk. A back edge `tail → header`
closes a loop: the header and all blocks that reach the tail without passing the header.

What the rest of the program wants to know is how far, in layout order, the loops of a header
extend, and whether the layout itself is a reverse post-order.

The walk nests at most once per block, because it opens a block before it goes on from it; the
number of blocks is its fuel.
-/

namespace TreeCover

/-- Successor lists by block. -/
abbrev FlowGraph := List (List Nat)

namespace FlowGraph

/-- The successors of a block; one outside the table has none. -/
def succs (g : FlowGraph) (b : Nat) : List Nat := g[b]?.getD []

/-- The blocks with an edge to `b`, once per edge. -/
def preds (g : FlowGraph) (b : Nat) : List Nat :=
  g.zipIdx.flatMap fun (targets, a) ↦ (targets.filter (· == b)).map fun _ ↦ a

def edgeCount (g : FlowGraph) : Nat := g.flatten.length

/-! ## Depth-first walk -/

/-- What a depth-first walk has seen: blocks opened, blocks closed (latest first), and back edges
in the order of their discovery. -/
structure Walk where
  opened : List Nat := []
  closed : List Nat := []
  backEdges : List (Nat × Nat) := []

/-- Opens `b`, follows its edges in order, and closes it. -/
def visit (g : FlowGraph) : Nat → Nat → Walk → Walk
  | 0, _, w => w
  | fuel + 1, b, w =>
    let w := (g.succs b).foldl (fun w t ↦
      if g.length ≤ t then w
      else if t ∉ w.opened then visit g fuel t w
      else if t ∉ w.closed then { w with backEdges := w.backEdges ++ [(b, t)] }
      else w) { w with opened := b :: w.opened }
    { w with closed := b :: w.closed }

/-- The walk from the entry. -/
def walk (g : FlowGraph) : Walk := if g.isEmpty then {} else visit g g.length 0 {}

/-! ## Loops -/

/-- The blocks of the loop closed by the back edge `tail → header`. -/
def loopBody (g : FlowGraph) (tail header : Nat) : List Nat :=
  (reach g.preds (g.edgeCount + 2) [tail] (.singleton header)).members

end FlowGraph

/-- The loop structure of a flow graph. -/
structure Loops where
  graph : FlowGraph
  /-- Reachable blocks in reverse post-order. -/
  order : List Nat
  backEdges : List (Nat × Nat)

namespace Loops

/-- The loop structure found by the walk from the entry. -/
def of (g : FlowGraph) : Loops := ⟨g, g.walk.closed, g.walk.backEdges⟩

/-- Whether every edge out of a reachable block that is not a back edge leads to a later block. -/
def isForwardLayout (l : Loops) : Bool :=
  l.order.all fun b ↦ (l.graph.succs b).all fun t ↦ decide (b < t) || l.backEdges.contains (b, t)

/-- The last block in layout order of the loops headed by `h`, if there are any. -/
def loopEnd? (l : Loops) (h : Nat) : Option Nat :=
  let tails := (l.backEdges.filter (·.2 == h)).map (·.1)
  if tails.isEmpty then none
  else some ((tails.flatMap fun t ↦ l.graph.loopBody t h).foldl max h)

/-- Whether a back edge ends in `b`. -/
def isHeader (l : Loops) (b : Nat) : Bool := (l.loopEnd? b).isSome

end Loops

end TreeCover
