import TreeCover.Tiling.Actions

/-!
# Selecting code

The trees of a block are visited in order. A tree is emitted where it stands if nothing uses it,
if it is worth a register of its own, if it has a side effect, if its value is used in another
block, or if a use further down would read memory too late. Otherwise it is left to its consumers,
which emit it as a part of their own trees.

To emit a tree is to label it and to reduce its root along the cheapest rules. An instruction that
was reduced to a register is computed from then on: whoever meets it again reads that register.
-/

namespace TreeCover

open Ir Machine

/-! ## Reduction -/

/-- The result of a node that was emitted before, if it serves for the nonterminal. -/
def Node.reuse? (n : Node) (nt : Nonterminal) : Option Bound :=
  match n.computed, n.op, n.slot, nt with
  | true, .inst _, .vreg v, .reg | true, .inst _, .vreg v, .mem => some (.reg v)
  | true, .inst _, .vreg v, .addr => some (.addr (.based (.virt v) 0))
  | true, .inst _, .vreg _, .stmt => some .none
  | _, _, _, _ => none

mutual

/-- The leaves of a pattern at a node, in order, each with its nonterminal. The node belongs to
the rule, and gives up the references to its children. -/
def Pattern.takeLeaves : Pattern → NodeId → Forest → List (NodeId × Nonterminal) × Forest
  | .nt goal, id, f => ([(id, goal)], f)
  | .op _ kids, id, f =>
    let (leaves, f) := Pattern.takeKidLeaves kids (f.kidOwners id) f
    (leaves, f.releaseKids id)
  | .variadic _ goal, id, f => ((f.kidOwners id).map fun k ↦ (k, goal), f.releaseKids id)

/-- The leaves of patterns at corresponding nodes. -/
def Pattern.takeKidLeaves :
    List Pattern → List NodeId → Forest → List (NodeId × Nonterminal) × Forest
  | p :: ps, id :: ids, f =>
    let (leaves, f) := p.takeLeaves id f
    let (more, f) := Pattern.takeKidLeaves ps ids f
    (leaves ++ more, f)
  | _, _, f => ([], f)

end

namespace Work

def failCovering {α : Type} (id : NodeId) : Work α := do
  throw (.uncovered (← get).code.name id (← node id).op.text)

/-- Remembers the register of an instruction. -/
def markComputed (id : NodeId) (v : VReg) : Work Unit :=
  modifyForest (·.update id fun n ↦
    { n with computed := true, slot := .vreg v, roles := { n.roles with register := true } })

/-- Reduces a node to a nonterminal by the rules of its labels. Along a branch of the recursion
no node meets the same nonterminal twice, which bounds its depth. -/
def reduceFrom : Nat → NodeId → Nonterminal → Work Bound
  | 0, id, _ => failCovering id
  | fuel + 1, id, nt => do
    let id := (← get).forest.owner id
    let n ← node id
    if let some b := n.reuse? nt then return b
    match (← get).labels.rule? id nt with
    | none => failCovering id
    | some r =>
      let leaves ← modifyGet fun w ↦
        let (leaves, forest) := r.pattern.takeLeaves id w.forest
        (leaves, { w with forest })
      report (.reduced (← get).code.name id nt r.name)
      let kids ← leaves.mapM fun (k, goal) ↦ reduceFrom fuel k goal
      let result ← applyRule r id kids
      match nt, result, (← node id).op with
      | .reg, .reg v, .inst _ => markComputed id v
      | _, _, _ => pure ()
      return result

/-- Reduces a node to a nonterminal. -/
def reduce (id : NodeId) (nt : Nonterminal) : Work Bound := do
  reduceFrom (((← get).forest.size + 1) * (Nonterminal.all.length + 1)) id nt

/-! ## Trees -/

/-- What an improvement of a node's label reports. -/
def improvementEvent (id : NodeId) (i : Improvement) : Event :=
  if i.rule.isChain then .chained id i.rule.lhs i.rule.name
  else .labeled id i.rule.lhs i.rule.name i.cost

/-- What labels report, in the order in which they were made. -/
def labelEvents (ls : Labels) : List Event :=
  ls.reverse.flatMap fun (id, l) ↦ l.reverse.map (improvementEvent id)

/-- Labels a tree anew. -/
def label (root : NodeId) : Work Unit := do
  match (labelTree (← get).forest root).run [] with
  | .ok _ ls =>
    modify fun w ↦ { w with labels := ls, session := w.session.reportAll (labelEvents ls) }
  | .error id ls =>
    modify fun w ↦ { w with labels := ls, session := w.session.reportAll (labelEvents ls) }
    failCovering id

/-- Whether a tree has to be emitted where it stands. This brings its height up to date. -/
def shouldEmit (root : NodeId) : Work Bool := do
  let level ← modifyGet fun w ↦
    let (level, forest) := w.forest.refreshLevel root
    (level, { w with forest })
  let w ← get
  let n := w.forest.node root
  let refs := w.forest.refs root
  return refs = 0
    || w.session.config.threshold < min (level * refs) infinite
    || n.hasSideEffect
    || (n.escapes && n.opcode? ≠ some .alloca)
    || w.forest.isFlowDependent root

/-- What the root of a tree is reduced to: a register if it is a value that somebody wants. -/
def goalOf (f : Forest) (root : NodeId) : Nonterminal :=
  let isValue := (f.node root).opcode?.any fun op ↦ op.isDefinition && op ≠ .alloca
  if 0 < f.refs root && isValue then .reg else .stmt

/-- Emits a tree. -/
def selectRoot (root : NodeId) : Work Unit := do
  let goal := goalOf (← get).forest root
  label root
  let w ← get
  let cost := w.labels.cost root goal
  unless cost < infinite do failCovering root
  if w.session.config.traceCover then
    report (.covered w.code.name (w.forest.dump root) goal cost)
  let result ← reduce root goal
  modifySession (·.countTree)
  if let some inst := (← node root).source then
    let vreg := match result with
      | .reg v => some v
      | _ => none
    modify fun w ↦ { w with materialized := w.materialized ++ [⟨inst, vreg⟩] }

/-- Emits a tree of the current block or leaves it to its consumers. -/
def selectTree (root : NodeId) : Work Unit := do
  let n ← node root
  if n.target.isSome || n.computed then return
  if ← shouldEmit root then selectRoot root
  else report (.left (← get).code.name root)

/-- Selects code for the trees of the current block, in order. -/
def selectBlock (roots : List NodeId) : Work Unit := roots.forM selectTree

end Work

end TreeCover
