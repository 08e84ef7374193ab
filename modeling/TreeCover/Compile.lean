import TreeCover.Assembly.Layout
import TreeCover.Forest.Build
import TreeCover.Tiling.Select

/-!
# Compiling functions

A function is compiled in one pass through the pipeline: its forest is built as a whole, so that
every use is counted before the first tree is judged; then code is selected block by block, live
intervals are built, registers are allocated, and the result is laid out with its frame.

A session is threaded through all functions. A function that fails leaves its labels and counts
behind in the session and nothing else.
-/

namespace TreeCover

open Ir Machine

/-- All that is known about a compiled function. -/
structure Compiled where
  assembly : Assembly
  /-- The selected blocks, still on virtual registers. -/
  blocks : List Machine.Block
  liveness : Liveness
  allocation : Allocation
  materialized : List Materialized
  /-- How many nodes the forest had. -/
  nodes : Nat

namespace Compiled

/-- Where the value of an instruction lives, if it has a register of its own. -/
def location? (c : Compiled) (inst : InstId) : Option Location :=
  ((c.materialized.find? (·.inst == inst)).bind (·.vreg)).bind c.allocation.location?

end Compiled

namespace Work

/-- The label of a block, if any branch names it. -/
def blockLabel? (w : Workspace) (b : BlockId) : Option LabelId :=
  (w.defs.labels.lookup b).bind fun id ↦
    match (w.forest.node id).slot with
    | .label l => some l
    | _ => none

/-- Builds the forest of a function, and gives the trees of each block. -/
def buildForest (f : Func) : Work (List (List NodeId)) := do
  defineArguments f
  declarePhis f
  createLabels f
  (List.range f.blocks.length).mapM fun b ↦ do
    modifyCode (·.beginBlock b none)
    buildBlock f b

/-- Selects code for the trees of all blocks. -/
def selectAll (trees : List (List NodeId)) : Work Unit :=
  trees.zipIdx.forM fun (roots, b) ↦ do
    let label := blockLabel? (← get) b
    modifyCode (·.beginBlock b label)
    selectBlock roots

/-- Builds the live intervals of the code. -/
def buildLiveness (loops : Loops) : Work Liveness := do
  let code := (← get).code
  let l := Liveness.build code.blocks loops code.vregs
  modifySession (·.reportAll (l.extensions.map .extended))
  return l

/-- What a decision of the allocator reports. -/
def decisionEvents (func : String) : Decision → List Event
  | .assign v r => [.assigned func v r]
  | .inherit .. => []
  | .spill v slot fresh =>
    (if fresh then
      [.slotMade func (.spill v) (roundToSlot LinearScan.slotBytes) slot] else []) ++
    [.spilled func v slot]

/-- Counts a decision of the allocator. -/
def countDecision (s : Session) : Decision → Session
  | .assign .. | .inherit .. => s.countRegister
  | .spill .. => s.countSpill

/-- Allocates registers; slots are added to the frame. -/
def allocate (intervals : IntervalTable) : Work Allocation := do
  let w ← get
  let (a, frame) := LinearScan.run w.session.config.registerBudget intervals w.code.frame
  modifyCode fun c ↦ { c with frame }
  modifySession fun s ↦
    a.decisions.foldl countDecision (s.reportAll (a.decisions.flatMap (decisionEvents w.code.name)))
  return a

/-- Lays out the code. -/
def assemble (a : Allocation) : Work Assembly := fun w ↦
  match (Assembly.layout w.code.name w.code.blocks w.code.frame.size a).run w.session with
  | .ok r session => .ok r { w with session }
  | .error e session => .error e { w with session }

/-- Compiles the function the workspace was made for. -/
def compile (f : Func) : Work Compiled := do
  report (.compiling f.name f.blocks.length)
  let loops := Loops.of f.succs
  unless loops.isForwardLayout do report (.unorderedLayout f.name)
  let trees ← buildForest f
  selectAll trees
  let liveness ← buildLiveness loops
  let allocation ← allocate liveness.intervals
  let assembly ← assemble allocation
  modifySession (·.countFunction f.name assembly.insts.length)
  let w ← get
  return {
    assembly, liveness, allocation
    blocks := w.code.blocks, materialized := w.materialized, nodes := w.forest.size }

end Work

/-- Work that outlives single functions. -/
abbrev Compiling := EStateM CompileError Session

/-- Compiles a function. -/
def compileFunc (f : Func) : Compiling Compiled := fun s ↦
  match (Work.compile f).run (.start f s) with
  | .ok r w => .ok r w.session
  | .error e w => .error e w.session

/-- Compiles functions up to the first failure. -/
def compileAll (fs : List Func) : Compiling (List Compiled) := fs.mapM compileFunc

/-- The outcome of compiling every function, whether others fail or not. -/
structure Outcome where
  compiled : List Compiled := []
  failures : List (String × CompileError) := []

/-- Compiles one more function. -/
def Outcome.step (o : Outcome × Session) (f : Func) : Outcome × Session :=
  match (compileFunc f).run o.2 with
  | .ok c s => ({ o.1 with compiled := o.1.compiled ++ [c] }, s)
  | .error e s =>
    ({ o.1 with failures := o.1.failures ++ [(f.name, e)] }, s.report (.failed f.name e))

/-- Compiles every function and collects the failures. -/
def compileEach (fs : List Func) (s : Session) : Outcome × Session := fs.foldl Outcome.step ({}, s)

/-- The assembly text of compiled functions. -/
def assemblyText (cs : List Compiled) : String := Assembly.textAll (cs.map (·.assembly))

/-- Reads a text, and reports each function read. -/
def readSource (source : String) : Compiling (List Func) := do
  let r := readText source
  modify (·.reportAll (r.functions.map fun f ↦ .parsed f.name f.blocks.length))
  match r.error with
  | none => return r.functions
  | some e => throw (.read e)

/-- Compiles a text to assembly. -/
def compileSource (source : String) : Compiling String := do
  return assemblyText (← compileAll (← readSource source))

end TreeCover
