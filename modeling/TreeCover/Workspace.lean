import TreeCover.Machine.Code
import TreeCover.Session.Basic
import TreeCover.Tiling.Labels

/-!
# The workspace of a function

All that changes while a function is compiled: its forest, what names stand for in it, its code,
and the session it is compiled in. An error leaves the workspace as it was when the error arose,
since the labels drawn and the counts made so far stay with the session.
-/

namespace TreeCover

open Ir Machine

/-- The nodes of a function's values and blocks. -/
structure Definitions where
  values : List (Value × NodeId) := []
  /-- The register nodes of phis. -/
  phis : List (InstId × NodeId) := []
  labels : List (BlockId × NodeId) := []

/-- A tree emitted where it stood, and the register that holds its value. -/
structure Materialized where
  inst : InstId
  vreg : Option VReg
deriving DecidableEq, Repr

/-- The state of a compilation of one function. -/
structure Workspace where
  code : Code
  session : Session
  forest : Forest := {}
  defs : Definitions := {}
  /-- The labels of the tree in hand. -/
  labels : Labels := []
  /-- The trees emitted so far, in order. -/
  materialized : List Materialized := []

/-- Work on a function. -/
abbrev Work := EStateM CompileError Workspace

/-- An empty workspace for a function. -/
def Workspace.start (f : Func) (s : Session) : Workspace :=
  { code := .start f.name f.succs, session := s }

namespace Work

def report (e : Event) : Work Unit := modify fun w ↦ { w with session := w.session.report e }

def modifyForest (g : Forest → Forest) : Work Unit := modify fun w ↦ { w with forest := g w.forest }

def modifyCode (g : Code → Code) : Work Unit := modify fun w ↦ { w with code := g w.code }

def modifyDefs (g : Definitions → Definitions) : Work Unit :=
  modify fun w ↦ { w with defs := g w.defs }

def modifySession (g : Session → Session) : Work Unit :=
  modify fun w ↦ { w with session := g w.session }

def node (id : NodeId) : Work Node := return (← get).forest.node id

/-- Appends a node to the forest. -/
def push (n : Node) : Work NodeId :=
  modifyGet fun w ↦ let (id, forest) := w.forest.push n; (id, { w with forest })

def freshVReg : Work VReg :=
  modifyGet fun w ↦ let (v, code) := w.code.freshVReg; (v, { w with code })

def freshLabel : Work LabelId :=
  modifyGet fun w ↦ let (id, session) := w.session.freshLabel; (id, { w with session })

/-- Appends an instruction to the current block. -/
def append (i : Inst) : Work Unit := do
  report (.emitted (← get).code.name i)
  modifyCode (·.emit i)

/-- Appends an instruction and counts it. -/
def emit (i : Inst) : Work Unit := do
  modifySession (·.countInst i.mnemonic)
  append i

/-- The frame slot of `key`, which is made if there is none. -/
def requestSlot (key : LocalKey) (bytes : Nat) : Work Mem := do
  let code := (← get).code
  let (slot, frame) := code.frame.request key bytes
  if (code.frame.slot? key).isNone then
    report (.slotMade code.name key (roundToSlot bytes) slot)
  modifyCode fun c ↦ { c with frame }
  return slot

/-- The frame slot of `key`, which must have been made. -/
def requireSlot (key : LocalKey) : Work Mem := do
  match (← get).code.frame.slot? key with
  | some m => return m
  | none => throw (.noSlot key)

/-- The label node of a block, made on first request. -/
def labelOf (b : BlockId) : Work NodeId := do
  match (← get).defs.labels.lookup b with
  | some id => return id
  | none =>
    let label ← freshLabel
    let id ← push { op := .label, width := 0, slot := .label label }
    modifyDefs fun d ↦ { d with labels := (b, id) :: d.labels }
    return id

end Work

end TreeCover
