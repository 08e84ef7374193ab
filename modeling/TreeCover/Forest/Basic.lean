import TreeCover.Flow.Reach
import TreeCover.Ir.Func
import TreeCover.Machine.Inst

/-!
# The forest of a function

Every instruction of a function becomes a node, and so do constants, arguments, block labels and
some glue. A value used several times is one node: it counts the uses that are still to be
emitted. A node may be an alias of another, which then owns the value; children and references go
to the owner.

Nodes are appended and never removed, and a child is older than its parent, so the number of nodes
bounds the height of every tree.

Each node also keeps a log of accesses: a read for every use that will look at memory through it,
a write for every store or call that such a read must not be moved across.
-/

namespace TreeCover

open Ir Machine

/-- Position of a node in its forest. -/
abbrev NodeId := Nat

/-! ## Nodes -/

/-- What a node computes. -/
inductive NodeOp where
  | inst (op : Opcode)
  | imm
  | arg (idx : Nat)
  | label
  /-- Pads the children of an unconditional branch. -/
  | dummy
  /-- The arguments of a call. -/
  | args
  /-- The register of a phi. -/
  | phiDef
  /-- The copy of a value into a phi's register on one edge. -/
  | phiMove
deriving DecidableEq, Inhabited, Repr

def NodeOp.text : NodeOp → String
  | inst op => op.text
  | imm => "imm"
  | arg _ => "arg"
  | label => "label"
  | dummy => "dummy"
  | args => "args"
  | phiDef => "phidef"
  | phiMove => "phimove"

/-- A literal; an integer keeps the width of its type and whether it was in the signed range. -/
inductive Constant where
  | int (value : Word) (signed : Bool) (bits : Nat)
  | float (value : Binary64)
deriving DecidableEq, Repr

/-- The bit pattern of a constant. -/
def Constant.word : Constant → Word
  | int value _ _ => value
  | float x => x.bits

/-- What a node's value has become. -/
inductive Slot where
  | unassigned
  | vreg (v : VReg)
  | imm (value : Word)
  | mem (m : Mem)
  | label (id : LabelId)
deriving DecidableEq, Inhabited, Repr

/-- How a node's value is used; for inspection only. -/
structure Roles where
  register : Bool := false
  memory : Bool := false
  immediate : Bool := false
  pointer : Bool := false
  phi : Bool := false
deriving DecidableEq, Repr

/-- An access to memory. -/
inductive Access where
  | read
  | write
deriving DecidableEq, Repr

/-- A node with its children and all that is known about its value. -/
structure Node where
  op : NodeOp
  width : Nat
  /-- The node this one is an alias of. -/
  target : Option NodeId := none
  kids : List NodeId := []
  constant : Option Constant := none
  slot : Slot := .unassigned
  roles : Roles := {}
  /-- Uses that have not been emitted. -/
  refs : Nat := 0
  /-- Whether the value has been emitted and is read from its slot. -/
  computed : Bool := false
  /-- Whether the references to the children have been given up. -/
  kidsReleased : Bool := false
  /-- Whether the value is used in another block. -/
  escapes : Bool := false
  /-- Accesses to memory, latest first. -/
  accesses : List Access := []
  /-- Height above the leaves, at least one. -/
  level : Nat := 1
  source : Option InstId := none
  block : Option BlockId := none
  predicate : Option Predicate := none
  callee : Option String := none
  allocBytes : Nat := 0
  /-- For a phi move, the node of the phi's register and the block of the phi. -/
  phiTarget : Option (NodeId × BlockId) := none
deriving Repr

namespace Node

def opcode? (n : Node) : Option Opcode :=
  match n.op with
  | .inst op => some op
  | _ => none

/-- Whether a node has to run where it stands. -/
def hasSideEffect (n : Node) : Bool := n.opcode?.any (·.writesMemory)

/-- Whether a read was logged after a write. -/
def readsAfterWrite (n : Node) : Bool := (n.accesses.dropWhile (· ≠ .read)).contains .write

end Node

/-! ## Forests -/

/-- The nodes of a function, each addressed by its position. -/
structure Forest where
  nodes : Array Node := #[]

namespace Forest

def size (f : Forest) : Nat := f.nodes.size

/-- The node at a position; beyond the forest there are only dummies. -/
def node (f : Forest) (id : NodeId) : Node := f.nodes[id]?.getD { op := .dummy, width := 0 }

def update (f : Forest) (id : NodeId) (g : Node → Node) : Forest := { nodes := f.nodes.modify id g }

/-- Appends a node. -/
def push (f : Forest) (n : Node) : NodeId × Forest := (f.size, { nodes := f.nodes.push n })

/-- Appends a node without children. -/
def add (f : Forest) (op : NodeOp) (width : Nat) : NodeId × Forest := f.push { op, width }

/-- Appends a constant leaf. -/
def addConstant (f : Forest) (c : Constant) (width : Nat) : NodeId × Forest :=
  f.push
    { op := .imm, width, constant := some c, slot := .imm c.word, roles := { immediate := true } }

/-! ## Ownership -/

/-- Follows aliases for as long as there are nodes to pass. -/
def ownerFrom (f : Forest) : Nat → NodeId → NodeId
  | 0, id => id
  | fuel + 1, id =>
    match (f.node id).target with
    | some target => f.ownerFrom fuel target
    | none => id

/-- The node that owns the value `id` stands for. -/
def owner (f : Forest) (id : NodeId) : NodeId := f.ownerFrom f.size id

/-- The owners of a node's children. -/
def kidOwners (f : Forest) (id : NodeId) : List NodeId := (f.node id).kids.map f.owner

def setAlias (f : Forest) (id target : NodeId) : Forest :=
  f.update id fun n ↦ { n with target := some target }

/-- Appends a child, and raises the parent above it. -/
def addChild (f : Forest) (parent kid : NodeId) : Forest :=
  let level := (f.node (f.owner kid)).level + 1
  f.update parent fun n ↦ { n with kids := n.kids ++ [kid], level := max n.level level }

def refs (f : Forest) (id : NodeId) : Nat := (f.node (f.owner id)).refs

def takeRef (f : Forest) (id : NodeId) : Forest :=
  f.update (f.owner id) fun n ↦ { n with refs := n.refs + 1 }

def releaseRef (f : Forest) (id : NodeId) : Forest :=
  f.update (f.owner id) fun n ↦ { n with refs := n.refs - 1 }

/-- Gives up the references a node holds on its children, unless that was done before. -/
def releaseKids (f : Forest) (id : NodeId) : Forest :=
  if (f.node id).kidsReleased then f
  else (f.node id).kids.foldl releaseRef (f.update id fun n ↦ { n with kidsReleased := true })

def markEscaping (f : Forest) (id : NodeId) : Forest :=
  f.update (f.owner id) fun n ↦ { n with escapes := true }

/-! ## Height -/

/-- The heights of a tree's nodes, added to those already known; computed nodes are leaves. -/
def levelsFrom (f : Forest) : Nat → List (NodeId × Nat) → NodeId → List (NodeId × Nat)
  | 0, known, _ => known
  | fuel + 1, known, id =>
    if (known.lookup id).isSome then known
    else if (f.node id).computed || (f.node id).kids.isEmpty then (id, 1) :: known
    else
      let kids := f.kidOwners id
      let known := kids.foldl (f.levelsFrom fuel) known
      (id, 1 + (kids.map fun k ↦ (known.lookup k).getD 1).foldl max 0) :: known

/-- Brings the heights in a tree up to date, and gives that of its root. -/
def refreshLevel (f : Forest) (id : NodeId) : Nat × Forest :=
  let levels := f.levelsFrom (f.size + 1) [] (f.owner id)
  ((levels.lookup (f.owner id)).getD 1,
    levels.foldl (fun f (k, level) ↦ f.update k fun n ↦ { n with level }) f)

/-! ## Memory -/

/-- The number of edges from parents to children. -/
def edgeCount (f : Forest) : Nat := (f.nodes.toList.flatMap (·.kids)).length

/-- Nodes that are not computed. -/
def pendingOf (f : Forest) (ids : List NodeId) : List NodeId :=
  ids.filter fun k ↦ !(f.node k).computed

/-- The nodes of a tree that are still to be emitted, each once. -/
def pending (f : Forest) (id : NodeId) : List NodeId :=
  let next k := f.pendingOf (f.kidOwners k)
  (reach next (f.edgeCount + 2) (f.pendingOf [f.owner id]) .empty).members

/-- Logs an access for every pending node of a tree. -/
def logAccess (f : Forest) (a : Access) (id : NodeId) : Forest :=
  (f.pending id).foldl (fun f k ↦ f.update k fun n ↦ { n with accesses := a :: n.accesses }) f

/-- Whether what is pending in a tree reads memory. -/
def readsMemory (f : Forest) (id : NodeId) : Bool :=
  (f.pending id).any fun k ↦ (f.node k).opcode?.any (·.readsMemory)

/-- Whether a write reached a pending part of a tree before a later read did. -/
def isFlowDependent (f : Forest) (id : NodeId) : Bool :=
  (f.pending id).any fun k ↦ (f.node k).readsAfterWrite

end Forest

/-! ## Constants -/

/-- Arithmetic on words, for the operators that are evaluated ahead of time. -/
def Ir.BinaryOp.fold? (op : BinaryOp) (a b : Word) : Option Word :=
  match op with
  | add => some (a + b)
  | sub => some (a - b)
  | mul => some (a * b)
  | and => some (a &&& b)
  | or => some (a ||| b)
  | xor => some (a ^^^ b)
  | shl => if b.toNat < 64 then some (a <<< b.toNat) else none
  | _ => none

def Ir.Opcode.fold? (op : Opcode) (a b : Word) : Option Word :=
  match op with
  | .binary op => op.fold? a b
  | _ => none

namespace Forest

def constValueFrom (f : Forest) : Nat → NodeId → Option Word
  | 0, _ => none
  | fuel + 1, id =>
    let n := f.node (f.owner id)
    if n.computed then none
    else match n.op, n.kids with
      | .imm, _ => n.constant.map (·.word)
      | .inst op, [a, b] => do
        let x ← f.constValueFrom fuel a
        let y ← f.constValueFrom fuel b
        op.fold? x y
      | _, _ => none

/-- The value of a constant, or of arithmetic on constants. -/
def constValue? (f : Forest) (id : NodeId) : Option Word := f.constValueFrom (f.size + 1) id

/-! ## Text -/

/-- What stands behind a node's number when its children are not shown, or before them. -/
def slotText : Slot → String
  | .imm value => " " ++ toString value.toInt
  | .label id => " " ++ LabelId.text id
  | _ => ""

def dumpFrom (f : Forest) : Nat → NodeId → String
  | 0, _ => ""
  | fuel + 1, id =>
    let n := f.node id
    n.op.text ++ "#" ++ toString id ++
      match n.target with
      | some target => "->#" ++ toString target
      | none =>
        if n.computed then
          match n.slot with
          | .vreg v => "=" ++ (Reg.virt v).text 8
          | _ => ""
        else
          slotText n.slot ++
            if n.kids.isEmpty then ""
            else "(" ++ ", ".intercalate (n.kids.map (f.dumpFrom fuel)) ++ ")"

/-- A tree as text, for inspection. -/
def dump (f : Forest) (id : NodeId) : String := f.dumpFrom (f.size + 1) id

end Forest

end TreeCover
