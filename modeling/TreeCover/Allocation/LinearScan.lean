import TreeCover.Allocation.Pool
import TreeCover.Liveness.Interval
import TreeCover.Machine.Frame

/-!
# Linear scan allocation

Intervals are visited by increasing start. Before one is placed, the intervals that ended before
it give their registers back. If no register is free, the active interval that reaches furthest is
compared with the current one: if it ends later, the current one inherits its register and it
moves to a frame slot; else the current one goes to a slot. An interval is never split, so every
virtual register has one location for its whole life.

A scan is recorded as the list of its decisions, in order. The final location of a register is
what was decided about it last.
-/

namespace TreeCover

open Machine

/-- Where a virtual register lives. -/
inductive Location where
  | register (r : PhysReg)
  | stack (slot : Mem)
deriving DecidableEq, Repr

def Location.text : Location → String
  | register r => (Reg.phys r).text 8
  | stack slot => toString slot.disp ++ "(%rbp)"

def Location.isStack : Location → Bool
  | stack _ => true
  | register _ => false

/-- One step of a scan. -/
inductive Decision where
  /-- The register comes from the pool. -/
  | assign (v : VReg) (r : PhysReg)
  /-- The register was taken from another interval. -/
  | inherit (v : VReg) (r : PhysReg)
  /-- A slot; `fresh` if the frame had none for `v`. -/
  | spill (v : VReg) (slot : Mem) (fresh : Bool)
deriving DecidableEq, Repr

namespace Decision

def subject : Decision → VReg
  | assign v _ | inherit v _ | spill v _ _ => v

def location : Decision → Location
  | assign _ r | inherit _ r => .register r
  | spill _ slot _ => .stack slot

end Decision

/-- The outcome of a scan. -/
structure Allocation where
  /-- What was decided, oldest first. -/
  decisions : List Decision := []
  /-- Every register handed out at least once. -/
  used : RegSet := {}

namespace Allocation

/-- The location decided last. -/
def location? (a : Allocation) (v : VReg) : Option Location :=
  (a.decisions.reverse.find? (·.subject == v)).map (·.location)

/-- The registers of the function that live in the frame, in ascending order. -/
def spilled (a : Allocation) : List VReg :=
  let vs := (a.decisions.map (·.subject)).eraseDups.mergeSort (· ≤ ·)
  vs.filter fun v ↦ (a.location? v).any (·.isStack)

end Allocation

namespace LinearScan

/-- Bytes of the slot of a virtual register. -/
def slotBytes : Nat := 8

/-- An interval without its holes. -/
structure Hull where
  vreg : VReg
  start : Nat
  stop : Nat
deriving DecidableEq, Repr

/-- A hull that holds a register. -/
structure Active where
  hull : Hull
  reg : PhysReg
deriving DecidableEq, Repr

/-- A scan between two hulls. -/
structure State where
  pool : Pool
  active : List Active := []
  frame : Frame
  decisions : List Decision := []

/-- The hulls of the intervals that have positions, by increasing start and then by number. -/
def hulls (intervals : List Interval) : List Hull :=
  let hs := intervals.zipIdx.filterMap fun (i, v) ↦
    match i.start?, i.end? with
    | some s, some e => some ⟨v, s, e⟩
    | _, _ => none
  hs.mergeSort fun a b ↦ a.start < b.start || (a.start == b.start && decide (a.vreg ≤ b.vreg))

/-- Gives back the registers of all hulls that ended before `start`. -/
def expire (start : Nat) (s : State) : State :=
  let (ended, active) := s.active.partition (·.hull.stop < start)
  { s with active, pool := ended.foldl (fun p a ↦ p.release a.reg) s.pool }

/-- Moves a virtual register to its slot. -/
def spill (v : VReg) (s : State) : State :=
  let (slot, frame) := s.frame.request (.spill v) slotBytes
  { s with frame, decisions := s.decisions ++ [.spill v slot (s.frame.slot? (.spill v)).isNone] }

/-- Whether `b` reaches further than `a`; of two that end together the later number does. -/
def reachesFurther (a b : Hull) : Bool :=
  a.stop < b.stop || (a.stop == b.stop && decide (a.vreg < b.vreg))

/-- The active hull that reaches furthest. -/
def furthest? : List Active → Option Active
  | [] => none
  | a :: as =>
    match furthest? as with
    | some b => if reachesFurther a.hull b.hull then some b else some a
    | none => some a

/-- Finds a place for a hull when no register is free. -/
def evict (h : Hull) (s : State) : State :=
  match furthest? s.active with
  | some victim =>
    if h.stop < victim.hull.stop then
      let s := spill victim.hull.vreg s
      { s with
        active := s.active.erase victim ++ [⟨h, victim.reg⟩]
        decisions := s.decisions ++ [.inherit h.vreg victim.reg] }
    else spill h.vreg s
  | none => spill h.vreg s

/-- Places one hull. -/
def place (s : State) (h : Hull) : State :=
  let s := expire h.start s
  match s.pool.allocate with
  | some (r, pool) =>
    { s with pool, active := s.active ++ [⟨h, r⟩], decisions := s.decisions ++ [.assign h.vreg r] }
  | none => evict h s

/-- Allocates registers within a budget; slots are added to the frame. -/
def run (budget : Nat) (intervals : List Interval) (frame : Frame) : Allocation × Frame :=
  let s := (hulls intervals).foldl place { pool := .ofBudget budget, frame }
  ({ decisions := s.decisions, used := s.pool.used }, s.frame)

end LinearScan

end TreeCover
