import TreeCover.Machine.Register

/-!
# The pool of free registers

A budget of `n` admits the first `n` allocatable registers. The pool hands out the first free one
in that order and remembers every register it ever handed out, which are the ones a function has
to save.
-/

namespace TreeCover

open Machine

/-! ## Sets of registers -/

/-- A set of physical registers. -/
structure RegSet where
  members : List PhysReg := []
deriving Repr

namespace RegSet

def contains (s : RegSet) (r : PhysReg) : Bool := s.members.contains r

def insert (s : RegSet) (r : PhysReg) : RegSet := if s.contains r then s else ⟨r :: s.members⟩

def erase (s : RegSet) (r : PhysReg) : RegSet := ⟨s.members.filter (· ≠ r)⟩

/-- The members in encoding order. -/
def toList (s : RegSet) : List PhysReg := PhysReg.all.filter s.contains

def count (s : RegSet) : Nat := s.toList.length

def isEmpty (s : RegSet) : Bool := s.members.isEmpty

@[simp]
theorem contains_insert (s : RegSet) (r q : PhysReg) :
    (s.insert r).contains q = (s.contains q || decide (q = r)) := by
  by_cases h : s.contains r = true
  · by_cases hq : q = r <;> simp [insert, h, hq]
  · by_cases hq : q = r <;> simp_all [insert, contains]

@[simp]
theorem contains_erase (s : RegSet) (r q : PhysReg) :
    (s.erase r).contains q = (s.contains q && decide (q ≠ r)) := by
  by_cases h : q = r <;> simp [erase, contains, h]

theorem mem_toList {s : RegSet} {r : PhysReg} : r ∈ s.toList ↔ s.contains r = true := by
  simp [toList, PhysReg.mem_all]

end RegSet

/-! ## The pool -/

/-- The registers that may hold values, and which of them are free. -/
structure Pool where
  /-- The registers of the pool in the order in which they are handed out. -/
  order : List PhysReg
  free : RegSet
  used : RegSet

namespace Pool

/-- The pool of the first `budget` allocatable registers, all of them free. -/
def ofBudget (budget : Nat) : Pool :=
  let order := PhysReg.allocatable.take budget
  { order, free := ⟨order⟩, used := {} }

def capacity (p : Pool) : Nat := p.order.length

/-- Takes the first free register. -/
def allocate (p : Pool) : Option (PhysReg × Pool) :=
  (p.order.find? p.free.contains).map fun r ↦
    (r, { p with free := p.free.erase r, used := p.used.insert r })

/-- Gives a register back. -/
def release (p : Pool) (r : PhysReg) : Pool := { p with free := p.free.insert r }

end Pool

end TreeCover
