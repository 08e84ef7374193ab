/-!
# Reachable sets

The nodes that a relation leads to, collected with a work list. A node's successors join the work
once, when the node is first seen, so a number above that of the edges is enough fuel.

Whether a node was seen is asked far more often than the seen nodes are listed, so a set of nodes
is kept twice, as a list and as a bit mask.
-/

namespace TreeCover

/-! ## Node sets -/

/-- A set of numbers as a list, latest first, with the mask of its members. -/
structure NodeSet where
  members : List Nat
  mask : Nat
  /-- The mask has the bits of the members and no other. -/
  testBit_mask : ∀ a, mask.testBit a = true ↔ a ∈ members

namespace NodeSet

/-- The mask with one bit more. -/
theorem testBit_or_shift (mask a b : Nat) :
    (mask ||| 1 <<< a).testBit b = (mask.testBit b || decide (a = b)) := by
  rw [Nat.testBit_or, Nat.one_shiftLeft, Nat.testBit_two_pow]

def empty : NodeSet where
  members := []
  mask := 0
  testBit_mask a := by simp

def contains (s : NodeSet) (a : Nat) : Bool := s.mask.testBit a

def insert (s : NodeSet) (a : Nat) : NodeSet where
  members := a :: s.members
  mask := s.mask ||| 1 <<< a
  testBit_mask b := by
    rw [testBit_or_shift, Bool.or_eq_true, s.testBit_mask, decide_eq_true_iff, List.mem_cons,
      or_comm, eq_comm]

def singleton (a : Nat) : NodeSet := empty.insert a

theorem contains_iff {s : NodeSet} {a : Nat} : s.contains a = true ↔ a ∈ s.members :=
  s.testBit_mask a

@[simp]
theorem members_empty : empty.members = [] := rfl

@[simp]
theorem members_insert (s : NodeSet) (a : Nat) : (s.insert a).members = a :: s.members := rfl

end NodeSet

/-! ## Collecting -/

/-- Adds to `seen` all that can be reached from `work` without passing through `seen`. -/
def reach (next : Nat → List Nat) : Nat → List Nat → NodeSet → NodeSet
  | 0, _, seen => seen
  | _ + 1, [], seen => seen
  | fuel + 1, a :: work, seen =>
    if seen.contains a then reach next fuel work seen
    else reach next fuel (next a ++ work) (seen.insert a)

/-- Nothing seen is lost. -/
theorem subset_reach (next : Nat → List Nat) (fuel : Nat) (work : List Nat) (seen : NodeSet) :
    seen.members ⊆ (reach next fuel work seen).members := by
  induction fuel generalizing work seen with
  | zero => simp [reach]
  | succ fuel ih =>
    cases work with
    | nil => simp [reach]
    | cons a work =>
      rw [reach]
      split
      · exact ih _ _
      · exact fun x hx ↦ ih _ _ (List.mem_cons_of_mem _ hx)

end TreeCover
