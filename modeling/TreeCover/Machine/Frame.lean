import TreeCover.Machine.Inst

/-!
# Stack frames

A frame grows downwards from the frame pointer. It is made of slots, one per key, and never gives
one back; asking again for a key gives the slot it has. The size counts the return address, which
lies above the frame pointer, so the first slot ends where the frame pointer points.
-/

namespace TreeCover.Machine

/-- What a slot holds. -/
inductive LocalKey where
  /-- Room made by an alloca. -/
  | value (inst : Nat)
  /-- The home of a virtual register. -/
  | spill (v : VReg)
deriving DecidableEq, Repr

def LocalKey.tagged : LocalKey → String
  | value inst => "Value(InstId(" ++ toString inst ++ "))"
  | spill v => "Spill(VReg(" ++ toString v ++ "))"

/-- Bytes of the return address. -/
def returnAddressBytes : Nat := 8

/-- The slots of a function and the size of its frame. -/
structure Frame where
  /-- The slots, newest first. -/
  slots : List (LocalKey × Mem) := []
  size : Nat := returnAddressBytes
deriving Repr

/-- A size in whole slots of four bytes, at least one. -/
def roundToSlot (bytes : Nat) : Nat := (max bytes 1 + 3) / 4 * 4

namespace Frame

/-- Bytes below the frame pointer. -/
def localBytes (f : Frame) : Nat := f.size - returnAddressBytes

def slot? (f : Frame) (key : LocalKey) : Option Mem := f.slots.lookup key

/-- The frame with a new slot at its bottom. -/
def push (f : Frame) (key : LocalKey) (bytes : Nat) : Frame :=
  let size := f.size + roundToSlot bytes
  { size, slots := (key, .frame (-(size - returnAddressBytes : Nat))) :: f.slots }

/-- The slot of `key`, which is made if there is none. -/
def request (f : Frame) (key : LocalKey) (bytes : Nat) : Mem × Frame :=
  match f.slot? key with
  | some m => (m, f)
  | none => (.frame (-((f.push key bytes).localBytes : Nat)), f.push key bytes)

end Frame

end TreeCover.Machine
