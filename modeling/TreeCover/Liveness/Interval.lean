/-!
# Live intervals

An interval is a set of positions kept as inclusive ranges: sorted, and with at least one
uncovered position between two neighbours. Positions are 32-bit: the last one has no successor, so
two ranges that meet there count as touching. The positions at which a value is used are listed
beside the ranges.
-/

namespace TreeCover

/-- An inclusive range of positions. -/
abbrev Span := Nat × Nat

/-- The greatest position there is. -/
def lastPosition : Nat := 0xffffffff

/-- The position after `p`, or `p` itself if it is the last. -/
def nextPosition (p : Nat) : Nat := if p < lastPosition then p + 1 else p

/-- The positions at which a register is live, and those at which it is used. -/
structure Interval where
  spans : List Span := []
  uses : List Nat := []
deriving DecidableEq, Inhabited, Repr

namespace Interval

/-- The interval without positions. -/
def empty : Interval := {}

def isEmpty (i : Interval) : Bool := i.spans.isEmpty

def start? (i : Interval) : Option Nat := i.spans.head?.map (·.1)

def end? (i : Interval) : Option Nat := i.spans.getLast?.map (·.2)

/-- Whether a range contains a position. -/
def spanCovers (p : Nat) (r : Span) : Bool := decide (r.1 ≤ p) && decide (p ≤ r.2)

/-- Whether a position belongs to the interval. -/
def covers (i : Interval) (p : Nat) : Bool := i.spans.any (spanCovers p)

/-- Inserts `[lo, hi]` into sorted ranges and merges it with all it overlaps or touches. -/
def insertSpan (lo hi : Nat) : List Span → List Span
  | [] => [(lo, hi)]
  | (s, e) :: rs =>
    if nextPosition e < lo then (s, e) :: insertSpan lo hi rs
    else if nextPosition hi < s then (lo, hi) :: (s, e) :: rs
    else insertSpan (min lo s) (max hi e) rs

/-- Adds all positions from one bound to the other, which may come in either order. -/
def addRange (i : Interval) (a b : Nat) : Interval :=
  { i with spans := insertSpan (min a b) (max a b) i.spans }

/-- Starts the interval at `p`: what comes before the range around `p` is dropped, and that range
begins at `p`. If there is none, `p` is added alone. -/
def startAt (i : Interval) (p : Nat) : Interval :=
  match i.spans.dropWhile (!spanCovers p ·) with
  | (_, e) :: rs => { i with spans := (p, e) :: rs }
  | [] => i.addRange p p

/-- Lists a use. -/
def addUse (i : Interval) (p : Nat) : Interval := { i with uses := i.uses ++ [p] }

/-- Puts uses that were listed back to front into program order. -/
def reverseUses (i : Interval) : Interval := { i with uses := i.uses.reverse }

/-- Whether the hulls of two intervals meet. -/
def hullsMeet (i j : Interval) : Bool :=
  match i.start?, i.end?, j.start?, j.end? with
  | some s₁, some e₁, some s₂, some e₂ => decide (s₁ ≤ e₂) && decide (s₂ ≤ e₁)
  | _, _, _, _ => false

def spanText (r : Span) : String := "[" ++ toString r.1 ++ "," ++ toString r.2 ++ "]"

def text (i : Interval) : String := " ".intercalate (i.spans.map spanText)

end Interval

end TreeCover
