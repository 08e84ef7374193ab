/-!
# Decimal digits

Reading a run of decimal digits as a number, shared by integer and floating-point literals.
-/

namespace TreeCover

/-- The value of a decimal digit. -/
def digitValue (c : Char) : Nat := c.toNat - '0'.toNat

/-- The number a run of decimal digits stands for, most significant digit first. -/
def digitsValue (cs : List Char) : Nat := cs.foldl (fun n c ↦ 10 * n + digitValue c) 0

/-- A nonempty run of decimal digits, read as a number. -/
def readNat? (cs : List Char) : Option Nat :=
  if !cs.isEmpty && cs.all Char.isDigit then some (digitsValue cs) else none

/-- A nonempty run of decimal digits after an optional minus sign. -/
def readInt? : List Char → Option Int
  | '-' :: cs => (readNat? cs).map fun n ↦ -n
  | cs => (readNat? cs).map Int.ofNat

/-- Whether an integer is one of `bits` bits in two's complement: its low bits read back as it. -/
def fitsSigned (bits : Nat) (n : Int) : Bool := (BitVec.ofInt bits n).toInt == n

/-- The range of two's complement. -/
theorem fitsSigned_succ_iff {bits : Nat} {n : Int} :
    fitsSigned (bits + 1) n = true ↔ -(Nat.pow 2 bits : Int) ≤ n ∧ n < Nat.pow 2 bits := by
  have double : 2 ^ (bits + 1) = 2 * 2 ^ bits := by rw [Nat.pow_succ, Nat.mul_comm]
  have pos : 0 < 2 ^ bits := Nat.two_pow_pos bits
  rw [fitsSigned, beq_iff_eq, BitVec.toInt_ofInt, double, Nat.pow_eq, Int.bmod_eq_iff (by omega)]
  simp only [Int.sub_self, Int.dvd_zero, and_true]
  omega

end TreeCover
