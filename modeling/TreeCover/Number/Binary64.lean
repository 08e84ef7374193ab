import TreeCover.Number.Digits

/-!
# Double-precision numbers

A double is its 64-bit pattern, so that two doubles are equal exactly when they are the same
datum: the two zeros differ and a NaN equals itself. Nothing here computes with doubles; they are
read from a literal and carried to the output.

Reading rounds the literal to the nearest double, a tie going to the even mantissa. The literal
is an exact fraction of naturals, scaled by a power of two so that its integer part has 53 bits
(fewer below the normal range), and rounded once.
-/

namespace TreeCover

/-- A double-precision number as its bit pattern: sign, eleven bits of exponent, 52 of mantissa. -/
structure Binary64 where
  bits : BitVec 64
deriving DecidableEq, Inhabited, Repr

namespace Binary64

/-- The bit above the 52 bits of the mantissa field, where the exponent field begins. -/
def hiddenBit : Nat := 0x10000000000000

/-- The bit pattern of infinity, without its sign. -/
def infinityBits : Nat := 2047 * hiddenBit

/-- The sign bit. -/
def signBit : Nat := 0x8000000000000000

def isNegative (x : Binary64) : Bool := x.bits.getLsbD 63

/-- The biased exponent. -/
def exponentField (x : Binary64) : Nat := x.bits.toNat / hiddenBit % 2048

/-- The mantissa without its hidden bit. -/
def mantissaField (x : Binary64) : Nat := x.bits.toNat % hiddenBit

def isInfinite (x : Binary64) : Bool := x.exponentField == 2047 && x.mantissaField == 0

def isNaN (x : Binary64) : Bool := x.exponentField == 2047 && x.mantissaField != 0

/-- The integer `m` of the magnitude `m · 2^q` of a finite double, with its hidden bit. -/
def mantissa (x : Binary64) : Nat :=
  if x.exponentField = 0 then x.mantissaField else hiddenBit + x.mantissaField

/-- The exponent `q` of the magnitude `m · 2^q` of a finite double. -/
def exponent (x : Binary64) : Int :=
  if x.exponentField = 0 then -1074 else (x.exponentField : Int) - 1075

/-! ## Rounding a fraction -/

/-- The natural number nearest to `n / d`, a tie going to the even one. -/
def roundHalfEven (n d : Nat) : Nat :=
  let q := n / d
  let twice := 2 * (n % d)
  if twice < d then q else if d < twice then q + 1 else q + q % 2

/-- The numerator and denominator of `n / d · 2^(-q)`. -/
def scaled (n d : Nat) (q : Int) : Nat × Nat := (n <<< (-q).toNat, d <<< q.toNat)

/-- The exponent at which `n / d` has a 53-bit integer part, or the least exponent there is. -/
def scaleOf (n d : Nat) : Int :=
  let q := max ((n.log2 : Int) - d.log2 - 53) (-1074)
  let (a, b) := scaled n d q
  if a < b * (2 * hiddenBit) then q else q + 1

/-- The bit pattern of the double nearest to `n / d`, without its sign. -/
def magnitudeBits (n d : Nat) : Nat :=
  if n = 0 then 0 else
    let q := scaleOf n d
    let (a, b) := scaled n d q
    let m := roundHalfEven a b
    if m < hiddenBit then m
    else min ((q + 1075).toNat * hiddenBit + (m - hiddenBit)) infinityBits

/-- The bit pattern of the double nearest to `m · 10^e`. Far outside the range of doubles the
power is not computed: since `m · 10^e < 2^(log₂ m + 1 + 3e)` for negative `e`, the result is
zero there, and infinity above `10^400`. -/
def decimalBits (m : Nat) (e : Int) : Nat :=
  if m = 0 then 0
  else if 400 < e then infinityBits
  else if (m.log2 : Int) + 3 * e < -1100 then 0
  else magnitudeBits (m * Nat.pow 10 e.toNat) (Nat.pow 10 (-e).toNat)

/-- The double nearest to `m · 10^e`, with a sign. -/
def ofDecimal (negative : Bool) (m : Nat) (e : Int) : Binary64 :=
  ⟨BitVec.ofNat 64 (decimalBits m e + if negative then signBit else 0)⟩

/-! ## Literals -/

/-- The exponent part of a literal: nothing, or `e` and digits with an optional sign. -/
def readExponent? : List Char → Option Int
  | [] => some 0
  | c :: cs =>
    if c = 'e' ∨ c = 'E' then
      match cs with
      | '+' :: ds => (readNat? ds).map Int.ofNat
      | ds => readInt? ds
    else none

/-- An unsigned literal: digits, optionally a point and further digits, and an exponent part. -/
def readMagnitude? (negative : Bool) (cs : List Char) : Option Binary64 :=
  let whole := cs.takeWhile Char.isDigit
  let rest := cs.dropWhile Char.isDigit
  let (fraction, tail) := match rest with
    | '.' :: ds => (ds.takeWhile Char.isDigit, ds.dropWhile Char.isDigit)
    | _ => ([], rest)
  let digits := whole ++ fraction
  if digits.isEmpty then none else
    (readExponent? tail).map fun e ↦
      ofDecimal negative (digitsValue digits) (e - fraction.length)

/-- A floating-point literal, rounded to the nearest double. -/
def read? : List Char → Option Binary64
  | '-' :: cs => readMagnitude? true cs
  | cs => readMagnitude? false cs

end Binary64

end TreeCover
