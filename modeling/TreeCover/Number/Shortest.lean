import TreeCover.Number.Binary64

/-!
# The text of a double

A finite double is written with the fewest significant digits that read back as the same double,
and among those with the digits nearest to its value, a tie going up.

The reals that round to `m · 2^q` form an interval around it, closed exactly when `m` is even.
Grids of multiples of `10^k` are tried from coarse to fine; on each grid only the two neighbours
of the value can be the nearest point inside the interval. The first grid with a hit has the
fewest digits.
-/

namespace TreeCover

namespace Binary64

/-- The reals that round to a double, as numerators over a common positive denominator, together
with the value itself. -/
structure Rounding where
  low : Nat
  value : Nat
  high : Nat
  /-- Whether the ends of the interval round to the double too. -/
  closed : Bool

/-- The interval of `x` in quarters of the last place: half a place on each side, but only a
quarter below a power of two, where the doubles get denser. -/
def rounding (x : Binary64) : Rounding :=
  let m := x.mantissa
  let narrow := x.mantissaField = 0 ∧ 1 < x.exponentField
  { low := 4 * m - if narrow then 1 else 2
    value := 4 * m
    high := 4 * m + 2
    closed := m % 2 = 0 }

/-- Whether the point `c` lies in the interval after scaling the interval by `a`. -/
def Rounding.contains (r : Rounding) (a c : Nat) : Bool :=
  if r.closed then r.low * a ≤ c && c ≤ r.high * a else r.low * a < c && c < r.high * a

/-- The multiple of `10^k` nearest to the value that lies in the interval, as a multiple; `a` and
`b` bring the interval and the grid to a common denominator. -/
def Rounding.onGrid? (r : Rounding) (a b : Nat) : Option Nat :=
  let c := r.value * a / b
  let below := r.contains a (c * b)
  let above := r.contains a ((c + 1) * b)
  if below && above then
    some (if 2 * (r.value * a - c * b) < b then c else c + 1)
  else if below then some c
  else if above then some (c + 1)
  else none

/-- The first hit on the grids of `10^k`, `10^(k-1)`, …, as digits and exponent. -/
def Rounding.firstHit (r : Rounding) (q : Int) : Nat → Int → Nat × Int
  | 0, k => (0, k)
  | fuel + 1, k =>
    let a := Nat.pow 10 (-k).toNat <<< (q - 2).toNat
    let b := Nat.pow 10 k.toNat <<< (2 - q).toNat
    match r.onGrid? a b with
    | some digits => (digits, k)
    | none => r.firstHit q fuel (k - 1)

/-- The shortest decimal `digits · 10^k` that reads back as a finite nonzero `x`. Seventeen digits
always suffice, so the search ends within twenty grids below the first power of ten above `x`. -/
def shortest (x : Binary64) : Nat × Int :=
  let q := x.exponent
  let top := ((x.mantissa.log2 : Int) + 1 + q) * 30103 / 100000 + 1
  x.rounding.firstHit q 24 top

/-! ## Layout -/

/-- Positional notation of `digits · 10^k`, with at least `places` digits after the point. -/
def positional (places : Nat) (digits : List Char) (k : Int) : String :=
  let point := (digits.length : Int) + k
  let whole := if 0 < point then digits.take point.toNat ++ List.replicate k.toNat '0' else ['0']
  let fraction := List.replicate (-point).toNat '0' ++ digits.drop point.toNat
  let padded := fraction ++ List.replicate (places - fraction.length) '0'
  String.ofList (if padded.isEmpty then whole else whole ++ '.' :: padded)

/-- One digit before the point and a decimal exponent. -/
def scientific (digits : List Char) (k : Int) : String :=
  let point := (digits.length : Int) + k - 1
  let body := match digits with
    | d :: e :: ds => d :: '.' :: e :: ds
    | ds => ds
  String.ofList body ++ "e" ++ toString point

/-- The digits of a finite double: those of zero are a single `0`. -/
def digits (x : Binary64) : List Char × Int :=
  if x.mantissa = 0 then (['0'], 0) else
    let (d, k) := x.shortest
    (Nat.toDigits 10 d, k)

/-- The text of a double around the text of its finite magnitude. -/
def withSign (x : Binary64) (body : List Char → Int → String) : String :=
  if x.isNaN then "NaN" else
    let (ds, k) := x.digits
    (if x.isNegative then "-" else "") ++ if x.isInfinite then "inf" else body ds k

/-- Plain notation: never an exponent, and no point in an integer. -/
def plain (x : Binary64) : String := x.withSign (positional 0)

/-- Tagged notation, which always shows that the number is a double: at least one digit after the
point from `10^-4` to below `10^16`, an exponent elsewhere. -/
def tagged (x : Binary64) : String :=
  x.withSign fun ds k ↦
    let point := (ds.length : Int) + k
    if x.mantissa = 0 ∨ (-4 < point ∧ point ≤ 16) then positional 1 ds k else scientific ds k

end Binary64

end TreeCover
