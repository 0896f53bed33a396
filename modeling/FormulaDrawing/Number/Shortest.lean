/-! The decimal with the fewest digits among those that round to a given double. Grids of powers
of ten are tried from coarse to fine; on each grid only the two neighbours of the double count. -/

namespace FormulaDrawing.Number

structure Decimal where
  digits : Nat
  power : Int
deriving DecidableEq, Repr

/-- The reals that round to the double `m · 2 ^ e`, as multiples of `2 ^ (e - 2)`. Below a power of
two the gap is half as wide; the ends belong to it when `m` is even. -/
structure Cell where
  low : Nat
  value : Nat
  high : Nat
  closed : Bool
  exponent : Int

def Cell.of (m : Nat) (e : Int) : Cell :=
  { low := 4 * m - (if m = 0x10000000000000 ∧ e ≠ -1074 then 1 else 2)
    value := 4 * m
    high := 4 * m + 2
    closed := m % 2 == 0
    exponent := e - 2 }

/-- The factors that bring `x · 2 ^ exponent` and `y · 10 ^ power` to one unit. -/
def commonUnit (exponent power : Int) : Nat × Nat :=
  (Nat.pow 2 exponent.toNat * Nat.pow 10 (-power).toNat,
    Nat.pow 10 power.toNat * Nat.pow 2 (-exponent).toNat)

def Cell.holds (c : Cell) (power : Int) (d : Nat) : Bool :=
  let (a, b) := commonUnit c.exponent power
  if c.closed then c.low * a ≤ d * b && d * b ≤ c.high * a
  else c.low * a < d * b && d * b < c.high * a

/-- The neighbour of the value on the grid `10 ^ power` that lies in the cell: of two the nearer,
and the upper one halfway. -/
def Cell.hit? (c : Cell) (power : Int) : Option Nat :=
  let (a, b) := commonUnit c.exponent power
  let d := c.value * a / b
  match c.holds power d, c.holds power (d + 1) with
  | true, true => some (if c.value * a - d * b < (d + 1) * b - c.value * a then d else d + 1)
  | true, false => some d
  | false, true => some (d + 1)
  | false, false => none

/-- The first hit from the grid `10 ^ (base + n)` downward, else the exact value. -/
def firstHit (c : Cell) (exact : Decimal) : Nat → Decimal
  | 0 => exact
  | n + 1 =>
    match c.hit? (exact.power + (n + 1)) with
    | some d => ⟨d, exact.power + (n + 1)⟩
    | none => firstHit c exact n

/-- The value `m · 2 ^ e` on the finest grid needed. -/
def exactDecimal (m : Nat) (e : Int) : Decimal :=
  if 0 ≤ e then ⟨m * Nat.pow 2 e.toNat, 0⟩ else ⟨m * Nat.pow 5 (-e).toNat, e⟩

/-- A power of ten not below `2 ^ bits`. -/
def coarsest (bits : Int) : Int :=
  if 0 ≤ bits then (bits + 2) / 3 else -(-bits * 3 / 10)

def shortest (m : Nat) (e : Int) : Decimal :=
  let exact := exactDecimal m e
  firstHit (Cell.of m e) exact (coarsest (m.log2 + 1 + e) - exact.power).toNat

end FormulaDrawing.Number
