import MessageSchema.Decimal.Numeral

/-!
The shortest decimal of a binary number. A binary number stands for the span of reals that round
to it. Of the grids of multiples of a power of ten the coarsest with a point in that span is
taken, and on it the point nearest to the number; halfway between two points the upper one.
-/
namespace MessageSchema
namespace Decimal

/-- The positive number `mantissa * 2 ^ exponent`. It is `narrow` when the next number below is
only half as far away as the next one above. -/
structure Binary where
  mantissa : Nat
  exponent : Int
  narrow : Bool
deriving Repr, DecidableEq

/-- The number `steps * 10 ^ place`. -/
structure GridPoint where
  steps : Nat
  place : Int
deriving Repr, DecidableEq

namespace Binary

/-- Every binary number is a whole multiple of this power of ten. -/
def place (x : Binary) : Int := min x.exponent 0

/-- What one unit of the mantissa is worth in multiples of `10 ^ place`. -/
def weight (x : Binary) : Nat := Nat.pow 2 x.exponent.toNat * Nat.pow 5 (-x.exponent).toNat

def exact (x : Binary) : GridPoint := ⟨x.mantissa * x.weight, x.place⟩

end Binary

/-- The reals from `low` to `high` around a value, in quarters of a power of ten. -/
structure Span where
  low : Nat
  value : Nat
  high : Nat
  closed : Bool
deriving Repr, DecidableEq

/-- The reals that round to a number: up to half a step away, the ends included when the mantissa
is even. -/
def Binary.span (x : Binary) : Span where
  low := (4 * x.mantissa - if x.narrow then 1 else 2) * x.weight
  value := 4 * x.mantissa * x.weight
  high := (4 * x.mantissa + 2) * x.weight
  closed := x.mantissa % 2 == 0

namespace Span

def holds (s : Span) (r : Nat) : Bool :=
  if s.closed then s.low ≤ r && r ≤ s.high else s.low < r && r < s.high

/-- Of the two multiples of `step` around the value, the one in the span and nearest to the
value. -/
def nearest? (s : Span) (step : Nat) : Option Nat :=
  let below := s.value / step
  match s.holds (below * step), s.holds ((below + 1) * step) with
  | true, true => if 2 * (s.value % step) < step then some below else some (below + 1)
  | true, false => some below
  | false, true => some (below + 1)
  | false, false => none

end Span

/-- The coarsest grid comes first; on the last one the number itself is a point. -/
def shortest (x : Binary) : GridPoint :=
  let raises := (List.range ((ofNat x.exact.steps).length + 1)).reverse
  let found := raises.findSome? fun (i : Nat) =>
    (x.span.nearest? (4 * Nat.pow 10 i)).map fun n => (⟨n, x.place + i⟩ : GridPoint)
  found.getD x.exact

end Decimal
end MessageSchema
