import MessageSchema.Decimal.Shortest

/-!
Doubles as text. The bits are read into the number that they stand for, and its shortest decimal
is laid out in positional notation or with an exponent.
-/
namespace MessageSchema
namespace Decimal

inductive Double where
  | nan
  | infinite (negative : Bool)
  | zero (negative : Bool)
  | finite (negative : Bool) (magnitude : Binary)
deriving Repr, DecidableEq

def fractionSize : Nat := 0x10000000000000

def exponentSize : Nat := 0x800

/-- The highest bit is the sign, then come the exponent and the fraction. An exponent of zero stands
for the same scale as one, without the leading bit of the mantissa. -/
def Double.ofBits (bits : Nat) : Double :=
  let negative := bits / fractionSize / exponentSize % 2 == 1
  let biased : Nat := bits / fractionSize % exponentSize
  let fraction := bits % fractionSize
  if biased = exponentSize - 1 then
    if fraction = 0 then .infinite negative else .nan
  else if biased = 0 then
    if fraction = 0 then .zero negative else .finite negative ⟨fraction, -1074, false⟩
  else
    .finite negative ⟨fractionSize + fraction, biased - 1075, fraction == 0 && biased != 1⟩

/-- How a decimal is laid out: positional when the exponent of its first digit is from `least` to
`most`. -/
structure Layout where
  least : Int
  most : Int

/-- Positional from `0.00001` up to, and without, `10 ^ 16`. -/
def Layout.literal : Layout := ⟨-5, 15⟩

namespace GridPoint

/-- The power of ten of the first digit. -/
def magnitude (p : GridPoint) : Int := p.place + (ofNat p.steps).length - 1

/-- All places written, with a point only where digits follow it. -/
def positional (p : GridPoint) : List Char :=
  let digits := ofNat p.steps
  let whole := digits.length + p.place
  if 0 ≤ p.place then digits ++ List.replicate p.place.toNat '0'
  else if 0 < whole then digits.take whole.toNat ++ '.' :: digits.drop whole.toNat
  else '0' :: '.' :: List.replicate (-whole).toNat '0' ++ digits

def scientific (p : GridPoint) : List Char :=
  let exponent := 'e' :: ofInt p.magnitude
  match ofNat p.steps with
  | first :: second :: rest => first :: '.' :: second :: rest ++ exponent
  | digits => digits ++ exponent

def render (layout : Layout) (p : GridPoint) : List Char :=
  if layout.least ≤ p.magnitude ∧ p.magnitude ≤ layout.most then p.positional else p.scientific

end GridPoint

def signed (negative : Bool) (digits : List Char) : List Char :=
  if negative then '-' :: digits else digits

def Double.render (layout : Layout) : Double → List Char
  | .nan => ['N', 'a', 'N']
  | .infinite negative => signed negative ['i', 'n', 'f']
  | .zero negative => signed negative ['0']
  | .finite negative x => signed negative ((shortest x).render layout)

def ofFloat (x : Float) : List Char :=
  (Double.ofBits x.toBits.toNat).render .literal

end Decimal
end MessageSchema
