/-!
Whole numbers in base ten, written and read as lists of digits.
-/
namespace MessageSchema
namespace Decimal

def ofNat (n : Nat) : List Char := Nat.toDigits 10 n

/-- A minus sign stands before a negative number, nothing before the others. -/
def ofInt : Int → List Char
  | .ofNat n => ofNat n
  | .negSucc n => '-' :: ofNat (n + 1)

def toNat (digits : List Char) : Nat := Nat.ofDigitChars 10 digits 0

@[simp] theorem toNat_ofNat (n : Nat) : toNat (ofNat n) = n :=
  Nat.ofDigitChars_toDigits (by decide) (by decide)

theorem isDigit_of_mem_ofNat {n : Nat} {c : Char} (h : c ∈ ofNat n) : c.isDigit = true :=
  Nat.isDigit_of_mem_toDigits (b := 10) (by decide) (by decide) h

theorem ofNat_ne_nil (n : Nat) : ofNat n ≠ [] := Nat.toDigits_ne_nil

theorem ofNat_inj {m n : Nat} (h : ofNat m = ofNat n) : m = n := by
  simpa using congrArg toNat h

end Decimal
end MessageSchema
