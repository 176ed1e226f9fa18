import MessageSchema.Text.Quoted
import MessageSchema.Decimal.Double

/-!
Literals: the values of constants and defaults, with their text. Lists nest and may mix kinds.
-/
namespace MessageSchema

inductive Literal where
  | bool (value : Bool)
  | int (value : Int64)
  | float (value : Float)
  | string (value : String)
  | list (items : List Literal)

namespace Literal

mutual

/-- Equality of literals. Floats compare as numbers, so zero has one sign and NaN differs from
itself. -/
def same : Literal → Literal → Bool
  | .bool a, .bool b => a == b
  | .int a, .int b => a == b
  | .float a, .float b => a == b
  | .string a, .string b => a == b
  | .list as, .list bs => sameItems as bs
  | _, _ => false

def sameItems : List Literal → List Literal → Bool
  | [], [] => true
  | a :: as, b :: bs => same a b && sameItems as bs
  | _, _ => false

end

instance : BEq Literal := ⟨same⟩

mutual

def text : Literal → List Char
  | .bool true => ['t', 'r', 'u', 'e']
  | .bool false => ['f', 'a', 'l', 's', 'e']
  | .int value => Decimal.ofInt value.toInt
  | .float value => Decimal.ofFloat value
  | .string value => Text.quoted value.toList
  | .list items => '[' :: [',', ' '].intercalate (itemTexts items) ++ [']']

def itemTexts : List Literal → List (List Char)
  | [] => []
  | item :: items => text item :: itemTexts items

end

theorem itemTexts_eq_map (items : List Literal) : itemTexts items = items.map text := by
  induction items with
  | nil => rfl
  | cons item items ih => simp [itemTexts, ih]

end Literal
end MessageSchema
