import StackLang.Decimal.Binary64

namespace StackLang

/-- The number `coefficient * 10 ^ exponent`. -/
structure Decimal where
  coefficient : Nat
  exponent : Int
deriving DecidableEq, Repr

namespace Decimal
open Binary64

/-- The magnitude that a decimal is read as, in units. -/
def toUnits (d : Decimal) : Nat :=
  roundUnits (d.coefficient * Nat.pow 10 d.exponent.toNat * unitsPerOne)
    (Nat.pow 10 (-d.exponent).toNat)

/-- The power of ten of the leading digit. No magnitude but zero is below `10 ^ -324`. -/
def leadingExponent (units : Nat) : Int :=
  ((Nat.toDigits 10 (units * Nat.pow 10 324 / unitsPerOne)).length : Int) - 325

/-- A neighbour of the magnitude among the multiples of `10 ^ exponent`, if one reads back. -/
def onGrid? (units : Nat) (exponent : Int) : Option Decimal :=
  let num := units * Nat.pow 10 (-exponent).toNat
  let den := unitsPerOne * Nat.pow 10 exponent.toNat
  let below := num / den
  let near := divNearest num den
  let far := if near = below then below + 1 else below
  [near, far].findSome? fun coefficient =>
    let d : Decimal := ⟨coefficient, exponent⟩
    if d.toUnits = units then some d else none

/-- The magnitude itself: every power of two below one has finitely many decimals. -/
def exact (units : Nat) : Decimal :=
  ⟨units * Nat.pow 5 1074, -1074⟩

/-- Seventeen digits are always enough. -/
def shortest (units : Nat) : Decimal :=
  if units = 0 then ⟨0, 0⟩
  else
    let leading := leadingExponent units
    ((List.range 17).findSome? fun (n : Nat) => onGrid? units (leading - n)).getD (exact units)

end Decimal
end StackLang
