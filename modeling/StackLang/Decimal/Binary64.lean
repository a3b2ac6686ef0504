namespace StackLang

/-- Numbers with 53 significant bits and eleven bits of exponent, held exactly. -/
inductive Binary64 where
  /-- A sign and a magnitude, counted in units of `2 ^ -1074`. -/
  | finite (negative : Bool) (units : Nat)
  | infinite (negative : Bool)
deriving DecidableEq, Repr

/-- The quotient to the nearest whole number, a tie going to the even one. -/
def divNearest (a b : Nat) : Nat :=
  let q := a / b
  let r := a % b
  if 2 * r < b then q
  else if b < 2 * r then q + 1
  else if q % 2 = 0 then q
  else q + 1

namespace Binary64

def unitsPerOne : Nat := Nat.pow 2 1074

/-- The first magnitude out of range, `2 ^ 1024`, in units. -/
def overflow : Nat := Nat.pow 2 2098

/-- The representable magnitude nearest to `num / den` units, if the exponent had no upper limit.
A quotient of more than 53 bits loses the low ones. -/
def roundUnits (num den : Nat) : Nat :=
  let grid := Nat.pow 2 ((num / den).log2 - 52)
  divNearest num (den * grid) * grid

/-- Signed `num / den`, rounded to nearest. -/
def ofRatio (negative : Bool) (num den : Nat) : Binary64 :=
  let units := roundUnits (num * unitsPerOne) den
  if units < overflow then .finite negative units else .infinite negative

/-- Numerical equality: the two zeros are equal. -/
def same : Binary64 → Binary64 → Bool
  | .finite s m, .finite t n => m == n && (s == t || m == 0)
  | .infinite s, .infinite t => s == t
  | _, _ => false

instance : BEq Binary64 := ⟨same⟩

def toInt? : Binary64 → Option Int
  | .finite s m =>
    if m % unitsPerOne = 0 then
      let n : Int := (m / unitsPerOne : Nat)
      some (if s then -n else n)
    else none
  | .infinite _ => none

end Binary64
end StackLang
