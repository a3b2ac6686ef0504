import StackLang.Decimal.Shortest

namespace StackLang.Decimal

/-- Which numbers are written without an exponent, and how wide an exponent is at least. -/
structure Notation where
  /-- The least power of ten that is written by position. -/
  least : Int
  /-- The first power of ten that is not. -/
  limit : Int
  exponentWidth : Nat

def sourceNotation : Notation := ⟨-4, 16, 2⟩

/-- The digits without zeros at the end, and the power of ten of the first one. -/
def significant (d : Decimal) : List Char × Int :=
  let digits := Nat.toDigits 10 d.coefficient
  let kept := (digits.reverse.dropWhile (· == '0')).reverse
  (if kept.isEmpty then ['0'] else kept, d.exponent + digits.length - 1)

def positional (digits : List Char) (power : Int) : List Char :=
  if power < 0 then '0' :: '.' :: List.replicate (-power - 1).toNat '0' ++ digits
  else
    let whole := power.toNat + 1
    let fraction := digits.drop whole
    digits.take whole ++ List.replicate (whole - digits.length) '0' ++
      '.' :: (if fraction.isEmpty then ['0'] else fraction)

def scientific (width : Nat) (digits : List Char) (power : Int) : List Char :=
  let fraction := digits.drop 1
  let exponent := Nat.toDigits 10 power.natAbs
  digits.take 1 ++ (if fraction.isEmpty then [] else '.' :: fraction) ++
    'e' :: (if power < 0 then '-' else '+') ::
      List.replicate (width - exponent.length) '0' ++ exponent

def Notation.write (n : Notation) (d : Decimal) : List Char :=
  let (digits, power) := significant d
  if n.least ≤ power && power < n.limit then positional digits power
  else scientific n.exponentWidth digits power

end StackLang.Decimal

namespace StackLang.Binary64

def chars (x : Binary64) : List Char :=
  match x with
  | .finite negative units => sign negative ++ Decimal.sourceNotation.write (.shortest units)
  | .infinite negative => sign negative ++ ['i', 'n', 'f']
where
  sign (negative : Bool) : List Char := if negative then ['-'] else []

end StackLang.Binary64
