import StackLang.Decimal.Binary64
import StackLang.Decimal.Numeral
import StackLang.Request
import StackLang.Text.Blank

namespace StackLang

inductive Field where
  | nothing
  | bool (b : Bool)
  | int (n : Int)
  /-- The number `mantissa * 10 ^ -places`. -/
  | decimal (mantissa : Int) (places : Nat)
  | text (s : String)
  | list (fields : List Field)
  | mapping
deriving Inhabited

namespace Field

/-- Zeros in front of a digit or a minus sign say nothing; nor do underscores among them. The last
zero stays if something else follows. -/
def skipZeros : List Char → List Char
  | '0' :: cs =>
    let zeros := cs.takeWhile fun c => c = '0' || c = '_'
    let rest := cs.drop zeros.length
    if rest.head?.any fun c => c.isDigit || c = '-' then rest else zeros.getLastD '0' :: rest
  | cs => cs

/-- The part before a point that only zeros follow, at least one. Without a point it is all. -/
def wholePart? (cs : List Char) : Option (List Char) :=
  let whole := cs.takeWhile (· ≠ '.')
  match cs.drop whole.length with
  | [] => some whole
  | _ :: fraction => if !fraction.isEmpty && fraction.all (· = '0') then some whole else none

/-- Whether `cs` are digits and underscores, each underscore between two other characters. The flag
tells that such a character came last. -/
def separated : Bool → List Char → Bool
  | ready, [] => ready
  | ready, '_' :: cs => ready && separated false cs
  | _, c :: cs => c.isDigit && separated true cs

def numeralLimit : Nat := 4300

/-- The number with these digits, of which the first is no zero unless it is the only one. -/
def ofDigits? (negative : Bool) (digits : List Char) : Option Int :=
  if digits.isEmpty || (digits.head? = some '0' && digits ≠ ['0']) then none
  else if digits.length + negative.toNat ≤ numeralLimit then
    some (Decimal.signed negative (Decimal.digitsValue digits))
  else none

def numeral? (s : String) : Option Int :=
  match Text.trim s.toList with
  | '-' :: cs => do
    let body ← wholePart? (skipZeros cs)
    if separated false body then ofDigits? true (body.filter (· ≠ '_')) else none
  | '+' :: cs => unsigned? cs
  | cs => unsigned? cs
where
  unsigned? (cs : List Char) : Option Int := do
    match cs.head?, ← wholePart? (skipZeros cs) with
    | some '0', '-' :: body =>
      if separated true body then ofDigits? true (body.filter (· ≠ '_')) else none
    | _, body => if separated false body then ofDigits? false (body.filter (· ≠ '_')) else none

/-- Numbers with a point are taken up to 63 bits. -/
def wordLimit : Int := 9223372036854775808

def toInt? : Field → Option Int
  | .bool b => some (if b then 1 else 0)
  | .int n => some n
  | .decimal mantissa places =>
    let x := Binary64.ofRatio (mantissa < 0) mantissa.natAbs (Nat.pow 10 places)
    x.toInt?.filter fun n => -wordLimit < n && n < wordLimit
  | .text s => numeral? s
  | .nothing | .list _ | .mapping => none

def toName? : Field → Option String
  | .text s => some s
  | _ => none

def toInts? : Field → Option (List Int)
  | .list fields => fields.mapM toInt?
  | _ => none

end Field

/-- What loosely typed values are taken for, if anything. -/
structure Validation where
  toName? : Field → Option String
  toInt? : Field → Option Int
  toInts? : Field → Option (List Int)

/-- Values that are of the right type already are taken as they are. -/
structure Validation.KeepsTyped (v : Validation) : Prop where
  name : ∀ s, v.toName? (.text s) = some s
  int : ∀ n, v.toInt? (.int n) = some n
  ints : ∀ numbers, v.toInts? (.list (numbers.map .int)) = some numbers

def Field.validation : Validation := ⟨toName?, toInt?, toInts?⟩

theorem Field.mapM_toInt? (numbers : List Int) :
    (numbers.map int).mapM toInt? = some numbers := by
  induction numbers with
  | nil => rfl
  | cons n numbers ih =>
    rw [List.map_cons, List.mapM_cons, ih]
    rfl

theorem Field.validation_keepsTyped : validation.KeepsTyped where
  name _ := rfl
  int _ := rfl
  ints := mapM_toInt?

namespace Request

def definition? (v : Validation) (name arity : Field) (body : List Command) : Option Request := do
  return .definition (← v.toName? name) ⟨← v.toInt? arity, body⟩

def call? (v : Validation) (name arguments : Field) : Option Request := do
  return .call (← v.toName? name) (← v.toInts? arguments)

end Request
end StackLang
