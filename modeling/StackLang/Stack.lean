import StackLang.Command.Printer

namespace StackLang

inductive Value where
  | int (n : Int)
  | block (body : List Command)

namespace Value

def toCommand : Value → Command
  | .int n => .int n
  | .block body => .block body

def ofCommand? : Command → Option Value
  | .int n => some (.int n)
  | .block body => some (.block body)
  | .builtin _ => none

def source (v : Value) : String := v.toCommand.source

def toInt : Value → Except EvaluationError Int
  | .int n => .ok n
  | .block _ => .error .notANumber

def toBlock : Value → Except EvaluationError (List Command)
  | .block body => .ok body
  | .int _ => .error .notABlock

def weight : Value → Nat
  | .int _ => 0
  | .block body => Command.sizeAll body

end Value

/-- The first value of the list is the top. Operations take values off one after the other, so a
failing one leaves the stack without the values taken so far, the offending one included. -/
abbrev Stack := List Value

abbrev StackM := EStateM EvaluationError Stack

namespace Stack

def ofBottomUp (values : List Value) : Stack := values.reverse

def bottomUp (s : Stack) : List Value := s.reverse

def bracketed (rows : List (List Char)) : String :=
  String.ofList ('[' :: spaced rows ++ [']'])

def rows (s : Stack) : List (List Char) := s.bottomUp.map (·.toCommand.chars)

def source (s : Stack) : String := bracketed s.rows

def inspect (s : Stack) : String :=
  "Stack([" ++ listed (s.bottomUp.map (·.toCommand.inspect)) ++ "])"

def same (s t : Stack) : Bool :=
  s.map (·.toCommand) == t.map (·.toCommand)

def weight : Stack → Nat
  | [] => 0
  | v :: s => v.weight + weight s

def push (v : Value) : StackM Unit := modify (v :: ·)

def pop : StackM Value := do
  match ← get with
  | [] => throw .notEnoughValues
  | v :: rest =>
    set rest
    return v

def popInt : StackM Int := do
  match (← pop).toInt with
  | .ok n => return n
  | .error e => throw e

def popBlock : StackM (List Command) := do
  match (← pop).toBlock with
  | .ok body => return body
  | .error e => throw e

def swap : StackM Unit := do
  let a ← pop
  let b ← pop
  push a
  push b

/-- The value at a depth; the top has depth one. -/
def peek? (s : Stack) (depth : Int) : Option Value :=
  if depth < 1 then none else s[(depth - 1).toNat]?

def nget : StackM Unit := do
  let depth ← popInt
  match (← get).peek? depth with
  | none => throw .notEnoughValues
  | some v =>
    match v.toInt with
    | .ok n => push (.int n)
    | .error e => throw e

/-- Replaces the two numbers on top; the upper one is the second operand. -/
def binary (f : Int → Int → Except EvaluationError Int) : StackM Unit := do
  let b ← popInt
  let a ← popInt
  match f a b with
  | .ok n => push (.int n)
  | .error e => throw e

/-- Chooses between the two values on top by the number below them: the upper one if it is zero. -/
def select : StackM Unit := do
  let ifZero ← pop
  let otherwise ← pop
  let condition ← popInt
  push (if condition = 0 then ifZero else otherwise)

end Stack
end StackLang
