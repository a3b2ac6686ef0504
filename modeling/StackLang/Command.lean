import StackLang.Error

namespace StackLang

inductive Primitive where
  | add | div | eq | gt | lt | mul | nget | pop | rem | sel | sub | swap
deriving DecidableEq, Repr

/-- All operations: besides the primitives there is `exec`, which runs a block. -/
inductive Builtin where
  | exec
  | primitive (operation : Primitive)
deriving DecidableEq, Repr

inductive Command where
  | int (value : Int)
  | builtin (operation : Builtin)
  | block (body : List Command)

def Primitive.all : List Primitive :=
  [.add, .div, .eq, .gt, .lt, .mul, .nget, .pop, .rem, .sel, .sub, .swap]

def Primitive.name : Primitive → String
  | .add => "add"
  | .div => "div"
  | .eq => "eq"
  | .gt => "gt"
  | .lt => "lt"
  | .mul => "mul"
  | .nget => "nget"
  | .pop => "pop"
  | .rem => "rem"
  | .sel => "sel"
  | .sub => "sub"
  | .swap => "swap"

namespace Builtin

def all : List Builtin := .exec :: Primitive.all.map .primitive

def name : Builtin → String
  | .exec => "exec"
  | .primitive p => p.name

def ofName? (name : String) : Option Builtin := all.find? (·.name == name)

/-- The operation that a symbol stands for. -/
def ofName (name : String) : Except CodeError Builtin :=
  match ofName? name with
  | some b => .ok b
  | none => .error (.unknownBuiltin name)

theorem mem_all (b : Builtin) : b ∈ all := by
  rcases b with _ | p
  · decide
  · cases p <;> decide

theorem ofName?_name (b : Builtin) : ofName? b.name = some b := by
  rcases b with _ | p
  · rfl
  · cases p <;> rfl

end Builtin

namespace Command

mutual

def same : Command → Command → Bool
  | .int m, .int n => m == n
  | .builtin a, .builtin b => a == b
  | .block cs, .block ds => sameAll cs ds
  | _, _ => false

def sameAll : List Command → List Command → Bool
  | [], [] => true
  | c :: cs, d :: ds => same c d && sameAll cs ds
  | _, _ => false

end

instance : BEq Command := ⟨same⟩

/-- The command at an index; a negative index counts from the end. -/
def at? (code : List Command) (index : Int) : Option Command :=
  let i := if index < 0 then index + code.length else index
  if i < 0 then none else code[i.toNat]?

mutual

def size : Command → Nat
  | .int _ => 1
  | .builtin _ => 1
  | .block body => 1 + sizeAll body

def sizeAll : List Command → Nat
  | [] => 0
  | c :: cs => size c + sizeAll cs

end

mutual

/-- The code that a form stands for. The first leaf that is no code, from left to right, is what
the error is about. -/
def ofForm : Form → Except CodeError Command
  | .int n => .ok (.int n)
  | .symbol name => (Builtin.ofName name).map .builtin
  | .list fs => (ofForms fs).map .block
  | .float _ => .error .usingFloat
  | .text _ => .error .usingText

def ofForms : List Form → Except CodeError (List Command)
  | [] => .ok []
  | f :: fs => do
    let c ← ofForm f
    let cs ← ofForms fs
    return c :: cs

end

end Command
end StackLang
