import StackLang.Stack.Primitive
import StackLang.Trace

namespace StackLang

/-- The machine that carries out code. It keeps the code still to run as a pile of pieces, so that
running a block means to put it on the pile. -/
structure Machine where
  stack : Stack
  trace : Trace

/-- How a run ends, the machine as it was left included. -/
abbrev Run := EStateM.Result EvaluationError Machine Unit

namespace Machine

/-- The size of all code on the pile. -/
def load : List (List Command) → Nat
  | [] => 0
  | code :: pieces => Command.sizeAll code + load pieces

def evaluated (m : Machine) (command : Command) (stack : Stack) : Machine :=
  ⟨stack, m.trace.record (.evaluated command stack)⟩

/-- Carries out the pieces of code one after the other. An `exec` puts a block in front of the rest;
the first error ends everything. -/
def run (m : Machine) : List (List Command) → Run
  | [] => .ok () m
  | [] :: pieces => m.run pieces
  | (.int n :: rest) :: pieces =>
    (m.evaluated (.int n) (.int n :: m.stack)).run (rest :: pieces)
  | (.block body :: rest) :: pieces =>
    (m.evaluated (.block body) (.block body :: m.stack)).run (rest :: pieces)
  | (.builtin .exec :: rest) :: pieces =>
    match _h : Stack.popBlock m.stack with
    | .ok body stack => (m.evaluated (.builtin .exec) stack).run (body :: rest :: pieces)
    | .error e stack => .error e { m with stack }
  | (.builtin (.primitive p) :: rest) :: pieces =>
    match _h : p.apply m.stack with
    | .ok _ stack => (m.evaluated (.builtin (.primitive p)) stack).run (rest :: pieces)
    | .error e stack => .error e { m with stack }
termination_by pieces => 2 * (load pieces + m.stack.weight) + pieces.length
decreasing_by
  · simp only [load, Command.sizeAll, List.length_cons]
    omega
  · simp only [load, Command.sizeAll, Command.size, evaluated, Stack.weight_cons, Value.weight,
      List.length_cons]
    omega
  · simp only [load, Command.sizeAll, Command.size, evaluated, Stack.weight_cons, Value.weight,
      List.length_cons]
    omega
  · have hs := congrArg Stack.weight (Stack.popBlock_eq_ok _h)
    simp only [Stack.weight_cons, Value.weight] at hs
    simp only [load, Command.sizeAll, Command.size, evaluated, List.length_cons]
    omega
  · have hs := p.weight_apply_le _h
    simp only [load, Command.sizeAll, Command.size, evaluated, List.length_cons]
    omega

/-- Carries out code on a machine. -/
def evaluate (m : Machine) (code : List Command) : Run := m.run [code]

/-- Carries out a single operation. A block that `exec` finds is run by itself. -/
def apply (m : Machine) : Builtin → Run
  | .exec =>
    match Stack.popBlock m.stack with
    | .ok body stack => evaluate ⟨stack, m.trace.record (.executed body)⟩ body
    | .error e stack => .error e { m with stack }
  | .primitive p =>
    match p.apply m.stack with
    | .ok _ stack => .ok () { m with stack }
    | .error e stack => .error e { m with stack }

end Machine
end StackLang
