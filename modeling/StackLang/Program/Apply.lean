import StackLang.Machine

namespace StackLang

abbrev TraceM := EStateM Error Trace

/-- The result of code that has left this stack. -/
def Stack.result : Stack → Except EvaluationError Int
  | [] => .error .notEnoughValues
  | .block _ :: _ => .error .finalValueNotAnInteger
  | .int n :: _ => .ok n

namespace Program

def apply (p : Program) (style : ArgumentStyle) (arguments : List Int) : TraceM Int := fun trace =>
  if arguments.length = p.arity then
    match Machine.evaluate ⟨arguments.map .int, trace⟩ p.body with
    | .ok _ m =>
      match m.stack.result with
      | .ok n => .ok n (m.trace.record (.returned p arguments style n))
      | .error e => .error (.evaluation e) m.trace
    | .error e m => .error (.evaluation e) m.trace
  else .error (.request (.wrongNumberOfArgs p.arity arguments.length)) trace

end Program
end StackLang
