import StackLang.Error.Report
import StackLang.Program
import StackLang.Stack

namespace StackLang

inductive ArgumentStyle where
  | tuple
  | list
  | named

inductive Event where
  /-- A list of forms is about to be taken for a request. -/
  | request (items : List Form) (named : Bool)
  | definition (name : String) (arity : Int)
  | call (name : String) (arguments : List Int)
  /-- A command has been carried out, with this stack as its result. -/
  | evaluated (command : Command) (stack : Stack)
  /-- A block taken off the stack is about to be run by itself. -/
  | executed (body : List Command)
  | returned (program : Program) (arguments : List Int) (style : ArgumentStyle) (result : Int)
  | failed (items : List Form) (error : Error)

namespace ArgumentStyle

def write (style : ArgumentStyle) (arguments : List Int) : String :=
  let numerals := arguments.map (String.ofList ∘ Decimal.numeral)
  match style with
  | .list => "[" ++ listed numerals ++ "]"
  | .named => "arguments=[" ++ listed numerals ++ "]"
  | .tuple =>
    match numerals with
    | [single] => "(" ++ single ++ ",)"
    | _ => "(" ++ listed numerals ++ ")"

end ArgumentStyle

namespace Event

def evaluation (command stack : String) : String := "EVAL: " ++ command ++ " => " ++ stack

def text : Event → String
  | .request items named =>
    "CALL: parse_request(" ++ (if named then ", forms=" else "") ++ (Form.list items).inspect ++ ")"
  | .definition name arity => " DEF: " ++ name ++ "/" ++ String.ofList (Decimal.numeral arity)
  | .call name arguments => "CALL: " ++ name ++ " " ++ ArgumentStyle.list.write arguments
  | .evaluated command stack => evaluation command.source stack.source
  | .executed body => "EXEC: " ++ (Command.block body).source
  | .returned program arguments style result =>
    "RETN: apply(" ++ program.inspect ++ ", " ++ style.write arguments ++ ") -> " ++
      String.ofList (Decimal.numeral result)
  | .failed items error => "FAIL: " ++ (Form.list items).source ++ " -> " ++ error.inspect

def lineOf (text : String) : String := "[DEBUG] " ++ text ++ "\n"

def line (e : Event) : String := lineOf e.text

end Event

structure Trace where
  enabled : Bool
  /-- What has happened so far, in order. -/
  events : Array Event

namespace Trace

def off : Trace := ⟨false, #[]⟩

def start (enabled : Bool) : Trace := ⟨enabled, #[]⟩

def record (t : Trace) (e : Event) : Trace :=
  if t.enabled then { t with events := t.events.push e } else t

def log (t : Trace) : String := String.join (t.events.toList.map Event.line)

end Trace
end StackLang
