import StackLang.Program.Apply
import StackLang.Registry
import StackLang.Request

namespace StackLang

structure Session where
  registry : Registry
  trace : Trace

abbrev SessionM := EStateM Error Session

namespace Session

def start (withPrelude traced : Bool) : Session :=
  ⟨if withPrelude then .prelude else .empty, .start traced⟩

def record (s : Session) (e : Event) : Session :=
  { s with trace := s.trace.record e }

def call (style : ArgumentStyle) (name : String) (arguments : List Int) : SessionM Int := fun s =>
  match s.registry.find? name with
  | none => .error (.request (.programNotFound name)) s
  | some p =>
    match p.apply style arguments s.trace with
    | .ok n trace => .ok n { s with trace }
    | .error e trace => .error e { s with trace }

def serve : Request → SessionM (Option Int)
  | .definition name p => fun s =>
    .ok none { s.record (.definition name p.arity) with registry := s.registry.insert name p }
  | .call name arguments => do
    modify (·.record (.call name arguments))
    return some (← call .tuple name arguments)

def interpret (items : List Form) : StateM Session (Option String) := fun s =>
  let s := s.record (.request items false)
  let outcome := match Request.ofForms items with
    | .ok r => serve r s
    | .error e => .error e s
  match outcome with
  | .ok result s => (result.map (String.ofList ∘ Decimal.numeral), s)
  | .error e s => (some e.answer, s.record (.failed items e))

/-- The answer to any form: only lists are requests, all else is echoed. -/
def respond : Form → StateM Session (Option String)
  | .list items => interpret items
  | f => return some f.source

end Session
end StackLang
