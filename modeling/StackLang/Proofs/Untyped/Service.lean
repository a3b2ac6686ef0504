import StackLang.Proofs.Untyped.Machine
import StackLang.Request.Field

namespace StackLang.Untyped

structure Program where
  arity : Int
  body : List Object

namespace Program

def pushAll : List Int → OperandM Unit
  | [] => return
  | n :: arguments => do
    pushAll arguments
    push (.literal n)

def result : OperandM Int := do
  match ← pop with
  | .block _ => throw (.of (.evaluation .finalValueNotAnInteger))
  | x =>
    match x.toInteger with
    | .ok n => return n
    | .error e => throw e

def apply (p : Program) (arguments : List Int) : Checked Int :=
  if arguments.length = p.arity then do
    let (_, stack) ← pushAll arguments []
    result.run' (← evaluate stack [p.body])
  else .error (.of (.request (.wrongNumberOfArgs p.arity arguments.length)))

end Program

inductive Request where
  | definition (name : String) (program : Program)
  | call (name : String) (arguments : List Int)

namespace Request

def integers : List Object → Checked (List Int)
  | [] => .ok []
  | .int n :: xs => (integers xs).map (n :: ·)
  | x :: _ =>
    .error (.error (Tag.illegalArgumentType.name ++ "(" ++ String.ofList x.chars ++ ")"))

section
variable (v : Validation)

/-- The parts of a definition are checked once it is there. -/
def definition? (name : String) (arity : Int) (body : List Object) : Checked Request :=
  match v.toName? (.text name), v.toInt? (.int arity) with
  | some name, some arity => .ok (.definition name ⟨arity, body⟩)
  | _, _ => .error (.fault .invalidField)

def call? (name : String) (arguments : List Int) : Checked Request :=
  match v.toName? (.text name), v.toInts? (.list (arguments.map .int)) with
  | some name, some arguments => .ok (.call name arguments)
  | _, _ => .error (.fault .invalidField)

def definitionOfObjects : List Object → Checked Request
  | .symbol name :: .int arity :: body =>
    if arity < 0 then .error (.of (.request .notAnInteger))
    else do definition? v name arity (← Object.translateAll body)
  | .symbol _ :: _ :: _ => .error (.of (.request .notAnInteger))
  | _ :: _ :: _ => .error (.of (.request .notASymbol))
  | _ => .error (.of (.request (.notEnoughArgs "def")))

def ofObjects : List Object → Checked Request
  | [] => .error (.of (.request (.notEnoughArgs "()")))
  | .symbol name :: xs =>
    if name = "def" then definitionOfObjects v xs else do call? v name (← integers xs)
  | _ :: _ => .error (.of (.request .notASymbol))

end
end Request

abbrev Registry := String → Option Program

abbrev Answer := Except Fault (Option String)

def Failure.answer : Failure → Answer
  | .fault cause => .error cause
  | .error message => .ok (some ("error: " ++ message))

def serve (r : Registry) : Request → Answer × Registry
  | .definition name p => (.ok none, fun other => if other = name then some p else r other)
  | .call name arguments =>
    match r name with
    | none => ((Failure.of (.request (.programNotFound name))).answer, r)
    | some p =>
      match p.apply arguments with
      | .ok n => (.ok (some (String.ofList (Decimal.numeral n))), r)
      | .error e => (e.answer, r)

/-- Takes an object, which must be a list, for a request and serves it. -/
def interpret (v : Validation) (r : Registry) : Object → Answer × Registry
  | .list items =>
    match Request.ofObjects v items with
    | .ok request => serve r request
    | .error e => (e.answer, r)
  | _ => (.error .assertion, r)

end StackLang.Untyped
