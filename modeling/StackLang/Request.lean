import StackLang.Program

namespace StackLang

inductive Request where
  | definition (name : String) (program : Program)
  | call (name : String) (arguments : List Int)

namespace Request

def same : Request → Request → Bool
  | .definition a p, .definition b q => a == b && p == q
  | .call a m, .call b n => a == b && m == n
  | _, _ => false

instance : BEq Request := ⟨same⟩

def arguments : List Form → Except RequestError (List Int)
  | [] => .ok []
  | .int n :: fs => (arguments fs).map (n :: ·)
  | f :: _ => .error (.illegalArgumentType f)

def definitionOfForms : List Form → Except Error Request
  | .symbol name :: .int arity :: body =>
    if arity < 0 then .error (.request .notAnInteger)
    else
      match Command.ofForms body with
      | .ok code => .ok (.definition name ⟨arity, code⟩)
      | .error e => .error (.code e)
  | .symbol _ :: _ :: _ => .error (.request .notAnInteger)
  | _ :: _ :: _ => .error (.request .notASymbol)
  | _ => .error (.request (.notEnoughArgs "def"))

def ofForms : List Form → Except Error Request
  | [] => .error (.request (.notEnoughArgs "()"))
  | .symbol name :: fs =>
    if name = "def" then definitionOfForms fs
    else
      match arguments fs with
      | .ok numbers => .ok (.call name numbers)
      | .error e => .error (.request e)
  | _ :: _ => .error (.request .notASymbol)

end Request
end StackLang
