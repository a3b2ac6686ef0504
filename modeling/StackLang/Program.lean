import StackLang.Command.Printer

namespace StackLang

structure Program where
  arity : Int
  body : List Command

namespace Program

def same (p q : Program) : Bool :=
  p.arity == q.arity && p.body == q.body

instance : BEq Program := ⟨same⟩

def inspect (p : Program) : String :=
  "Program(" ++ String.ofList (Decimal.numeral p.arity) ++ ", [" ++
    listed (Command.inspectEach p.body) ++ "])"

end Program
end StackLang
