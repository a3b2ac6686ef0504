import StackLang.Command
import StackLang.Form.Printer

namespace StackLang

def Builtin.inspect (b : Builtin) : String :=
  "<Opcode." ++ b.name.toUpper ++ ": " ++ Text.quoted b.name ++ ">"

namespace Command

mutual

def chars : Command → List Char
  | .int n => Decimal.numeral n
  | .builtin b => b.name.toList
  | .block body => parenthesized (charsEach body)

def charsEach : List Command → List (List Char)
  | [] => []
  | c :: cs => chars c :: charsEach cs

end

theorem charsEach_eq_map (cs : List Command) : charsEach cs = cs.map chars := by
  induction cs with
  | nil => rfl
  | cons c cs ih => rw [charsEach, ih, List.map_cons]

def source (c : Command) : String := String.ofList c.chars

def sourceAll (cs : List Command) : String := String.ofList (spaced (charsEach cs))

mutual

def inspect : Command → String
  | .int n => "Integer(" ++ String.ofList (Decimal.numeral n) ++ ")"
  | .builtin b => "BuiltIn(" ++ b.inspect ++ ")"
  | .block body => "ExecutableSequence([" ++ listed (inspectEach body) ++ "])"

def inspectEach : List Command → List String
  | [] => []
  | c :: cs => inspect c :: inspectEach cs

end

end Command
end StackLang
