namespace StackLang

inductive SyntaxFault where
  | invalidForm
  | unterminatedList
  | unterminatedText
deriving DecidableEq, Repr

def SyntaxFault.message : SyntaxFault → String
  | .invalidForm => "Invalid form."
  | .unterminatedList => "Unterminated list."
  | .unterminatedText => "Unterminated string literal."

/-- A fault and the line that had been reached in the text. Lines count from one. -/
structure SyntaxError where
  fault : SyntaxFault
  line : Nat
deriving DecidableEq, Repr

def SyntaxError.message (e : SyntaxError) : String :=
  "Parse error on line " ++ e.line.repr ++ ": " ++ e.fault.message

end StackLang
