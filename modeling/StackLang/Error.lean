import StackLang.Form

namespace StackLang

inductive CodeError where
  | unknownBuiltin (name : String)
  | usingFloat
  | usingText
deriving DecidableEq, Repr

inductive RequestError where
  | notASymbol
  | notAnInteger
  /-- A list that ends too early; the context is its head. -/
  | notEnoughArgs (context : String)
  | illegalArgumentType (form : Form)
  | programNotFound (name : String)
  | wrongNumberOfArgs (expected : Int) (actual : Nat)

inductive EvaluationError where
  | notEnoughValues
  | notANumber
  | notABlock
  | finalValueNotAnInteger
  | divisionByZero
deriving DecidableEq, Repr

inductive Error where
  | code (cause : CodeError)
  | request (cause : RequestError)
  | evaluation (cause : EvaluationError)

end StackLang
