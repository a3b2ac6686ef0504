import StackLang.Error
import StackLang.Form.Printer

namespace StackLang

inductive Tag where
  | anyError
  | anyCodeError
  | unknownBuiltin
  | usingFloat
  | usingText
  | anyRequestError
  | notASymbol
  | notAnInteger
  | notEnoughArgs
  | illegalArgumentType
  | programNotFound
  | wrongNumberOfArgs
  | anyEvaluationError
  | notEnoughValues
  | notANumber
  | notABlock
  | finalValueNotAnInteger
  | divisionByZero
deriving DecidableEq, Repr

namespace Tag

def all : List Tag :=
  [.anyError, .anyCodeError, .unknownBuiltin, .usingFloat, .usingText, .anyRequestError,
   .notASymbol, .notAnInteger, .notEnoughArgs, .illegalArgumentType, .programNotFound,
   .wrongNumberOfArgs, .anyEvaluationError, .notEnoughValues, .notANumber, .notABlock,
   .finalValueNotAnInteger, .divisionByZero]

def name : Tag → String
  | .anyError => "PostfixError"
  | .anyCodeError => "TranslationError"
  | .unknownBuiltin => "UnknownBuiltin"
  | .usingFloat => "UsingFloat"
  | .usingText => "UsingString"
  | .anyRequestError => "TopLevelError"
  | .notASymbol => "NotASymbol"
  | .notAnInteger => "NotAnInteger"
  | .notEnoughArgs => "NotEnoughArgs"
  | .illegalArgumentType => "IllegalArgumentType"
  | .programNotFound => "ProgramNotFound"
  | .wrongNumberOfArgs => "WrongNumberOfArgs"
  | .anyEvaluationError => "EvaluationError"
  | .notEnoughValues => "NotEnoughValues"
  | .notANumber => "NotANumber"
  | .notABlock => "NotAnExecutableSequence"
  | .finalValueNotAnInteger => "FinalValueNotAnInteger"
  | .divisionByZero => "DivisionByZero"

def ofName? (name : String) : Option Tag := all.find? (·.name == name)

/-- The names of the data that belong to a tag. -/
def fields : Tag → List String
  | .unknownBuiltin | .programNotFound => ["name"]
  | .notEnoughArgs => ["context"]
  | .illegalArgumentType => ["form"]
  | .wrongNumberOfArgs => ["expected", "actual"]
  | _ => []

/-- The groups that a tag belongs to, the widest first. -/
def groups : Tag → List Tag
  | .anyError => [.anyError]
  | .anyCodeError | .unknownBuiltin | .usingFloat | .usingText =>
    [.anyError, .anyCodeError]
  | .anyRequestError | .notASymbol | .notAnInteger | .notEnoughArgs | .illegalArgumentType
  | .programNotFound | .wrongNumberOfArgs => [.anyError, .anyRequestError]
  | .anyEvaluationError | .notEnoughValues | .notANumber | .notABlock | .finalValueNotAnInteger
  | .divisionByZero => [.anyError, .anyEvaluationError]

end Tag

inductive Datum where
  | text (s : String)
  | int (n : Int)
  | form (f : Form)

namespace Datum

def same : Datum → Datum → Bool
  | .text a, .text b => a == b
  | .int m, .int n => m == n
  | .form f, .form g => f == g
  | _, _ => false

instance : BEq Datum := ⟨same⟩

def display : Datum → String
  | .text s => s
  | .int n => String.ofList (Decimal.numeral n)
  | .form f => f.source

def inspect : Datum → String
  | .text s => Text.quoted s
  | .int n => String.ofList (Decimal.numeral n)
  | .form f => f.inspect

/-- A text stands between double quotes, just as it is. -/
def enclosed : Datum → String
  | .text s => "\"" ++ s ++ "\""
  | d => d.display

end Datum

structure Report where
  tag : Tag
  data : List Datum
deriving BEq

namespace Report

def make? (tag : Tag) (data : List Datum) : Option Report :=
  if data.length = tag.fields.length then some ⟨tag, data⟩ else none

def fields (r : Report) : List (String × String) :=
  (r.tag.fields.zip r.data).map fun (name, d) => (name, d.display)

def message (r : Report) : String :=
  match r.data with
  | [] => r.tag.name
  | [d] => r.tag.name ++ "(" ++ d.enclosed ++ ")"
  | _ =>
    r.tag.name ++ "\x7b" ++ listed (r.fields.map fun (name, d) => name ++ ": " ++ d) ++ "\x7d"

def inspect (r : Report) : String :=
  r.tag.name ++ "(" ++ listed (r.data.map (·.inspect)) ++ ")"

def answer (r : Report) : String := "error: " ++ r.message

end Report

def CodeError.report : CodeError → Report
  | .unknownBuiltin name => ⟨.unknownBuiltin, [.text name]⟩
  | .usingFloat => ⟨.usingFloat, []⟩
  | .usingText => ⟨.usingText, []⟩

def RequestError.report : RequestError → Report
  | .notASymbol => ⟨.notASymbol, []⟩
  | .notAnInteger => ⟨.notAnInteger, []⟩
  | .notEnoughArgs context => ⟨.notEnoughArgs, [.text context]⟩
  | .illegalArgumentType f => ⟨.illegalArgumentType, [.form f]⟩
  | .programNotFound name => ⟨.programNotFound, [.text name]⟩
  | .wrongNumberOfArgs expected actual => ⟨.wrongNumberOfArgs, [.int expected, .int actual]⟩

def EvaluationError.report : EvaluationError → Report
  | .notEnoughValues => ⟨.notEnoughValues, []⟩
  | .notANumber => ⟨.notANumber, []⟩
  | .notABlock => ⟨.notABlock, []⟩
  | .finalValueNotAnInteger => ⟨.finalValueNotAnInteger, []⟩
  | .divisionByZero => ⟨.divisionByZero, []⟩

namespace Error

def report : Error → Report
  | .code e => e.report
  | .request e => e.report
  | .evaluation e => e.report

def message (e : Error) : String := e.report.message

def inspect (e : Error) : String := e.report.inspect

def answer (e : Error) : String := e.report.answer

end Error
end StackLang
