import StackLang.Decimal.Notation
import StackLang.Decimal.Numeral
import StackLang.Form
import StackLang.Text.Quoted

namespace StackLang

def spaced (rows : List (List Char)) : List Char :=
  [' '].intercalate rows

def parenthesized (rows : List (List Char)) : List Char :=
  '(' :: spaced rows ++ [')']

def listed (names : List String) : String :=
  String.intercalate ", " names

namespace Form

/-- A character inside a text literal. -/
def literalChar (c : Char) : List Char :=
  if c = '"' || c = '\\' then ['\\', c] else [c]

def literal (s : String) : List Char :=
  '"' :: s.toList.flatMap literalChar ++ ['"']

mutual

def chars : Form → List Char
  | .int n => Decimal.numeral n
  | .float x => x.chars
  | .symbol name => name.toList
  | .text s => literal s
  | .list fs => parenthesized (charsEach fs)

def charsEach : List Form → List (List Char)
  | [] => []
  | f :: fs => chars f :: charsEach fs

end

theorem charsEach_eq_map (fs : List Form) : charsEach fs = fs.map chars := by
  induction fs with
  | nil => rfl
  | cons f fs ih => rw [charsEach, ih, List.map_cons]

def source (f : Form) : String := String.ofList f.chars

mutual

def inspect : Form → String
  | .int n => "Integer(" ++ String.ofList (Decimal.numeral n) ++ ")"
  | .float x => "Float(" ++ String.ofList x.chars ++ ")"
  | .symbol name => "Symbol(" ++ Text.quoted name ++ ")"
  | .text s => "String(" ++ Text.quoted s ++ ")"
  | .list fs => "List(" ++ listed (inspectEach fs) ++ ")"

def inspectEach : List Form → List String
  | [] => []
  | f :: fs => inspect f :: inspectEach fs

end

end Form

namespace Item

def source : Item → String
  | .form f => f.source
  | .comment s => ";" ++ s ++ "\n"

def inspect : Item → String
  | .form f => f.inspect
  | .comment s => "Comment(" ++ Text.quoted s ++ ")"

end Item
end StackLang
