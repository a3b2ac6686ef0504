import StackLang.Decimal.Binary64

namespace StackLang

inductive Form where
  | int (value : Int)
  | float (value : Binary64)
  | symbol (name : String)
  | text (value : String)
  | list (items : List Form)

/-- What the reader hands out: a form, or a comment without its semicolon and line end. -/
inductive Item where
  | form (form : Form)
  | comment (text : String)

def Item.form? : Item → Option Form
  | .form f => some f
  | .comment _ => none

namespace Form

mutual

/-- Equality of forms: the same kind and equal contents, numbers being compared by value. -/
def same : Form → Form → Bool
  | .int m, .int n => m == n
  | .float x, .float y => x == y
  | .symbol a, .symbol b => a == b
  | .text a, .text b => a == b
  | .list fs, .list gs => sameAll fs gs
  | _, _ => false

def sameAll : List Form → List Form → Bool
  | [], [] => true
  | f :: fs, g :: gs => same f g && sameAll fs gs
  | _, _ => false

end

instance : BEq Form := ⟨same⟩

end Form
end StackLang
