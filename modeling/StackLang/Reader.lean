import StackLang.Reader.Item

namespace StackLang

/-- All that reading a text yields. -/
structure Course where
  /-- The forms and comments in order, each with the place behind it. -/
  steps : List (Item × Cursor)
  /-- Why reading stopped before the end of the text. -/
  error? : Option SyntaxError
  final : Cursor

namespace Course

/-- Reads from a place on until the text ends or has a fault. -/
def ofCursor (c : Cursor) : Course :=
  match _h : c.next with
  | .found i after =>
    let rest := ofCursor after
    { rest with steps := (i, after) :: rest.steps }
  | .absent after => ⟨[], none, after⟩
  | .failed e after => ⟨[], some e, after⟩
termination_by c.ahead.length
decreasing_by exact Cursor.length_lt_of_next ‹_›

def ofText (cs : List Char) : Course := ofCursor (.start cs)

def items (c : Course) : List Item := c.steps.map (·.1)

def forms (c : Course) : List Form := c.items.filterMap Item.form?

/-- The forms with the places behind them. -/
def formSteps (c : Course) : List (Form × Cursor) :=
  c.steps.filterMap fun (i, after) => i.form?.map (·, after)

end Course

/-- All forms of a text; comments are left out. -/
def readText (text : String) : Except SyntaxError (List Form) :=
  let course := Course.ofText text.toList
  match course.error? with
  | none => .ok course.forms
  | some e => .error e

end StackLang
