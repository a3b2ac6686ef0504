import StackLang.Reader.Item

namespace StackLang

inductive Component where
  | blanks
  /-- One given character, or the end of the text. -/
  | lookahead (c : Option Char)
  | comment
  | text
  | float
  | integer
  | symbol
  | list
  | item
  /-- The next form or comment, unless the text ends before it. -/
  | next

namespace Component

def run (component : Component) (c : Cursor) : Scan (Option Item) :=
  match component with
  | .blanks => .found none c.skipBlanks
  | .lookahead ch => (c.attempt (Token.exactly ch)).map fun _ => none
  | .comment => (c.attempt Token.comment).map some
  | .text => (c.attempt Token.text).map some
  | .float => (c.attempt Token.float).map some
  | .integer => (c.attempt Token.integer).map some
  | .symbol => (c.attempt Token.symbol).map some
  | .list => c.list.map (some ∘ .form)
  | .item => c.item.map some
  | .next => c.next.map some

end Component
end StackLang
