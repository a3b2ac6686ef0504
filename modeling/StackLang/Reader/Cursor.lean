import StackLang.Reader.Token

namespace StackLang

/-- A place in a text that is fetched only as far as it is looked at. Past the end of the text every
fetch yields the end again. -/
structure Cursor where
  /-- The characters from this place on. -/
  ahead : List Char
  position : Nat
  /-- How many characters have been fetched from the start of the text. -/
  fetched : Nat
  /-- One more than the number of line feeds fetched. -/
  line : Nat

/-- What reading comes to, and the place behind it. Where nothing is found, the place is the one
from before. -/
inductive Scan (α : Type) where
  | found (value : α) (after : Cursor)
  | absent (after : Cursor)
  | failed (error : SyntaxError) (after : Cursor)

namespace Scan

def map {α β : Type} (g : α → β) : Scan α → Scan β
  | .found value after => .found (g value) after
  | .absent after => .absent after
  | .failed e after => .failed e after

theorem map_eq_found {α β : Type} {g : α → β} {s : Scan α} {b : β} {after : Cursor}
    (h : s.map g = .found b after) : ∃ a, s = .found a after ∧ g a = b := by
  cases s with
  | found a after' => cases h; exact ⟨a, rfl, rfl⟩
  | absent => cases h
  | failed => cases h

end Scan

namespace Cursor

def start (cs : List Char) : Cursor := ⟨cs, 0, 0, 1⟩

/-- Fetches the next `n` characters unless they are there already. -/
def look (c : Cursor) (n : Nat) : Cursor :=
  let known := c.fetched - c.position
  { c with
    fetched := max c.fetched (c.position + n)
    line := c.line + ((c.ahead.drop known).take (n - known)).count '\n' }

def advance (c : Cursor) (n : Nat) : Cursor :=
  { c with ahead := c.ahead.drop n, position := c.position + n }

def take (c : Cursor) (n : Nat) : Cursor :=
  (c.look n).advance n

@[simp] theorem ahead_look (c : Cursor) (n : Nat) : (c.look n).ahead = c.ahead := rfl

@[simp] theorem ahead_advance (c : Cursor) (n : Nat) :
    (c.advance n).ahead = c.ahead.drop n := rfl

@[simp] theorem ahead_take (c : Cursor) (n : Nat) : (c.take n).ahead = c.ahead.drop n := rfl

/-- Stops in front of the first character that is no blank, having looked at it. -/
def skipBlanks (c : Cursor) : Cursor :=
  let n := Token.blankCount c.ahead
  (c.look (n + 1)).advance n

theorem length_skipBlanks_le (c : Cursor) : c.skipBlanks.ahead.length ≤ c.ahead.length := by
  simp [skipBlanks]

/-- The fault is on the line reached by now. -/
def fail {α : Type} (c : Cursor) (fault : SyntaxFault) : Scan α :=
  .failed ⟨fault, c.line⟩ c

def attempt {α : Type} (recognize : List Char → Attempt α) (c : Cursor) : Scan α :=
  match recognize c.ahead with
  | .hit value taken examined => .found value ((c.look examined).advance taken)
  | .miss examined => .absent (c.look examined)
  | .broken fault taken => (c.take taken).fail fault

theorem length_lt_of_attempt {α : Type} {recognize : List Char → Attempt α} {c after : Cursor}
    {value : α} (hp : (recognize c.ahead).Proper) (hc : c.ahead ≠ [])
    (h : c.attempt recognize = .found value after) : after.ahead.length < c.ahead.length := by
  unfold attempt at h
  split at h
  · next taken examined hr =>
    cases h
    have ht := hp _ _ _ hr
    have hl := List.length_pos_iff.2 hc
    simp only [ahead_advance, ahead_look, List.length_drop]
    omega
  · cases h
  · cases h

end Cursor
end StackLang
