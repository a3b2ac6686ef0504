import StackLang.Reader.Cursor

namespace StackLang

inductive Piece where
  | opening
  | closing
  | item (item : Item)

/-- A list whose items were collected last one first. -/
def Form.ofReversed (items : List Form) : Form := .list items.reverse

namespace Cursor

def single (c : Cursor) : Scan Item :=
  match c.attempt Token.any with
  | .absent after => after.fail .invalidForm
  | other => other

/-- The next piece of a list. It is absent at the end of the text, which is then taken. -/
def piece (c : Cursor) : Scan Piece :=
  let c := c.skipBlanks
  match c.ahead with
  | [] => .absent (c.take 1)
  | ')' :: _ => .found .closing (c.take 1)
  | '(' :: _ => .found .opening (c.take 1)
  | _ :: _ => c.single.map .item

theorem length_lt_of_single {c after : Cursor} {i : Item} (hc : c.ahead ≠ [])
    (h : c.single = .found i after) : after.ahead.length < c.ahead.length := by
  unfold single at h
  split at h
  · cases h
  · exact length_lt_of_attempt (Token.any_proper _) hc h

theorem length_lt_of_piece {c after : Cursor} {p : Piece} (h : c.piece = .found p after) :
    after.ahead.length < c.ahead.length := by
  refine Nat.lt_of_lt_of_le ?_ c.length_skipBlanks_le
  unfold piece at h
  dsimp only at h
  split at h
  · cases h
  · next hc => cases h; simp [hc]
  · next hc => cases h; simp [hc]
  · next hc =>
    obtain ⟨i, hs, _⟩ := Scan.map_eq_found h
    exact length_lt_of_single (by simp [hc]) hs

/-- Reads up to the end of the outermost open list. `items` are those of the innermost one, the last
read first, and `outer` those of the lists around it. -/
def readOpen (outer : List (List Form)) (items : List Form) (c : Cursor) : Scan Form :=
  match _h : c.piece with
  | .found .opening after => readOpen (items :: outer) [] after
  | .found .closing after =>
    match outer with
    | [] => .found (.ofReversed items) after
    | siblings :: outer => readOpen outer (.ofReversed items :: siblings) after
  | .found (.item (.form f)) after => readOpen outer (f :: items) after
  | .found (.item (.comment _)) after => readOpen outer items after
  | .absent after => after.fail .unterminatedList
  | .failed e after => .failed e after
termination_by c.ahead.length
decreasing_by all_goals exact length_lt_of_piece ‹_›

theorem length_lt_of_readOpen {outer : List (List Form)} {items : List Form} {c after : Cursor}
    {f : Form} (h : readOpen outer items c = .found f after) :
    after.ahead.length < c.ahead.length := by
  fun_induction readOpen outer items c with
  | case1 _ _ _ _ hp ih => exact Nat.lt_trans (ih h) (length_lt_of_piece hp)
  | case2 _ _ _ hp => cases h; exact length_lt_of_piece hp
  | case3 _ _ _ hp _ _ ih => exact Nat.lt_trans (ih h) (length_lt_of_piece hp)
  | case4 _ _ _ _ _ hp ih => exact Nat.lt_trans (ih h) (length_lt_of_piece hp)
  | case5 _ _ _ _ _ hp ih => exact Nat.lt_trans (ih h) (length_lt_of_piece hp)
  | case6 => cases h
  | case7 => cases h

def list (c : Cursor) : Scan Form :=
  match c.ahead with
  | '(' :: _ => readOpen [] [] (c.take 1)
  | _ => .absent (c.look 1)

def item (c : Cursor) : Scan Item :=
  let c := c.skipBlanks
  match c.ahead with
  | '(' :: _ => c.list.map .form
  | _ => c.single

/-- The next form or comment. It is absent at the end of the text, which is then taken. -/
def next (c : Cursor) : Scan Item :=
  let c := c.skipBlanks
  match c.ahead with
  | [] => .absent (c.take 1)
  | _ :: _ => c.item

theorem length_lt_of_list {c after : Cursor} {f : Form} (h : c.list = .found f after) :
    after.ahead.length < c.ahead.length := by
  unfold list at h
  split at h
  · next hc => exact Nat.lt_of_lt_of_le (length_lt_of_readOpen h) (by simp)
  · cases h

theorem ahead_skipBlanks_skipBlanks (c : Cursor) :
    c.skipBlanks.skipBlanks.ahead = c.skipBlanks.ahead := by
  simp [skipBlanks, Token.blankCount_drop_blankCount]

theorem length_lt_of_next {c after : Cursor} {i : Item} (h : c.next = .found i after) :
    after.ahead.length < c.ahead.length := by
  refine Nat.lt_of_lt_of_le ?_ c.length_skipBlanks_le
  unfold next item at h
  dsimp only at h
  split at h
  · cases h
  · next hc =>
    have hd := c.ahead_skipBlanks_skipBlanks
    rw [← hd]
    split at h
    · obtain ⟨f, hl, _⟩ := Scan.map_eq_found h
      exact length_lt_of_list hl
    · exact length_lt_of_single (by simp [hd, hc]) h

end Cursor

end StackLang
