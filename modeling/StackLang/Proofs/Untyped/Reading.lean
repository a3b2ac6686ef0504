import StackLang.Proofs.Reader.Place
import StackLang.Proofs.Untyped.Service

namespace StackLang
open Untyped (Object)

mutual

def Form.erase : Form → Object
  | .int n => .int n
  | .float x => .float x
  | .symbol name => .symbol name
  | .text s => .text s
  | .list fs => .list (eraseAll fs)

def Form.eraseAll : List Form → List Object
  | [] => []
  | f :: fs => f.erase :: eraseAll fs

end

def Item.erase : Item → Object
  | .form f => f.erase
  | .comment s => .comment s

namespace Untyped

def Object.isComment : Object → Bool
  | .comment _ => true
  | _ => false

/-- Reads up to the end of the outermost open list. -/
def readOpen (outer : List (List Object)) (items : List Object) (c : Cursor) : Scan Object :=
  match _h : c.piece with
  | .found .opening after => readOpen (items :: outer) [] after
  | .found .closing after =>
    match outer with
    | [] => .found (.list items.reverse) after
    | siblings :: outer => readOpen outer (.list items.reverse :: siblings) after
  | .found (.item i) after =>
    readOpen outer (if i.erase.isComment then items else i.erase :: items) after
  | .absent after => after.fail .unterminatedList
  | .failed e after => .failed e after
termination_by c.ahead.length
decreasing_by all_goals exact Cursor.length_lt_of_piece ‹_›

def next (c : Cursor) : Scan Object :=
  let c := c.skipBlanks
  match c.ahead with
  | [] => .absent (c.take 1)
  | '(' :: _ => readOpen [] [] (c.take 1)
  | _ :: _ => c.single.map Item.erase

end Untyped

theorem Form.not_isComment_erase (f : Form) : ¬(Item.form f).erase.isComment = true := by
  cases f <;> exact Bool.false_ne_true

theorem Form.eraseAll_eq_map (fs : List Form) : eraseAll fs = fs.map erase := by
  induction fs with
  | nil => rfl
  | cons f fs ih => rw [eraseAll, ih, List.map_cons]

theorem Form.erase_ofReversed (items : List Form) :
    (ofReversed items).erase = .list (items.map erase).reverse := by
  rw [ofReversed, erase, eraseAll_eq_map, List.map_reverse]

namespace Cursor

theorem readOpen_erase (outer : List (List Form)) (items : List Form) (c : Cursor) :
    Untyped.readOpen (outer.map (List.map Form.erase)) (items.map Form.erase) c =
      (readOpen outer items c).map Form.erase := by
  fun_induction readOpen outer items c with
  | case1 outer items c after hp ih =>
    rw [Untyped.readOpen, hp]
    exact ih
  | case2 items c after hp =>
    rw [Untyped.readOpen, hp]
    exact congrArg (Scan.found · after) (Form.erase_ofReversed items).symm
  | case3 items c after hp siblings outer ih =>
    rw [Untyped.readOpen, hp, ← ih, List.map_cons, List.map_cons, Form.erase_ofReversed]
  | case4 outer items c f after hp ih =>
    rw [Untyped.readOpen, hp, ← ih]
    dsimp only
    rw [if_neg f.not_isComment_erase]
    rfl
  | case5 outer items c text after hp ih =>
    rw [Untyped.readOpen, hp]
    exact ih
  | case6 outer items c after hp =>
    rw [Untyped.readOpen, hp]
    rfl
  | case7 outer items c e after hp =>
    rw [Untyped.readOpen, hp]
    rfl

theorem next_erase (c : Cursor) : Untyped.next c = c.next.map Item.erase := by
  unfold Untyped.next
  dsimp only
  split
  · next h =>
    rw [next_of_nil h]
    rfl
  · next cs h =>
    have ho : Untyped.readOpen [] [] (c.skipBlanks.take 1) = _ :=
      readOpen_erase [] [] (c.skipBlanks.take 1)
    rw [next_of_open h, ho]
    cases readOpen [] [] (c.skipBlanks.take 1) <;> rfl
  · next ch cs hne h =>
    rw [next_of_other h hne]

end Cursor

namespace Untyped

theorem length_lt_of_next {c after : Cursor} {x : Object} (h : next c = .found x after) :
    after.ahead.length < c.ahead.length := by
  rw [Cursor.next_erase] at h
  obtain ⟨i, hi, -⟩ := Scan.map_eq_found h
  exact Cursor.length_lt_of_next hi

def collect (c : Cursor) : Except SyntaxError (List Object) :=
  match _h : next c with
  | .found x after => (collect after).map fun xs => if x.isComment then xs else x :: xs
  | .absent _ => .ok []
  | .failed e _ => .error e
termination_by c.ahead.length
decreasing_by exact length_lt_of_next ‹_›

def readText (text : String) : Except SyntaxError (List Object) := collect (.start text.toList)

end Untyped

theorem Course.collect_eq (c : Cursor) :
    Untyped.collect c = match (ofCursor c).error? with
      | none => .ok ((ofCursor c).forms.map Form.erase)
      | some e => .error e := by
  fun_induction ofCursor c with
  | case1 c i after h rest ih =>
    have hn : Untyped.next c = .found i.erase after := by
      rw [Cursor.next_erase, h]
      rfl
    rw [Untyped.collect, hn]
    dsimp only
    rw [ih]
    cases rest.error? with
    | some e => rfl
    | none =>
      cases i with
      | comment s => rfl
      | form f =>
        dsimp only [Except.map]
        rw [if_neg f.not_isComment_erase]
        rfl
  | case2 c after h =>
    have hn : Untyped.next c = .absent after := by
      rw [Cursor.next_erase, h]
      rfl
    rw [Untyped.collect, hn]
    rfl
  | case3 c e after h =>
    have hn : Untyped.next c = .failed e after := by
      rw [Cursor.next_erase, h]
      rfl
    rw [Untyped.collect, hn]

/-- Without types a text is read in the same way, and comments are gone at every depth. -/
theorem readText_erase (text : String) :
    Untyped.readText text = (readText text).map (List.map Form.erase) := by
  rw [Untyped.readText, Course.collect_eq, readText, Course.ofText]
  cases (Course.ofCursor (.start text.toList)).error? <;> rfl

end StackLang
