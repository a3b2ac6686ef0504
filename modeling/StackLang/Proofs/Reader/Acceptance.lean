import StackLang.Proofs.Reader.Grammar

namespace StackLang

namespace Token

theorem any_comment (cs : List Char) :
    ∃ text width, any (';' :: cs) = .hit (.comment text) width width ∧
      (';' :: cs).drop width = Grammar.afterComment cs := by
  refine ⟨_, _, rfl, ?_⟩
  rw [Grammar.afterComment, ← drop_length_takeWhile, List.drop_drop]
  rfl

theorem any_text (cs : List Char) : any ('"' :: cs) = match textBody cs with
    | some (value, width) => .hit (.form (.text (String.ofList value))) (width + 1) (width + 1)
    | none => .broken .unterminatedText (cs.length + 2) := by
  -- Only the recognizer of comments comes before that of texts.
  have ht : any ('"' :: cs) =
      ((.miss 1 : Attempt Item) <|> text ('"' :: cs) <|> float ('"' :: cs) <|>
        integer ('"' :: cs) <|> symbol ('"' :: cs)) := rfl
  rw [ht, text]
  rcases textBody cs with _ | ⟨value, width⟩
  · rfl
  · change Attempt.hit _ _ (max 1 (width + 1)) = _
    rw [Nat.max_eq_right (Nat.le_add_left 1 width)]

end Token

namespace Item

/-- Puts an item in front of what is read after it. A comment leaves no trace. -/
def before : Item → Except SyntaxFault (List Form × List Char) →
    Except SyntaxFault (List Form × List Char)
  | .form f, r => Grammar.before f r
  | .comment _, r => r

end Item

namespace Grammar

/-- Reads on to the end of the outermost open list. `items` are those of the innermost one read so
far, the last one first, and `outer` those of the lists around it. -/
def complete : (outer : List (List Form)) → (items : List Form) → List Char →
    Except SyntaxFault (Form × List Char)
  | [], items, cs => (read true cs).map fun (fs, rest) => (.list (items.reverse ++ fs), rest)
  | siblings :: outer, items, cs => (read true cs).bind fun (fs, rest) =>
      complete outer (.list (items.reverse ++ fs) :: siblings) rest

theorem complete_congr {cs ds : List Char} (h : read true cs = read true ds)
    (outer : List (List Form)) (items : List Form) :
    complete outer items cs = complete outer items ds := by
  cases outer <;> rw [complete, complete, h]

theorem complete_error {cs : List Char} {fault : SyntaxFault} (h : read true cs = .error fault)
    (outer : List (List Form)) (items : List Form) : complete outer items cs = .error fault := by
  cases outer <;> rw [complete, h] <;> rfl

theorem complete_before {cs ds : List Char} {f : Form}
    (h : read true cs = before f (read true ds)) (outer : List (List Form)) (items : List Form) :
    complete outer items cs = complete outer (f :: items) ds := by
  have hl (fs : List Form) : items.reverse ++ f :: fs = (f :: items).reverse ++ fs := by simp
  cases outer with
  | nil =>
    rw [complete, complete, h]
    rcases read true ds with e | ⟨fs, rest⟩
    · rfl
    · change Except.ok (Form.list (items.reverse ++ f :: fs), rest) = _
      rw [hl]
      rfl
  | cons siblings outer =>
    rw [complete, complete, h]
    rcases read true ds with e | ⟨fs, rest⟩
    · rfl
    · change complete outer (.list (items.reverse ++ f :: fs) :: siblings) rest = _
      rw [hl]
      rfl

theorem complete_list (outer : List (List Form)) (items : List Form) (cs : List Char) :
    complete (items :: outer) [] cs = complete outer items ('(' :: cs) := by
  have hr := read_list true cs
  rw [complete]
  rcases h : read true cs with e | ⟨fs, rest⟩
  · rw [h] at hr
    exact (complete_error hr outer items).symm
  · rw [h] at hr
    exact (complete_before hr outer items).symm

end Grammar

def Scan.outcome {α : Type} : Scan α → Except SyntaxFault (Option (α × List Char))
  | .found value after => .ok (some (value, after.ahead))
  | .absent _ => .ok none
  | .failed e _ => .error e.fault

theorem Scan.outcome_eq_some {α : Type} {s : Scan α} {value : α} {rest : List Char}
    (h : s.outcome = .ok (some (value, rest))) :
    ∃ after, s = .found value after ∧ after.ahead = rest := by
  cases s with
  | found value after => cases h; exact ⟨after, rfl, rfl⟩
  | absent after => cases h
  | failed e after => cases h

theorem Scan.outcome_eq_error {α : Type} {s : Scan α} {fault : SyntaxFault}
    (h : s.outcome = .error fault) : ∃ e after, s = .failed e after ∧ e.fault = fault := by
  cases s with
  | found value after => cases h
  | absent after => cases h
  | failed e after => cases h; exact ⟨e, after, rfl, rfl⟩

namespace Cursor
open Grammar

theorem single_of_hit {c : Cursor} {i : Item} {taken examined : Nat}
    (h : Token.any c.ahead = .hit i taken examined) :
    c.single = .found i ((c.look examined).advance taken) := by
  unfold single attempt
  rw [h]

theorem single_of_miss {c : Cursor} {examined : Nat} (h : Token.any c.ahead = .miss examined) :
    c.single = (c.look examined).fail .invalidForm := by
  unfold single attempt
  rw [h]

theorem single_of_broken {c : Cursor} {fault : SyntaxFault} {taken : Nat}
    (h : Token.any c.ahead = .broken fault taken) : c.single = (c.take taken).fail fault := by
  unfold single attempt
  rw [h]
  rfl

theorem single_ne_absent (c after : Cursor) : c.single ≠ .absent after := by
  intro h
  unfold single at h
  split at h
  · cases h
  · next hne => exact hne after h

/-- A comment, or a form other than a list, is read by the grammar where the reader finds it. -/
theorem read_of_single {c : Cursor} {inside : Bool} {ch : Char} {cs : List Char}
    (hc : c.ahead = ch :: cs) (hb : Token.isBlank ch = false) (ho : ch ≠ '(')
    (hi : inside = true → ch ≠ ')') :
    read inside c.ahead = match c.single with
      | .found i after => i.before (read inside after.ahead)
      | .absent _ => .error .invalidForm
      | .failed e _ => .error e.fault := by
  by_cases hsemi : ch = ';'
  · subst hsemi
    obtain ⟨text, width, ha, hd⟩ := Token.any_comment cs
    rw [← hc] at ha hd
    rw [single_of_hit ha, hc, read_comment, ← hd]
    rfl
  by_cases hquote : ch = '"'
  · subst hquote
    have ha := Token.any_text cs
    have hl := literal_eq_textBody cs
    rw [← hc] at ha
    rw [hc, read_text, hl]
    rcases hb : Token.textBody cs with _ | ⟨value, width⟩ <;> rw [hb] at ha
    · rw [single_of_broken ha]
      rfl
    · rw [single_of_hit ha]
      change before _ _ = before _ (read inside (c.ahead.drop (width + 1)))
      rw [hc]
      rfl
  -- Numbers and symbols are told apart on the run as a whole.
  by_cases hs : Token.isSymbolic ch = true
  · obtain ⟨run, rest, rfl, hrun, hrest⟩ := Token.run_cases Token.isSymbolic cs
    have hall : ∀ d ∈ ch :: run, Token.isSymbolic d = true := List.forall_mem_cons.2 ⟨hs, hrun⟩
    have ha := Token.any_run hall (List.cons_ne_nil ch run) hrest
    have hr := read_run hall (List.cons_ne_nil ch run) hrest inside
    rw [List.cons_append, ← hc] at ha hr
    rw [single_of_hit ha, hr]
    change before _ _ = before _ (read inside (c.ahead.drop _))
    rw [hc, ← List.cons_append, List.drop_left]
  · have hs' : Token.isSymbolic ch = false := by simpa using hs
    have hstop : Token.Stops Token.isSymbolic c.ahead := by
      rw [hc]
      intro d hd
      cases hd
      exact hs'
    have ha := Token.any_invalid hstop (by simpa [hc] using hsemi) (by simpa [hc] using hquote)
    rw [single_of_miss ha, hc, read_invalid hb hs' hsemi ho hquote hi]
    rfl

theorem ahead_skipBlanks (c : Cursor) : c.skipBlanks.ahead = c.ahead.dropWhile Token.isBlank :=
  Token.drop_blankCount c.ahead

theorem not_isBlank_of_skipBlanks {c : Cursor} {ch : Char} {cs : List Char}
    (h : c.skipBlanks.ahead = ch :: cs) : Token.isBlank ch = false := by
  rw [ahead_skipBlanks] at h
  exact Token.stops_dropWhile Token.isBlank c.ahead ch (by rw [h]; rfl)

/-- Inside a list, the grammar goes on with what the reader finds next. -/
theorem read_of_piece {c : Cursor} {p : Scan Piece} : c.piece = p →
    read true c.ahead = match p with
      | .found .opening after => read true ('(' :: after.ahead)
      | .found .closing after => .ok ([], after.ahead)
      | .found (.item i) after => i.before (read true after.ahead)
      | .absent _ => .error .unterminatedList
      | .failed e _ => .error e.fault := by
  intro hp
  rw [← read_dropWhile_isBlank, ← ahead_skipBlanks]
  unfold piece at hp
  dsimp only at hp
  split at hp
  · next h =>
    subst hp
    rw [h, read_nil]
    rfl
  · next cs h =>
    subst hp
    rw [h, read_close]
    simp [h]
  · next cs h =>
    subst hp
    rw [h]
    simp [h]
  · next ch cs hclose hopen h =>
    subst hp
    rw [read_of_single h (not_isBlank_of_skipBlanks h) hopen fun _ => hclose]
    cases hs : c.skipBlanks.single with
    | found i after => rfl
    | absent after => exact absurd hs (single_ne_absent _ _)
    | failed e after => rfl

/-- The lists that the reader keeps side by side are those that the grammar is inside of. -/
theorem readOpen_eq (outer : List (List Form)) (items : List Form) (c : Cursor) :
    (readOpen outer items c).outcome = (complete outer items c.ahead).map some := by
  -- The induction follows the reader from piece to piece; every piece changes what `complete` has
  -- to go on with in the same way.
  fun_induction readOpen outer items c with
  | case1 outer items c after hp ih =>
    rw [ih, complete_list, complete_congr (read_of_piece hp)]
  | case2 items c after hp =>
    rw [complete, read_of_piece hp]
    simp [Scan.outcome, Except.map, Form.ofReversed]
  | case3 items c after hp siblings outer ih =>
    rw [ih, complete, read_of_piece hp]
    simp [Except.bind, Form.ofReversed]
  | case4 outer items c f after hp ih =>
    rw [ih, complete_before (read_of_piece hp)]
  | case5 outer items c text after hp ih =>
    rw [ih, complete_congr (read_of_piece hp)]
  | case6 outer items c after hp =>
    rw [complete_error (read_of_piece hp)]
    rfl
  | case7 outer items c e after hp =>
    rw [complete_error (read_of_piece hp)]
    rfl

theorem outcome_list {c : Cursor} {cs : List Char} (h : c.ahead = '(' :: cs) :
    c.list.outcome = (read true cs).map fun (items, rest) => some (.list items, rest) := by
  have hl : c.list = readOpen [] [] (c.take 1) := by
    unfold list
    split
    · rfl
    · next hne => exact absurd h (hne cs)
  rw [hl, readOpen_eq, ahead_take, h, complete]
  change ((read true cs).map _).map _ = _
  cases read true cs <;> rfl

/-- The grammar reads first what the reader finds first, unless the text has ended. -/
theorem read_of_next {c : Cursor} {n : Scan Item} : c.next = n →
    read false c.ahead = match n with
      | .found i after => i.before (read false after.ahead)
      | .absent _ => .ok ([], [])
      | .failed e _ => .error e.fault := by
  intro hn
  rw [← read_dropWhile_isBlank, ← ahead_skipBlanks]
  unfold next item at hn
  dsimp only at hn
  split at hn
  · next h =>
    subst hn
    rw [h, read_nil]
    rfl
  · next ch cs h =>
    -- Blanks are skipped twice on the way to an item; the second time there are none.
    have hd := c.ahead_skipBlanks_skipBlanks
    rw [← hd]
    split at hn
    · next ds hl =>
      have ho := outcome_list hl
      rw [hl, read_list]
      subst hn
      rcases hr : read true ds with e | ⟨items, rest⟩
      · rw [hr] at ho
        obtain ⟨e, after, hs, rfl⟩ := Scan.outcome_eq_error ho
        rw [hs]
        rfl
      · rw [hr] at ho
        obtain ⟨after, hs, rfl⟩ := Scan.outcome_eq_some ho
        rw [hs]
        rfl
    · next hne =>
      have ho : ch ≠ '(' := by
        rintro rfl
        exact hne cs (hd.trans h)
      rw [read_of_single (hd.trans h) (not_isBlank_of_skipBlanks h) ho (by simp), hn]
      cases hs : n with
      | found i after => rfl
      | absent after => exact absurd (hn.trans hs) (single_ne_absent _ _)
      | failed e after => rfl

end Cursor

namespace Course

def outcome (c : Course) : Except SyntaxFault (List Form) :=
  match c.error? with
  | none => .ok c.forms
  | some e => .error e.fault

theorem outcome_cons_form (f : Form) (after : Cursor) (c : Course) :
    outcome { c with steps := (.form f, after) :: c.steps } = c.outcome.map (f :: ·) := by
  unfold outcome
  dsimp only
  split <;> rfl

theorem outcome_cons_comment (text : String) (after : Cursor) (c : Course) :
    outcome { c with steps := (.comment text, after) :: c.steps } = c.outcome := rfl

theorem outcome_ofCursor (c : Cursor) :
    (ofCursor c).outcome = (Grammar.read false c.ahead).map Prod.fst := by
  fun_induction ofCursor c with
  | case1 c i after h rest ih =>
    rw [Cursor.read_of_next h]
    cases i with
    | form f =>
      rw [outcome_cons_form, ih]
      dsimp only [Item.before, Grammar.before]
      cases Grammar.read false after.ahead <;> rfl
    | comment text =>
      rw [outcome_cons_comment, ih]
      rfl
  | case2 c after h =>
    rw [Cursor.read_of_next h]
    rfl
  | case3 c e after h =>
    rw [Cursor.read_of_next h]
    rfl

end Course

theorem mapError_readText (text : String) :
    (readText text).mapError SyntaxError.fault = (Grammar.read false text.toList).map Prod.fst := by
  have hc := Course.outcome_ofCursor (.start text.toList)
  have hr : (readText text).mapError SyntaxError.fault = (Course.ofText text.toList).outcome := by
    unfold readText Course.outcome
    dsimp only
    cases (Course.ofText text.toList).error? <;> rfl
  exact hr.trans hc

theorem readText_eq_ok {cs rest : List Char} {fs : List Form}
    (h : Grammar.read false cs = .ok (fs, rest)) : readText (String.ofList cs) = .ok fs := by
  have hm := mapError_readText (String.ofList cs)
  rw [String.toList_ofList, h] at hm
  cases hr : readText (String.ofList cs) with
  | error e => rw [hr] at hm; cases hm
  | ok gs => rw [hr] at hm; cases hm; rfl

/-- Reading a text, with all its looking ahead and starting over, comes to the forms or to the fault
that the grammar gives it. -/
theorem readText_eq_grammar (text : String) :
    (readText text).mapError SyntaxError.fault =
      (Grammar.forms false text.toList).map Prod.fst := by
  rw [mapError_readText, Grammar.read]
  cases Grammar.forms false text.toList <;> rfl

end StackLang
