import StackLang.Proofs.Reader.LineEnd

namespace StackLang

/-- The error of a text that has `front` before it. -/
def SyntaxError.behind (front : List Char) (e : SyntaxError) : SyntaxError :=
  { e with line := e.line + front.count '\n' }

namespace Cursor

def behind (front : List Char) (c : Cursor) : Cursor :=
  { c with
    position := c.position + front.length
    fetched := c.fetched + front.length
    line := c.line + front.count '\n' }

end Cursor

def Scan.behind {α : Type} (front : List Char) : Scan α → Scan α
  | .found value after => .found value (after.behind front)
  | .absent after => .absent (after.behind front)
  | .failed e after => .failed (e.behind front) (after.behind front)

theorem Scan.map_behind {α β : Type} (front : List Char) (s : Scan α) (g : α → β) :
    (s.behind front).map g = (s.map g).behind front := by
  cases s <;> rfl

namespace Cursor

variable (front : List Char) (c : Cursor)

theorem ahead_behind : (c.behind front).ahead = c.ahead := rfl

theorem look_behind (n : Nat) : (c.behind front).look n = (c.look n).behind front := by
  have hk : c.fetched + front.length - (c.position + front.length) = c.fetched - c.position := by
    omega
  have hf : max (c.fetched + front.length) (c.position + front.length + n) =
      max c.fetched (c.position + n) + front.length := by omega
  simp only [look, behind, hk, hf, mk.injEq, true_and]
  omega

theorem advance_behind (n : Nat) : (c.behind front).advance n = (c.advance n).behind front := by
  simp only [advance, behind, mk.injEq, true_and, and_true]
  omega

theorem take_behind (n : Nat) : (c.behind front).take n = (c.take n).behind front := by
  rw [take, look_behind, advance_behind, take]

theorem skipBlanks_behind : (c.behind front).skipBlanks = c.skipBlanks.behind front := by
  rw [skipBlanks, ahead_behind, look_behind, advance_behind, skipBlanks]

theorem single_behind : (c.behind front).single = c.single.behind front := by
  cases h : Token.any c.ahead with
  | hit i taken examined =>
    rw [single_of_hit h, @single_of_hit (c.behind front) _ _ _ h, look_behind, advance_behind]
    rfl
  | miss examined =>
    rw [single_of_miss h, @single_of_miss (c.behind front) _ h, look_behind]
    rfl
  | broken fault taken =>
    rw [single_of_broken h, @single_of_broken (c.behind front) _ _ h, take_behind]
    rfl

variable {c} in
theorem ahead_skipBlanks_behind {cs : List Char} (h : c.skipBlanks.ahead = cs) :
    (c.behind front).skipBlanks.ahead = cs := by
  rw [skipBlanks_behind, ahead_behind, h]

theorem piece_behind : (c.behind front).piece = c.piece.behind front := by
  cases h : c.skipBlanks.ahead with
  | nil =>
    rw [piece_of_nil h, piece_of_nil (ahead_skipBlanks_behind front h), skipBlanks_behind,
      take_behind]
    rfl
  | cons ch cs =>
    have hb := ahead_skipBlanks_behind front h
    by_cases hc : ch = ')'
    · subst hc
      rw [piece_of_close h, piece_of_close hb, skipBlanks_behind, take_behind]
      rfl
    by_cases ho : ch = '('
    · subst ho
      rw [piece_of_open h, piece_of_open hb, skipBlanks_behind, take_behind]
      rfl
    · rw [piece_of_other h hc ho, piece_of_other hb hc ho, skipBlanks_behind, single_behind,
        Scan.map_behind]

theorem readOpen_behind (outer : List (List Form)) (items : List Form) :
    readOpen outer items (c.behind front) = (readOpen outer items c).behind front := by
  have hpiece (d : Cursor) : (d.behind front).piece = d.piece.behind front := d.piece_behind front
  fun_induction readOpen outer items c with
  | case1 outer items c after hp ih => rw [readOpen, hpiece, hp]; exact ih
  | case2 items c after hp => rw [readOpen, hpiece, hp]; rfl
  | case3 items c after hp siblings outer ih => rw [readOpen, hpiece, hp]; exact ih
  | case4 outer items c f after hp ih => rw [readOpen, hpiece, hp]; exact ih
  | case5 outer items c comment after hp ih => rw [readOpen, hpiece, hp]; exact ih
  | case6 outer items c after hp => rw [readOpen, hpiece, hp]; rfl
  | case7 outer items c e after hp => rw [readOpen, hpiece, hp]; rfl

/-- What is next does not depend on what the reader has passed. -/
theorem next_behind : (c.behind front).next = c.next.behind front := by
  cases h : c.skipBlanks.ahead with
  | nil =>
    rw [next_of_nil h, next_of_nil (ahead_skipBlanks_behind front h), skipBlanks_behind,
      take_behind]
    rfl
  | cons ch cs =>
    have hb := ahead_skipBlanks_behind front h
    by_cases ho : ch = '('
    · subst ho
      rw [next_of_open h, next_of_open hb, skipBlanks_behind, take_behind, readOpen_behind,
        Scan.map_behind]
    · rw [next_of_other h ho, next_of_other hb ho, skipBlanks_behind, single_behind]

theorem next_skipBlanks (c : Cursor) : c.skipBlanks.next = c.next := by
  unfold next
  rw [skipBlanks_skipBlanks]

theorem readOpen_ne_absent (outer : List (List Form)) (items : List Form) (c after : Cursor) :
    readOpen outer items c ≠ .absent after := by
  fun_induction readOpen outer items c with
  | case1 _ _ _ _ _ ih => exact ih
  | case2 =>
    intro h
    cases h
  | case3 _ _ _ _ _ _ ih => exact ih
  | case4 _ _ _ _ _ _ ih => exact ih
  | case5 _ _ _ _ _ _ ih => exact ih
  | case6 =>
    intro h
    cases h
  | case7 =>
    intro h
    cases h

/-- There is always something next unless only blanks are left. -/
theorem skipBlanks_of_absent {c after : Cursor} (h : c.next = .absent after) :
    c.skipBlanks.ahead = [] := by
  cases ha : c.skipBlanks.ahead with
  | nil => rfl
  | cons ch cs =>
    by_cases ho : ch = '('
    · subst ho
      rw [next_of_open ha] at h
      cases hr : readOpen [] [] (c.skipBlanks.take 1) with
      | absent after' => exact absurd hr (readOpen_ne_absent _ _ _ _)
      | found => rw [hr] at h; cases h
      | failed => rw [hr] at h; cases h
    · rw [next_of_other ha ho] at h
      exact absurd h (single_ne_absent _ _)

section
variable {text : List Char} {c d : Cursor}

theorem Settled.skipBlanks_eq (h : c.Settled text) : c.skipBlanks =
    place text (c.position + Token.blankCount c.ahead)
      (c.position + Token.blankCount c.ahead + 1) := by
  have hf : c.skipBlanks.fetched = c.position + Token.blankCount c.ahead + 1 :=
    h.fetched_look_advance (Nat.succ_pos _)
  rw [← h.skipBlanks.on_eq, Cursor.on, hf]
  rfl

/-- Where only blanks lie between two places, the reader skips to the same place from both. -/
theorem Settled.skipBlanks_congr (hc : c.Settled text) (hd : d.Settled text) {gap : List Char}
    (hgap : ∀ ch ∈ gap, Token.isBlank ch = true) (hahead : c.ahead = gap ++ d.ahead)
    (hposition : d.position = c.position + gap.length) : c.skipBlanks = d.skipBlanks := by
  have hcount : Token.blankCount c.ahead = gap.length + Token.blankCount d.ahead := by
    rw [hahead, Token.blankCount, List.takeWhile_append_of_pos hgap, List.length_append,
      Token.blankCount]
  rw [hc.skipBlanks_eq, hd.skipBlanks_eq, hcount, hposition, ← Nat.add_assoc]

theorem Settled.behind (h : c.Settled text) (front : List Char) :
    (c.behind front).Settled (front ++ text) := by
  have hp := h.position_le
  have hf := h.fetched_le
  refine ⟨?_, Nat.add_le_add_right hp _, ?_⟩
  · have hdrop : (front ++ text).drop (c.position + front.length) = c.ahead := by
      rw [h.ahead_eq, Nat.add_comm, List.drop_append]
      simp
    have hline : 1 + ((front ++ text).take (c.fetched + front.length)).count '\n' =
        c.line + front.count '\n' := by
      rw [h.line_eq, Nat.add_comm c.fetched, List.take_length_add_append, List.count_append]
      omega
    simp only [Cursor.on, place, Cursor.behind, hdrop, hline]
  · simp only [Cursor.behind]
    omega

end

/-- Where a text has only blanks left, the next line is read as a text of its own. -/
theorem Settled.next_line {text : List Char} {c : Cursor} (h : c.Settled text)
    (hf : c.fetched ≤ text.length + 1) (ha : c.skipBlanks.ahead = []) (more : List Char) :
    (c.on (text ++ '\n' :: more)).next = (start more).next.behind (text ++ ['\n']) := by
  have hsplit : text ++ '\n' :: more = text ++ ['\n'] ++ more := List.append_cons ..
  have hp : c.position ≤ (text ++ ['\n']).length := by
    have hle := h.position_le
    rw [List.length_append, List.length_singleton]
    omega
  have hgap := h.skipBlanks_on_line_end ha
  rw [ahead_skipBlanks, List.dropWhile_eq_nil_iff] at hgap
  have hskip : (c.on (text ++ '\n' :: more)).skipBlanks =
      ((start more).behind (text ++ ['\n'])).skipBlanks := by
    refine (h.on _).skipBlanks_congr (hsplit ▸ (settled_start more).behind (text ++ ['\n'])) hgap
      ?_ ?_
    · change (text ++ '\n' :: more).drop c.position =
        (text ++ ['\n']).drop c.position ++ more
      rw [hsplit, List.drop_append_of_le_length hp]
    · change 0 + (text ++ ['\n']).length = c.position + ((text ++ ['\n']).drop c.position).length
      rw [List.length_drop]
      omega
  rw [← next_skipBlanks, hskip, next_skipBlanks, next_behind]

end Cursor

namespace Course

def behind (front : List Char) (course : Course) : Course :=
  ⟨course.steps.map (Prod.map id (Cursor.behind front)), course.error?.map (.behind front),
    course.final.behind front⟩

theorem ofCursor_congr {c d : Cursor} (h : c.next = d.next) : ofCursor c = ofCursor d := by
  rw [ofCursor.eq_def c, ofCursor.eq_def d, h]

theorem ofCursor_behind (front : List Char) (c : Cursor) :
    ofCursor (c.behind front) = (ofCursor c).behind front := by
  have hnext (d : Cursor) : (d.behind front).next = d.next.behind front := d.next_behind front
  fun_induction ofCursor c with
  | case1 c i after hn rest ih =>
    have hb := hnext c
    rw [hn] at hb
    rw [ofCursor_of_found hb, ih]
    rfl
  | case2 c after hn =>
    have hb := hnext c
    rw [hn] at hb
    rw [ofCursor_of_absent hb]
    rfl
  | case3 c e after hn =>
    have hb := hnext c
    rw [hn] at hb
    rw [ofCursor_of_failed hb]
    rfl

/-- A text without faults and the lines below it are read one after the other. -/
theorem ofCursor_line {text : List Char} {c : Cursor} (h : c.Settled text)
    (hf : c.fetched ≤ text.length + 1) (he : (ofCursor c).error? = none) (more : List Char) :
    ofCursor (c.on (text ++ '\n' :: more)) =
      let below := (ofText more).behind (text ++ ['\n'])
      { below with
        steps := (ofCursor c).steps.map (Prod.map id (Cursor.on (text ++ '\n' :: more))) ++
          below.steps } := by
  -- Items are found again whatever comes in the next line; when there is none any more, only blanks
  -- are left, and the next line takes over.
  fun_induction ofCursor c with
  | case1 c i after hn rest ih =>
    have hs := h.next
    have hc := h.next_continued more
    rw [hn] at hs hc
    cases hs with
    | found hs hf =>
      cases hc with
      | found hc =>
        rw [ofCursor_of_found hc, ih hs hf he]
        rfl
  | case2 c after hn =>
    have hline := h.next_line hf (Cursor.skipBlanks_of_absent hn) more
    rw [← Cursor.next_behind] at hline
    rw [ofCursor_congr hline, ofCursor_behind]
    rfl
  | case3 c e after hn => cases he

theorem items_behind (front : List Char) (course : Course) :
    (course.behind front).items = course.items := by
  rw [items, behind, List.map_map]
  rfl

theorem forms_line {text : List Char} (he : (ofText text).error? = none) (more : List Char) :
    (ofText (text ++ '\n' :: more)).forms = (ofText text).forms ++ (ofText more).forms := by
  have hcourse : ofText (text ++ '\n' :: more) = _ :=
    ofCursor_line (Cursor.settled_start text) (Nat.zero_le _) he more
  have hitems : (ofText (text ++ '\n' :: more)).items =
      (ofText text).items ++ ((ofText more).behind (text ++ ['\n'])).items := by
    rw [items, hcourse, List.map_append, List.map_map]
    rfl
  rw [forms, hitems, items_behind, List.filterMap_append, forms, forms]

theorem error?_line {text : List Char} (he : (ofText text).error? = none) (more : List Char) :
    (ofText (text ++ '\n' :: more)).error? =
      (ofText more).error?.map (.behind (text ++ ['\n'])) := by
  have hcourse : ofText (text ++ '\n' :: more) = _ :=
    ofCursor_line (Cursor.settled_start text) (Nat.zero_le _) he more
  rw [hcourse]
  rfl

end Course

theorem readText_eq_ok_iff {text : String} {forms : List Form} : readText text = .ok forms ↔
    (Course.ofText text.toList).error? = none ∧ (Course.ofText text.toList).forms = forms := by
  unfold readText
  dsimp only
  cases (Course.ofText text.toList).error? <;> simp

theorem readText_eq_error_iff {text : String} {e : SyntaxError} :
    readText text = .error e ↔ (Course.ofText text.toList).error? = some e := by
  unfold readText
  dsimp only
  cases (Course.ofText text.toList).error? <;> simp

/-- Reading respects lines. Where a text is read without fault, whatever follows from the next line
on adds the forms that it has by itself, or has the fault that it has by itself, further down by the
lines above it. -/
theorem readText_append_line {text : String} {forms : List Form} (h : readText text = .ok forms)
    (more : String) :
    (∀ below, readText more = .ok below →
      readText (text ++ "\n" ++ more) = .ok (forms ++ below)) ∧
    (∀ fault line, readText more = .error ⟨fault, line⟩ →
      readText (text ++ "\n" ++ more) =
        .error ⟨fault, line + 1 + text.toList.count '\n'⟩) := by
  have hlines : (text ++ "\n" ++ more).toList = text.toList ++ '\n' :: more.toList := by simp
  obtain ⟨he, rfl⟩ := readText_eq_ok_iff.1 h
  constructor
  · intro below hmore
    obtain ⟨hnone, rfl⟩ := readText_eq_ok_iff.1 hmore
    refine readText_eq_ok_iff.2 ?_
    rw [hlines, Course.error?_line he, hnone, Course.forms_line he]
    exact ⟨rfl, rfl⟩
  · intro fault line hmore
    refine readText_eq_error_iff.2 ?_
    rw [hlines, Course.error?_line he, readText_eq_error_iff.1 hmore, Option.map_some,
      SyntaxError.behind, List.count_append, List.count_singleton_self, Nat.add_assoc,
      Nat.add_comm 1]

/-- A comment that only the end of the text ends, and a text literal without an end below it. -/
theorem readText_append_line_comment :
    readText ("7\n;(" ++ "\n" ++ "x") = .ok [.int 7, .symbol "x"] ∧
      readText ("7\n;(" ++ "\n" ++ "\n\"") = .error ⟨.unterminatedText, 4⟩ := by
  have hseven : (Cursor.start "7\n;(".toList).next =
      .found (.form (.int 7)) ⟨['\n', ';', '('], 1, 2, 2⟩ := rfl
  have hcomment : Cursor.next ⟨['\n', ';', '('], 1, 2, 2⟩ =
      .found (.comment "(") ⟨[], 5, 5, 2⟩ := rfl
  have hend : Cursor.next ⟨[], 5, 5, 2⟩ = .absent ⟨[], 6, 6, 2⟩ := rfl
  have hsymbol : (Cursor.start "x".toList).next = .found (.form (.symbol "x")) ⟨[], 1, 2, 1⟩ := rfl
  have hquote : (Cursor.start "\n\"".toList).next =
      .failed ⟨.unterminatedText, 2⟩ ⟨[], 3, 3, 2⟩ := rfl
  have habove : readText "7\n;(" = .ok [.int 7] := by
    rw [readText_eq_ok_iff, Course.ofText, Course.ofCursor_of_found hseven,
      Course.ofCursor_of_found hcomment, Course.ofCursor_of_absent hend]
    exact ⟨rfl, rfl⟩
  have hbelow : readText "x" = .ok [.symbol "x"] := by
    rw [readText_eq_ok_iff, Course.ofText, Course.ofCursor_of_found hsymbol,
      Course.ofCursor_of_absent rfl]
    exact ⟨rfl, rfl⟩
  have hfault : readText "\n\"" = .error ⟨.unterminatedText, 2⟩ := by
    rw [readText_eq_error_iff, Course.ofText, Course.ofCursor_of_failed hquote]
  exact ⟨(readText_append_line habove "x").1 _ hbelow,
    (readText_append_line habove "\n\"").2 _ _ hfault⟩

end StackLang
