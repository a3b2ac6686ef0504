import StackLang.Proofs.Reader.Fetching
import StackLang.Proofs.Reader.Lines

namespace StackLang

namespace Token

/-- Whether no blank, comment or form begins with a character. -/
def startsNothing (c : Char) : Bool :=
  !(isBlank c || isSymbolic c || ['(', '"', ';'].contains c)

theorem startsNothing_iff {c : Char} : startsNothing c = true ↔
    isBlank c = false ∧ isSymbolic c = false ∧ c ≠ '(' ∧ c ≠ '"' ∧ c ≠ ';' := by
  simp [startsNothing, and_assoc]

theorem any_eq_miss {cs : List Char} {examined : Nat} (h : any cs = .miss examined) :
    examined = 1 ∧ Stops isSymbolic cs ∧ cs.head? ≠ some ';' ∧ cs.head? ≠ some '"' := by
  cases front cs with
  | comment cs => cases h
  | text cs =>
    rw [any_text] at h
    rcases hb : textBody cs with _ | ⟨value, width⟩ <;> rw [hb] at h <;> cases h
  | run hrun hne hrest =>
    rw [any_run hrun hne hrest] at h
    cases h
  | other hs hc hq =>
    rw [any_invalid hs hc hq] at h
    cases h
    exact ⟨rfl, hs, hc, hq⟩

end Token

theorem Scan.map_eq_failed {α β : Type} {g : α → β} {s : Scan α} {e : SyntaxError}
    {after : Cursor} (h : s.map g = .failed e after) : s = .failed e after := by
  cases s with
  | found => cases h
  | absent => cases h
  | failed => cases h; rfl

namespace Cursor

/-- The reader is in front of a character that nothing begins with, and has looked at it. -/
structure Stuck (c : Cursor) : Prop where
  position_lt : c.position < c.fetched
  ahead_eq : ∃ ch cs, c.ahead = ch :: cs ∧ Token.startsNothing ch = true

section
variable {c after : Cursor} {line : Nat}

theorem stuck_of_single {ch : Char} {cs : List Char} (hc : c.ahead = ch :: cs)
    (hb : Token.isBlank ch = false) (ho : ch ≠ '(')
    (h : c.single = .failed ⟨.invalidForm, line⟩ after) : after.Stuck := by
  have ht := Token.any_tight c.ahead
  cases ha : Token.any c.ahead with
  | hit i taken examined => rw [single_of_hit ha] at h; cases h
  | miss examined =>
    obtain ⟨rfl, hs, hsemi, hquote⟩ := Token.any_eq_miss ha
    rw [hc] at hs hsemi hquote
    rw [single_of_miss ha] at h
    cases h
    have hn : Token.startsNothing ch = true := Token.startsNothing_iff.2
      ⟨hb, hs ch rfl, ho, by simpa using hquote, by simpa using hsemi⟩
    exact ⟨Nat.le_max_right _ _, ch, cs, hc, hn⟩
  | broken fault taken =>
    rw [ha] at ht
    rw [single_of_broken ha, ht.1] at h
    cases h

theorem stuck_of_piece (h : c.piece = .failed ⟨.invalidForm, line⟩ after) : after.Stuck := by
  cases ha : c.skipBlanks.ahead with
  | nil => rw [piece_of_nil ha] at h; cases h
  | cons ch cs =>
    by_cases hc : ch = ')'
    · subst hc
      rw [piece_of_close ha] at h
      cases h
    by_cases ho : ch = '('
    · subst ho
      rw [piece_of_open ha] at h
      cases h
    · rw [piece_of_other ha hc ho] at h
      exact stuck_of_single ha (not_isBlank_of_skipBlanks ha) ho (Scan.map_eq_failed h)

/-- However many lists are open, the reader stops in front of the character at fault. -/
theorem stuck_of_readOpen {outer : List (List Form)} {items : List Form}
    (h : readOpen outer items c = .failed ⟨.invalidForm, line⟩ after) : after.Stuck := by
  fun_induction readOpen outer items c with
  | case1 outer items c _ hp ih => exact ih h
  | case2 => cases h
  | case3 items c _ hp siblings outer ih => exact ih h
  | case4 outer items c f _ hp ih => exact ih h
  | case5 outer items c comment _ hp ih => exact ih h
  | case6 => cases h
  | case7 outer items c e _ hp =>
    cases h
    exact stuck_of_piece hp

theorem stuck_of_next (h : c.next = .failed ⟨.invalidForm, line⟩ after) : after.Stuck := by
  cases ha : c.skipBlanks.ahead with
  | nil => rw [next_of_nil ha] at h; cases h
  | cons ch cs =>
    by_cases ho : ch = '('
    · subst ho
      rw [next_of_open ha] at h
      exact stuck_of_readOpen (Scan.map_eq_failed h)
    · rw [next_of_other ha ho] at h
      exact stuck_of_single ha (not_isBlank_of_skipBlanks ha) ho h

theorem Stuck.split {text : List Char} (h : c.Stuck) (hs : c.Settled text) :
    ∃ front ch rest, text = front ++ ch :: rest ∧ Token.startsNothing ch = true ∧
      c.position = front.length ∧ c.fetched = front.length + 1 ∧
      c.line = 1 + front.count '\n' := by
  obtain ⟨hp, ch, cs, ha, hn⟩ := h
  have hlt := hs.position_lt (by rw [ha]; exact List.cons_ne_nil ch cs)
  have hfetched : c.fetched = c.position + 1 := Nat.le_antisymm hs.fetched_le hp
  have hlength : (text.take c.position).length = c.position :=
    List.length_take_of_le (Nat.le_of_lt hlt)
  have hne : ch ≠ '\n' := by
    rintro rfl
    cases hn
  have htext : text = text.take c.position ++ ch :: cs := by
    rw [← ha, hs.ahead_eq, List.take_append_drop]
  have hline : c.line = 1 + (text.take c.position).count '\n' := by
    rw [hs.line_eq, hfetched, List.take_add, ← hs.ahead_eq, ha, List.count_append]
    simp [hne]
  refine ⟨text.take c.position, ch, cs, htext, hn, hlength.symm, ?_, hline⟩
  rw [hlength, hfetched]

/-- A reader that is stuck stays where it is and meets the same fault again. -/
theorem Stuck.next (h : c.Stuck) : c.next = .failed ⟨.invalidForm, c.line⟩ c := by
  obtain ⟨hp, ch, cs, ha, hn⟩ := h
  obtain ⟨hb, hs, ho, hq, hc⟩ := Token.startsNothing_iff.1 hn
  have hlook : c.look 1 = c := look_eq_self hp
  have hskip : c.skipBlanks = c := by
    refine skipBlanks_eq_self ?_ hp
    rw [ha, Token.blankCount, List.takeWhile_cons_of_neg (by simp [hb])]
    rfl
  have hany : Token.any c.ahead = .miss 1 := by
    rw [ha]
    refine Token.any_invalid ?_ (by simpa using hc) (by simpa using hq)
    intro d hd
    cases hd
    exact hs
  rw [next_of_other (by rw [hskip, ha]) ho, hskip, single_of_miss hany, hlook, fail]

end

section
variable {text : List Char} {c : Cursor}

theorem Settled.next_of_length_lt (h : c.Settled text) (hf : text.length < c.fetched) :
    ∃ later, c.next = .absent later ∧ later.Settled text ∧ text.length < later.fetched := by
  have hn : c.next = .absent (c.skipBlanks.take 1) :=
    next_of_nil (by rw [ahead_skipBlanks, h.ahead_eq_nil hf]; rfl)
  have hs := h.next
  rw [hn] at hs
  cases hs with
  | absent hs hl => exact ⟨_, hn, hs, hl⟩

theorem Settled.call_of_length_lt (h : c.Settled text) (hf : text.length < c.fetched) (n : Nat) :
    ∃ later, c.call n = .absent later ∧ later.Settled text ∧ text.length < later.fetched := by
  induction n generalizing c with
  | zero => exact h.next_of_length_lt hf
  | succ n ih =>
    obtain ⟨later, hn, hs, hl⟩ := h.next_of_length_lt hf
    rw [Cursor.call, hn]
    exact ih hs hl

end

theorem call_of_next_eq {c : Cursor} {e : SyntaxError} (h : c.next = .failed e c) (n : Nat) :
    c.call n = .failed e c := by
  induction n with
  | zero => exact h
  | succ n ih =>
    rw [call, h]
    exact ih

theorem call_add (c : Cursor) (n k : Nat) : c.call (n + 1 + k) = (c.call n).after.call k := by
  induction n generalizing c with
  | zero =>
    rw [Nat.zero_add, Nat.add_comm]
    rfl
  | succ n ih =>
    rw [Nat.add_right_comm _ 1 k]
    exact ih c.next.after

theorem Settled.of_call_failed {text : List Char} {c : Cursor} (h : c.Settled text) {n : Nat}
    {e : SyntaxError} {after : Cursor} (hc : c.call n = .failed e after) :
    ∃ d : Cursor, d.Settled text ∧ d.next = .failed e after := by
  induction n generalizing c with
  | zero => exact ⟨c, h, hc⟩
  | succ n ih => exact ih h.next.after hc

/-- No form is found after a fault. A character that nothing begins with is the same fault again,
however often the reader is called; and behind the end of a text there is only its end. -/
theorem call_after_fault (text : List Char) {n : Nat} {e : SyntaxError} {after : Cursor}
    (h : (start text).call n = .failed e after) (k : Nat) :
    (e.fault = .invalidForm → (start text).call (n + 1 + k) = .failed e after) ∧
    (e.fault ≠ .invalidForm →
      ∃ later, (start text).call (n + 1 + k) = .absent later ∧ later.line = after.line) := by
  have hs := (settled_start text).call n
  rw [call_add, h]
  change (_ → after.call k = _) ∧ (_ → ∃ later, after.call k = _ ∧ _)
  rw [h] at hs
  cases hs with
  | invalid hl hs hf =>
    subst hl
    obtain ⟨d, hd, hn⟩ := (settled_start text).of_call_failed h
    refine ⟨fun _ => call_of_next_eq (stuck_of_next hn).next k, fun hne => absurd rfl hne⟩
  | unterminated hn hl hs hf =>
    refine ⟨fun he => absurd he hn, fun _ => ?_⟩
    obtain ⟨later, hc, hlater, hlf⟩ := hs.call_of_length_lt hf k
    refine ⟨later, hc, ?_⟩
    rw [hlater.line_of_length_lt hlf, hs.line_of_length_lt hf]

/-- An open list with a character in it that nothing begins with, and one with an open literal. -/
theorem call_after_fault_open_list :
    (start ['7', ' ', '(', '\n', ']']).call 4 = .failed ⟨.invalidForm, 2⟩ ⟨[']'], 4, 5, 2⟩ ∧
      ∃ later, (start ['(', '\n', '"']).call 3 = .absent later ∧ later.line = 2 := by
  have hnumber : (start ['7', ' ', '(', '\n', ']']).next =
      .found (.form (.int 7)) ⟨[' ', '(', '\n', ']'], 1, 2, 1⟩ := rfl
  have hinvalid : (start ['7', ' ', '(', '\n', ']']).call 1 =
      .failed ⟨.invalidForm, 2⟩ ⟨[']'], 4, 5, 2⟩ := by
    rw [call, hnumber]
    change Cursor.next _ = _
    rw [next_of_open rfl, readOpen]
    rfl
  have hliteral : (start ['(', '\n', '"']).call 0 =
      .failed ⟨.unterminatedText, 2⟩ ⟨[], 4, 4, 2⟩ := by
    rw [call, next_of_open rfl, readOpen]
    rfl
  exact ⟨(call_after_fault _ hinvalid 2).1 rfl, (call_after_fault _ hliteral 2).2 (by decide)⟩

end Cursor

namespace Course

theorem fetched_le_final (c : Cursor) : c.fetched ≤ (ofCursor c).final.fetched := by
  have hle {d : Cursor} {s : Scan Item} (hs : d.next = s) : d.fetched ≤ s.after.fetched :=
    hs ▸ d.fetched_le_next
  fun_induction ofCursor c with
  | case1 c i after hn rest ih => exact Nat.le_trans (hle hn) ih
  | case2 c after hn => exact hle hn
  | case3 c e after hn => exact hle hn

section
variable {text other : List Char} {c : Cursor} {n : Nat}

theorem next_of_error (h : c.Settled text) {e : SyntaxError} (he : (ofCursor c).error? = some e) :
    ∃ d : Cursor, d.Settled text ∧ d.next = .failed e (ofCursor c).final := by
  fun_induction ofCursor c with
  | case1 c i after hn rest ih => exact ih (h.of_next hn) he
  | case2 c after hn => cases he
  | case3 c _ after hn =>
    cases he
    exact ⟨c, h, hn⟩

/-- Texts that agree on all that is fetched of the one are read alike. -/
theorem ofCursor_of_agree (h : c.Settled text) (hagree : text.take n = other.take n)
    (hn : (ofCursor c).final.fetched ≤ n) :
    (ofCursor (c.on other)).error? = (ofCursor c).error? ∧
      (ofCursor (c.on other)).final = (ofCursor c).final.on other := by
  fun_induction ofCursor c with
  | case1 c i after hnext rest ih =>
    have hon := h.next_of_agree hagree
    rw [hnext] at hon
    rw [ofCursor_of_found (hon (Nat.le_trans (fetched_le_final after) hn))]
    exact ih (h.of_next hnext) hn
  | case2 c after hnext =>
    have hon := h.next_of_agree hagree
    rw [hnext] at hon
    rw [ofCursor_of_absent (hon hn)]
    exact ⟨rfl, rfl⟩
  | case3 c e after hnext =>
    have hon := h.next_of_agree hagree
    rw [hnext] at hon
    rw [ofCursor_of_failed (hon hn)]
    exact ⟨rfl, rfl⟩

end

theorem ofText_of_agree {text other : List Char}
    (hagree : text.take (ofText text).final.fetched = other.take (ofText text).final.fetched) :
    (ofText other).error? = (ofText text).error? ∧
      (ofText other).final.position = (ofText text).final.position := by
  obtain ⟨he, hf⟩ := ofCursor_of_agree (Cursor.settled_start text) hagree (Nat.le_refl _)
  have hp := congrArg Cursor.position hf
  exact ⟨he, hp⟩

/-- Where a text has an invalid form, the reader has fetched the character at fault and none behind
it. -/
theorem final_of_invalid {text : List Char} {line : Nat}
    (h : (ofText text).error? = some ⟨.invalidForm, line⟩) :
    ∃ front c rest, text = front ++ c :: rest ∧ Token.startsNothing c = true ∧
      (ofText text).final.position = front.length ∧
      (ofText text).final.fetched = front.length + 1 ∧ line = 1 + front.count '\n' := by
  obtain ⟨d, hd, hn⟩ := next_of_error (Cursor.settled_start text) h
  have hs := hd.next
  rw [hn] at hs
  cases hs with
  | unterminated hne => exact absurd rfl hne
  | invalid hl hs hf =>
    rw [hl]
    exact (Cursor.stuck_of_next hn).split hs

theorem invalid_take_iff {text : List Char} {line : Nat}
    (h : (ofText text).error? = some ⟨.invalidForm, line⟩) (n : Nat) :
    (∃ line', (ofText (text.take n)).error? = some ⟨.invalidForm, line'⟩) ↔
      (ofText text).final.position < n := by
  obtain ⟨front, c, rest, htext, -, hp, hf, -⟩ := final_of_invalid h
  constructor
  · rintro ⟨line', hn⟩
    obtain ⟨front', c', rest', htake, -, hp', hf', -⟩ := final_of_invalid hn
    -- The fault of the shorter text is one of the longer text at the same place.
    have hlength : front'.length + 1 ≤ n := by
      have hl := congrArg List.length htake
      simp only [List.length_take, List.length_append, List.length_cons] at hl
      omega
    have hagree : (text.take n).take (ofText (text.take n)).final.fetched =
        text.take (ofText (text.take n)).final.fetched := by
      rw [List.take_take, hf', Nat.min_eq_left hlength]
    have hsame := (ofText_of_agree hagree).2
    omega
  · intro hn
    have hagree : text.take (ofText text).final.fetched =
        (text.take n).take (ofText text).final.fetched := by
      rw [List.take_take, hf, Nat.min_eq_left (by omega)]
    exact ⟨line, (ofText_of_agree hagree).1.trans h⟩

end Course

/-- Faults are on the lines that they tell. An invalid form is on the line of the first character
that can start none: the reader stands in front of it, and the text is at fault as soon as it
includes that character. A list or a literal without an end is noticed on the last line. -/
theorem readText_fault_line {text : String} {fault : SyntaxFault} {line : Nat}
    (h : readText text = .error ⟨fault, line⟩) :
    (fault = .invalidForm → ∃ front c rest, text.toList = front ++ c :: rest ∧
      Token.startsNothing c = true ∧
      (Course.ofText text.toList).final.position = front.length ∧
      (∀ n, (∃ line', readText (String.ofList (text.toList.take n)) =
        .error ⟨.invalidForm, line'⟩) ↔ front.length < n) ∧
      line = 1 + front.count '\n') ∧
    (fault ≠ .invalidForm → line = 1 + text.toList.count '\n') := by
  rw [readText_eq_error_iff] at h
  constructor
  · rintro rfl
    obtain ⟨front, c, rest, htext, hc, hp, -, hline⟩ := Course.final_of_invalid h
    refine ⟨front, c, rest, htext, hc, hp, fun n => ?_, hline⟩
    simp only [readText_eq_error_iff, String.toList_ofList]
    rw [Course.invalid_take_iff h, hp]
  · intro hne
    obtain ⟨d, hd, hn⟩ := Course.next_of_error (Cursor.settled_start text.toList) h
    have hs := hd.next
    rw [hn] at hs
    exact hs.line_of_unterminated hne

/-- A fault in a list, behind a form and a comment, and a list that is left open. -/
theorem readText_fault_line_list :
    (readText "x ;(\n(]" = .error ⟨.invalidForm, 2⟩ ∧
      ∃ front c rest, "x ;(\n(]".toList = front ++ c :: rest ∧ front.length = 6 ∧
        2 = 1 + front.count '\n') ∧
      readText "(\n" = .error ⟨.unterminatedList, 2⟩ ∧ 2 = 1 + "(\n".toList.count '\n' := by
  have hsymbol : (Cursor.start "x ;(\n(]".toList).next =
      .found (.form (.symbol "x")) ⟨[' ', ';', '(', '\n', '(', ']'], 1, 2, 1⟩ := rfl
  have hcomment : Cursor.next ⟨[' ', ';', '(', '\n', '(', ']'], 1, 2, 1⟩ =
      .found (.comment "(") ⟨['(', ']'], 5, 5, 2⟩ := rfl
  have hlist : Cursor.next ⟨['(', ']'], 5, 5, 2⟩ =
      .failed ⟨.invalidForm, 2⟩ ⟨[']'], 6, 7, 2⟩ := by
    rw [Cursor.next_of_open rfl, Cursor.readOpen]
    rfl
  have hopen : (Cursor.start "(\n".toList).next =
      .failed ⟨.unterminatedList, 2⟩ ⟨[], 3, 3, 2⟩ := by
    rw [Cursor.next_of_open rfl, Cursor.readOpen]
    rfl
  have hcourse : Course.ofText "x ;(\n(]".toList =
      ⟨[(.form (.symbol "x"), ⟨[' ', ';', '(', '\n', '(', ']'], 1, 2, 1⟩),
        (.comment "(", ⟨['(', ']'], 5, 5, 2⟩)], some ⟨.invalidForm, 2⟩, ⟨[']'], 6, 7, 2⟩⟩ := by
    rw [Course.ofText, Course.ofCursor_of_found hsymbol, Course.ofCursor_of_found hcomment,
      Course.ofCursor_of_failed hlist]
  have hinvalid : readText "x ;(\n(]" = .error ⟨.invalidForm, 2⟩ := by
    rw [readText_eq_error_iff, hcourse]
  have hunterminated : readText "(\n" = .error ⟨.unterminatedList, 2⟩ := by
    rw [readText_eq_error_iff, Course.ofText, Course.ofCursor_of_failed hopen]
  obtain ⟨front, c, rest, htext, -, hp, -, hline⟩ := (readText_fault_line hinvalid).1 rfl
  rw [hcourse] at hp
  exact ⟨⟨hinvalid, front, c, rest, htext, hp.symm, hline⟩, hunterminated,
    (readText_fault_line hunterminated).2 (by decide)⟩

end StackLang
