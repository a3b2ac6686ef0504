import StackLang.Proofs.Reader.Acceptance

namespace StackLang

namespace Token

inductive Front : List Char → Prop
  | comment (cs : List Char) : Front (';' :: cs)
  | text (cs : List Char) : Front ('"' :: cs)
  | run {run rest : List Char} (hrun : ∀ c ∈ run, isSymbolic c = true) (hne : run ≠ [])
      (hrest : Stops isSymbolic rest) : Front (run ++ rest)
  | other {cs : List Char} (hs : Stops isSymbolic cs) (hc : cs.head? ≠ some ';')
      (hq : cs.head? ≠ some '"') : Front cs

theorem front (cs : List Char) : Front cs := by
  obtain ⟨run, rest, rfl, hrun, hrest⟩ := run_cases isSymbolic cs
  by_cases hne : run = []
  · subst hne
    by_cases hc : rest.head? = some ';'
    · obtain ⟨cs, rfl⟩ := List.head?_eq_some_iff.1 hc
      exact .comment cs
    by_cases hq : rest.head? = some '"'
    · obtain ⟨cs, rfl⟩ := List.head?_eq_some_iff.1 hq
      exact .text cs
    · exact .other hrest hc hq
  · exact .run hrun hne hrest

theorem textBody_width_le {cs value : List Char} {width : Nat}
    (h : textBody cs = some (value, width)) : width ≤ cs.length := by
  fun_induction textBody cs generalizing value width with
  | case1 => cases h
  | case2 cs => cases h; simp
  | case3 => cases h
  | case4 c cs ih =>
    obtain ⟨⟨v, w⟩, hv, hw⟩ := Option.map_eq_some_iff.1 h
    cases hw
    exact Nat.add_le_add_right (ih hv) 2
  | case5 c cs _ _ _ ih =>
    obtain ⟨⟨v, w⟩, hv, hw⟩ := Option.map_eq_some_iff.1 h
    cases hw
    exact Nat.succ_le_succ (ih hv)

end Token

/-- What is recognized has been looked at up to its end or to the character behind it, and the text
at most up to its end. A miss is noticed at once, a literal without an end where the text ends. -/
def Attempt.Tight {α : Type} (length : Nat) : Attempt α → Prop
  | .hit _ taken examined => taken ≤ examined ∧ examined ≤ taken + 1 ∧ examined ≤ length + 1
  | .miss examined => examined = 1
  | .broken fault taken => fault = .unterminatedText ∧ taken = length + 1

theorem Token.any_tight (cs : List Char) : (any cs).Tight cs.length := by
  cases front cs with
  | comment cs =>
    have hl : (cs.takeWhile (· ≠ '\n')).length ≤ cs.length := (List.takeWhile_sublist _).length_le
    change (Attempt.hit _ _ _).Tight _
    simp only [Attempt.Tight, List.length_cons]
    omega
  | text cs =>
    rw [any_text]
    rcases hb : textBody cs with _ | ⟨value, width⟩
    · exact ⟨rfl, rfl⟩
    · have hw := textBody_width_le hb
      simp only [Attempt.Tight, List.length_cons]
      omega
  | run hrun hne hrest =>
    rw [any_run hrun hne hrest]
    simp only [Attempt.Tight, List.length_append]
    omega
  | other hs hc hq => exact any_invalid hs hc hq ▸ rfl

namespace Cursor

def place (text : List Char) (position fetched : Nat) : Cursor :=
  ⟨text.drop position, position, fetched, 1 + (text.take fetched).count '\n'⟩

/-- The same place in a text of its own. -/
def on (text : List Char) (c : Cursor) : Cursor := place text c.position c.fetched

theorem look_on (text : List Char) {c : Cursor} (h : c.position ≤ c.fetched) (n : Nat) :
    (c.on text).look n = (c.look n).on text := by
  have hm : max c.fetched (c.position + n) = c.fetched + (n - (c.fetched - c.position)) := by omega
  have hd : c.position + (c.fetched - c.position) = c.fetched := by omega
  simp only [on, place, look, mk.injEq, true_and, List.drop_drop, hd]
  rw [hm, List.take_add, List.count_append, Nat.add_assoc]

theorem advance_on (text : List Char) (c : Cursor) (n : Nat) :
    (c.on text).advance n = (c.advance n).on text := by
  simp only [on, place, advance, List.drop_drop]

theorem take_on (text : List Char) {c : Cursor} (h : c.position ≤ c.fetched) (n : Nat) :
    (c.on text).take n = (c.take n).on text := by
  rw [take, look_on text h, advance_on, take]

/-- The reader stands in a text and has fetched at most the next character of it. -/
structure Settled (text : List Char) (c : Cursor) : Prop where
  on_eq : c.on text = c
  position_le : c.position ≤ c.fetched
  fetched_le : c.fetched ≤ c.position + 1

theorem settled_start (text : List Char) : (start text).Settled text :=
  ⟨rfl, Nat.le_refl 0, Nat.zero_le 1⟩

namespace Settled

variable {text : List Char} {c : Cursor}

theorem on (h : c.Settled text) (other : List Char) : (c.on other).Settled other :=
  ⟨rfl, h.position_le, h.fetched_le⟩

theorem ahead_eq (h : c.Settled text) : c.ahead = text.drop c.position :=
  congrArg Cursor.ahead h.on_eq.symm

theorem line_eq (h : c.Settled text) : c.line = 1 + (text.take c.fetched).count '\n' :=
  congrArg Cursor.line h.on_eq.symm

theorem length_ahead (h : c.Settled text) : c.ahead.length = text.length - c.position := by
  rw [h.ahead_eq, List.length_drop]

theorem position_lt (h : c.Settled text) (ha : c.ahead ≠ []) : c.position < text.length := by
  have hl := List.length_pos_iff.2 ha
  rw [h.length_ahead] at hl
  omega

theorem length_le (h : c.Settled text) (ha : c.ahead = []) : text.length ≤ c.position := by
  have hl := h.length_ahead
  rw [ha, List.length_nil] at hl
  omega

theorem ahead_eq_nil (h : c.Settled text) (hf : text.length < c.fetched) : c.ahead = [] := by
  have hle := h.fetched_le
  rw [h.ahead_eq, List.drop_eq_nil_iff]
  omega

theorem line_of_length_lt (h : c.Settled text) (hf : text.length < c.fetched) :
    c.line = 1 + text.count '\n' := by
  rw [h.line_eq, List.take_of_length_le (Nat.le_of_lt hf)]

/-- Taking as much as has been looked at, or one character less. -/
theorem look_advance (h : c.Settled text) {taken examined : Nat} (hp : 0 < examined)
    (ht : taken ≤ examined) (he : examined ≤ taken + 1) :
    ((c.look examined).advance taken).Settled text := by
  have hle := h.position_le
  have hf := h.fetched_le
  refine ⟨?_, ?_, ?_⟩
  · rw [← advance_on, ← look_on text hle, h.on_eq]
  · simp only [Cursor.advance, Cursor.look]
    omega
  · simp only [Cursor.advance, Cursor.look]
    omega

theorem fetched_look_advance (h : c.Settled text) {taken examined : Nat} (hp : 0 < examined) :
    ((c.look examined).advance taken).fetched = c.position + examined := by
  have hf := h.fetched_le
  simp only [Cursor.advance, Cursor.look]
  omega

theorem take (h : c.Settled text) {n : Nat} (hn : 0 < n) : (c.take n).Settled text :=
  h.look_advance hn (Nat.le_refl n) (Nat.le_succ n)

theorem fetched_take (h : c.Settled text) {n : Nat} (hn : 0 < n) :
    (c.take n).fetched = c.position + n :=
  h.fetched_look_advance hn

theorem skipBlanks (h : c.Settled text) : c.skipBlanks.Settled text :=
  h.look_advance (Nat.succ_pos _) (Nat.le_succ _) (Nat.le_refl _)

end Settled

theorem piece_of_nil {c : Cursor} (h : c.skipBlanks.ahead = []) :
    c.piece = .absent (c.skipBlanks.take 1) := by
  unfold piece
  dsimp only
  rw [h]

theorem piece_of_close {c : Cursor} {cs : List Char} (h : c.skipBlanks.ahead = ')' :: cs) :
    c.piece = .found .closing (c.skipBlanks.take 1) := by
  unfold piece
  dsimp only
  rw [h]
  rfl

theorem piece_of_open {c : Cursor} {cs : List Char} (h : c.skipBlanks.ahead = '(' :: cs) :
    c.piece = .found .opening (c.skipBlanks.take 1) := by
  unfold piece
  dsimp only
  rw [h]
  rfl

theorem piece_of_other {c : Cursor} {ch : Char} {cs : List Char}
    (h : c.skipBlanks.ahead = ch :: cs) (hc : ch ≠ ')') (ho : ch ≠ '(') :
    c.piece = c.skipBlanks.single.map .item := by
  unfold piece
  dsimp only
  split
  · next hn => rw [hn] at h; cases h
  · next hn => rw [hn] at h; cases h; exact absurd rfl hc
  · next hn => rw [hn] at h; cases h; exact absurd rfl ho
  · rfl

theorem next_of_nil {c : Cursor} (h : c.skipBlanks.ahead = []) :
    c.next = .absent (c.skipBlanks.take 1) := by
  unfold next
  dsimp only
  rw [h]

theorem look_eq_self {c : Cursor} {n : Nat} (h : c.position + n ≤ c.fetched) : c.look n = c := by
  have hk : n - (c.fetched - c.position) = 0 := by omega
  simp [look, hk, Nat.max_eq_left h]

theorem skipBlanks_eq_self {c : Cursor} (hb : Token.blankCount c.ahead = 0)
    (hf : c.position < c.fetched) : c.skipBlanks = c := by
  rw [skipBlanks, hb, look_eq_self hf]
  rfl

/-- Behind blanks there are no further ones, and the character there has been looked at. -/
theorem skipBlanks_skipBlanks (c : Cursor) : c.skipBlanks.skipBlanks = c.skipBlanks := by
  have hb : Token.blankCount c.skipBlanks.ahead = 0 := Token.blankCount_drop_blankCount c.ahead
  exact skipBlanks_eq_self hb (Nat.le_max_right _ _)

theorem next_of_open {c : Cursor} {cs : List Char} (h : c.skipBlanks.ahead = '(' :: cs) :
    c.next = (readOpen [] [] (c.skipBlanks.take 1)).map .form := by
  unfold next item list
  dsimp only
  rw [skipBlanks_skipBlanks, h]
  rfl

theorem next_of_other {c : Cursor} {ch : Char} {cs : List Char}
    (h : c.skipBlanks.ahead = ch :: cs) (ho : ch ≠ '(') : c.next = c.skipBlanks.single := by
  unfold next item
  dsimp only
  rw [skipBlanks_skipBlanks]
  split
  · next hn => rw [hn] at h; cases h
  · split
    · next hn => rw [hn] at h; cases h; exact absurd rfl ho
    · rfl

end Cursor

/-- Where a scan of a text ends. What is found has been looked at up to the character behind it; for
anything absent the end of the text has been fetched; and a fault is either at the character that
the reader stands at or at the end of the text. -/
inductive Scan.Settled {α : Type} (text : List Char) : Scan α → Prop
  | found {value : α} {after : Cursor} : after.Settled text → after.fetched ≤ text.length + 1 →
      Settled text (.found value after)
  | absent {after : Cursor} : after.Settled text → text.length < after.fetched →
      Settled text (.absent after)
  | invalid {line : Nat} {after : Cursor} : line = after.line → after.Settled text →
      after.fetched ≤ text.length → Settled text (.failed ⟨.invalidForm, line⟩ after)
  | unterminated {fault : SyntaxFault} {line : Nat} {after : Cursor} : fault ≠ .invalidForm →
      line = after.line → after.Settled text → text.length < after.fetched →
      Settled text (.failed ⟨fault, line⟩ after)

theorem Scan.Settled.map {α β : Type} {text : List Char} {s : Scan α} (h : s.Settled text)
    (g : α → β) : (s.map g).Settled text := by
  cases h with
  | found hs hf => exact .found hs hf
  | absent hs hf => exact .absent hs hf
  | invalid hl hs hf => exact .invalid hl hs hf
  | unterminated hn hl hs hf => exact .unterminated hn hl hs hf

theorem Scan.Settled.line_of_unterminated {α : Type} {text : List Char} {fault : SyntaxFault}
    {line : Nat} {after : Cursor} (h : (.failed ⟨fault, line⟩ after : Scan α).Settled text)
    (hn : fault ≠ .invalidForm) : line = 1 + text.count '\n' := by
  cases h with
  | invalid => exact absurd rfl hn
  | unterminated _ hl hs hf => exact hl.trans (hs.line_of_length_lt hf)

namespace Cursor

variable {text : List Char} {c : Cursor}

theorem Settled.single (h : c.Settled text) (ha : c.ahead ≠ []) : c.single.Settled text := by
  have hp := h.position_lt ha
  have hl := h.length_ahead
  have ht := Token.any_tight c.ahead
  cases hany : Token.any c.ahead with
  | hit i taken examined =>
    rw [hany] at ht
    obtain ⟨hte, het, hel⟩ := ht
    have hpos : 0 < examined := Nat.lt_of_lt_of_le (Token.any_proper c.ahead _ _ _ hany) hte
    have hf : ((c.look examined).advance taken).fetched = c.position + examined :=
      h.fetched_look_advance hpos
    rw [single_of_hit hany]
    exact .found (h.look_advance hpos hte het) (by omega)
  | miss examined =>
    rw [hany] at ht
    cases ht
    have hs : (c.look 1).Settled text :=
      h.look_advance Nat.one_pos (Nat.zero_le 1) (Nat.le_refl 1)
    have hf : ((c.look 1).advance 0).fetched = c.position + 1 := h.fetched_look_advance Nat.one_pos
    rw [single_of_miss hany]
    exact .invalid rfl hs (Nat.le_trans (Nat.le_of_eq hf) hp)
  | broken fault taken =>
    rw [hany] at ht
    obtain ⟨rfl, rfl⟩ := ht
    have hf : (c.take (c.ahead.length + 1)).fetched = c.position + (c.ahead.length + 1) :=
      h.fetched_take (Nat.succ_pos _)
    rw [single_of_broken hany]
    exact .unterminated (by decide) rfl (h.take (Nat.succ_pos _)) (by omega)

theorem Settled.take_end (h : c.Settled text) (ha : c.ahead = []) :
    text.length < (c.take 1).fetched := by
  have hl := h.length_le ha
  have hf := h.fetched_take Nat.one_pos
  omega

theorem Settled.found_take {α : Type} (h : c.Settled text) (ha : c.ahead ≠ []) (value : α) :
    (Scan.found value (c.take 1)).Settled text := by
  have hp := h.position_lt ha
  have hf := h.fetched_take Nat.one_pos
  exact .found (h.take Nat.one_pos) (by omega)

theorem Settled.piece (h : c.Settled text) : c.piece.Settled text := by
  have hs := h.skipBlanks
  cases ha : c.skipBlanks.ahead with
  | nil =>
    rw [piece_of_nil ha]
    exact .absent (hs.take Nat.one_pos) (hs.take_end ha)
  | cons ch cs =>
    have hne : c.skipBlanks.ahead ≠ [] := by simp [ha]
    by_cases hc : ch = ')'
    · subst hc
      rw [piece_of_close ha]
      exact hs.found_take hne _
    by_cases ho : ch = '('
    · subst ho
      rw [piece_of_open ha]
      exact hs.found_take hne _
    · rw [piece_of_other ha hc ho]
      exact (hs.single hne).map _

theorem Settled.of_piece (h : c.Settled text) {p : Piece} {after : Cursor}
    (hp : c.piece = .found p after) : after.Settled text := by
  have hs := h.piece
  rw [hp] at hs
  cases hs with
  | found hs _ => exact hs

theorem Settled.readOpen (h : c.Settled text) (outer : List (List Form)) (items : List Form) :
    (readOpen outer items c).Settled text := by
  fun_induction Cursor.readOpen outer items c with
  | case1 outer items c after hp ih => exact ih (h.of_piece hp)
  | case2 items c after hp =>
    have hs := h.piece
    rw [hp] at hs
    cases hs with
    | found hs hf => exact .found hs hf
  | case3 items c after hp siblings outer ih => exact ih (h.of_piece hp)
  | case4 outer items c f after hp ih => exact ih (h.of_piece hp)
  | case5 outer items c comment after hp ih => exact ih (h.of_piece hp)
  | case6 outer items c after hp =>
    have hs := h.piece
    rw [hp] at hs
    cases hs with
    | absent hs hf => exact .unterminated (by decide) rfl hs hf
  | case7 outer items c e after hp =>
    have hs := h.piece
    rw [hp] at hs
    cases hs with
    | invalid hl hs hf => exact .invalid hl hs hf
    | unterminated hn hl hs hf => exact .unterminated hn hl hs hf

theorem Settled.next (h : c.Settled text) : c.next.Settled text := by
  have hs := h.skipBlanks
  cases ha : c.skipBlanks.ahead with
  | nil =>
    rw [next_of_nil ha]
    exact .absent (hs.take Nat.one_pos) (hs.take_end ha)
  | cons ch cs =>
    by_cases ho : ch = '('
    · subst ho
      rw [next_of_open ha]
      exact ((hs.take Nat.one_pos).readOpen [] []).map _
    · rw [next_of_other ha ho]
      exact hs.single (by simp [ha])

theorem Settled.of_next (h : c.Settled text) {i : Item} {after : Cursor}
    (hn : c.next = .found i after) : after.Settled text := by
  have hs := h.next
  rw [hn] at hs
  cases hs with
  | found hs _ => exact hs

end Cursor

namespace Scan

def after {α : Type} : Scan α → Cursor
  | .found _ after => after
  | .absent after => after
  | .failed _ after => after

theorem after_map {α β : Type} (s : Scan α) (g : α → β) : (s.map g).after = s.after := by
  cases s <;> rfl

end Scan

namespace Cursor

theorem fetched_le_single (c : Cursor) : c.fetched ≤ c.single.after.fetched := by
  cases h : Token.any c.ahead with
  | hit i taken examined => rw [single_of_hit h]; exact Nat.le_max_left _ _
  | miss examined => rw [single_of_miss h]; exact Nat.le_max_left _ _
  | broken fault taken => rw [single_of_broken h]; exact Nat.le_max_left _ _

theorem fetched_le_skipBlanks (c : Cursor) : c.fetched ≤ c.skipBlanks.fetched :=
  Nat.le_max_left _ _

theorem fetched_le_take (c : Cursor) (n : Nat) : c.fetched ≤ (c.take n).fetched :=
  Nat.le_max_left _ _

theorem skipBlanks_le_piece (c : Cursor) : c.skipBlanks.fetched ≤ c.piece.after.fetched := by
  cases ha : c.skipBlanks.ahead with
  | nil => rw [piece_of_nil ha]; exact fetched_le_take _ 1
  | cons ch cs =>
    by_cases hc : ch = ')'
    · subst hc
      rw [piece_of_close ha]
      exact fetched_le_take _ 1
    by_cases ho : ch = '('
    · subst ho
      rw [piece_of_open ha]
      exact fetched_le_take _ 1
    · rw [piece_of_other ha hc ho, Scan.after_map]
      exact fetched_le_single _

theorem fetched_le_piece (c : Cursor) : c.fetched ≤ c.piece.after.fetched :=
  Nat.le_trans c.fetched_le_skipBlanks c.skipBlanks_le_piece

theorem fetched_le_readOpen (outer : List (List Form)) (items : List Form) (c : Cursor) :
    c.fetched ≤ (readOpen outer items c).after.fetched := by
  have hle {d : Cursor} {s : Scan Piece} (hs : d.piece = s) : d.fetched ≤ s.after.fetched :=
    hs ▸ d.fetched_le_piece
  fun_induction readOpen outer items c with
  | case1 outer items c after hp ih => exact Nat.le_trans (hle hp) ih
  | case2 items c after hp => exact hle hp
  | case3 items c after hp siblings outer ih => exact Nat.le_trans (hle hp) ih
  | case4 outer items c f after hp ih => exact Nat.le_trans (hle hp) ih
  | case5 outer items c comment after hp ih => exact Nat.le_trans (hle hp) ih
  | case6 outer items c after hp => exact hle hp
  | case7 outer items c e after hp => exact hle hp

theorem skipBlanks_le_next (c : Cursor) : c.skipBlanks.fetched ≤ c.next.after.fetched := by
  cases ha : c.skipBlanks.ahead with
  | nil => rw [next_of_nil ha]; exact fetched_le_take _ 1
  | cons ch cs =>
    by_cases ho : ch = '('
    · subst ho
      rw [next_of_open ha, Scan.after_map]
      exact Nat.le_trans (fetched_le_take _ 1) (fetched_le_readOpen _ _ _)
    · rw [next_of_other ha ho]
      exact fetched_le_single _

theorem fetched_le_next (c : Cursor) : c.fetched ≤ c.next.after.fetched :=
  Nat.le_trans c.fetched_le_skipBlanks c.skipBlanks_le_next

end Cursor

namespace Course

theorem ofCursor_of_found {c after : Cursor} {i : Item} (h : c.next = .found i after) :
    ofCursor c = { ofCursor after with steps := (i, after) :: (ofCursor after).steps } := by
  rw [ofCursor, h]

theorem ofCursor_of_absent {c after : Cursor} (h : c.next = .absent after) :
    ofCursor c = ⟨[], none, after⟩ := by
  rw [ofCursor, h]

theorem ofCursor_of_failed {c after : Cursor} {e : SyntaxError} (h : c.next = .failed e after) :
    ofCursor c = ⟨[], some e, after⟩ := by
  rw [ofCursor, h]

/-- A text is fetched in order, and of what is behind it only its end. -/
theorem steps_ascending {text : List Char} {c : Cursor} (h : c.Settled text) :
    (∀ step ∈ (ofCursor c).steps, c.fetched ≤ step.2.fetched ∧
        step.2.fetched ≤ text.length + 1) ∧
      (ofCursor c).steps.Pairwise (·.2.fetched ≤ ·.2.fetched) := by
  fun_induction ofCursor c with
  | case1 c i after hn rest ih =>
    have hs := h.next
    have hle := c.fetched_le_next
    rw [hn] at hs hle
    cases hs with
    | found hs hf =>
      obtain ⟨hbounds, hascending⟩ := ih hs
      constructor
      · intro step hstep
        rcases List.mem_cons.1 hstep with rfl | hstep
        · exact ⟨hle, hf⟩
        · exact ⟨Nat.le_trans hle (hbounds step hstep).1, (hbounds step hstep).2⟩
      · exact .cons (fun step hstep => (hbounds step hstep).1) hascending
  | case2 => exact ⟨List.forall_mem_nil _, .nil⟩
  | case3 => exact ⟨List.forall_mem_nil _, .nil⟩

def stopsEarly (c : Course) : Bool := c.error?.any (·.fault = .invalidForm)

theorem fetched_final {text : List Char} {c : Cursor} (h : c.Settled text) :
    (ofCursor c).final.fetched ≤ text.length ↔ (ofCursor c).stopsEarly = true := by
  fun_induction ofCursor c with
  | case1 c i after hn rest ih =>
    have hs := h.next
    rw [hn] at hs
    cases hs with
    | found hs _ => exact ih hs
  | case2 c after hn =>
    have hs := h.next
    rw [hn] at hs
    cases hs with
    | absent _ hf => exact iff_of_false (Nat.not_le.2 hf) Bool.false_ne_true
  | case3 c e after hn =>
    have hs := h.next
    rw [hn] at hs
    cases hs with
    | invalid _ _ hf => exact iff_of_true hf rfl
    | unterminated hfault _ _ hf =>
      refine iff_of_false (Nat.not_le.2 hf) ?_
      simpa [stopsEarly] using hfault

end Course
end StackLang
