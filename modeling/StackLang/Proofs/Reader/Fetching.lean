import StackLang.Proofs.Reader.Lookahead

namespace StackLang

namespace Scan

variable {α β : Type}

def reply : Scan α → Except SyntaxError (Option α)
  | .found value _ => .ok (some value)
  | .absent _ => .ok none
  | .failed e _ => .error e

/-- The same scan in another text. -/
def on (text : List Char) : Scan α → Scan α
  | .found value after => .found value (after.on text)
  | .absent after => .absent (after.on text)
  | .failed e after => .failed e (after.on text)

theorem map_on (text : List Char) (s : Scan α) (g : α → β) :
    (s.on text).map g = (s.map g).on text := by
  cases s <;> rfl

theorem after_on (text : List Char) (s : Scan α) : (s.on text).after = s.after.on text := by
  cases s <;> rfl

theorem reply_on (text : List Char) (s : Scan α) : (s.on text).reply = s.reply := by
  cases s <;> rfl

theorem Settled.after {text : List Char} {s : Scan α} (h : s.Settled text) :
    s.after.Settled text := by
  cases h with
  | found hs => exact hs
  | absent hs => exact hs
  | invalid _ hs => exact hs
  | unterminated _ _ hs => exact hs

end Scan

namespace Cursor

section
variable {text other : List Char} {c : Cursor} {n : Nat}

theorem Settled.take_ahead (h : c.Settled text) (hagree : text.take n = other.take n) {m : Nat}
    (hm : c.position + m ≤ n) : c.ahead.take m = (c.on other).ahead.take m := by
  rw [h.ahead_eq]
  change _ = (other.drop c.position).take m
  rw [List.take_drop, List.take_drop, Token.take_eq_of_le hagree hm]

theorem Settled.fail_of_agree {α : Type} (h : c.Settled text)
    (hagree : text.take n = other.take n) (hn : c.fetched ≤ n) (fault : SyntaxFault) :
    ((c.on other).fail fault : Scan α) = (c.fail fault).on other := by
  have hline : (c.on other).line = c.line := by
    rw [h.line_eq, Token.take_eq_of_le hagree hn]
    rfl
  rw [fail, fail, hline]
  rfl

theorem Settled.skipBlanks_of_agree (h : c.Settled text) (hagree : text.take n = other.take n)
    (hn : c.skipBlanks.fetched ≤ n) : (c.on other).skipBlanks = c.skipBlanks.on other := by
  have hf : c.skipBlanks.fetched = c.position + (Token.blankCount c.ahead + 1) :=
    h.fetched_look_advance (Nat.succ_pos _)
  have hblanks : Token.blankCount (c.on other).ahead = Token.blankCount c.ahead := by
    have ht := h.take_ahead hagree (hf ▸ hn)
    rw [Token.blankCount, Token.takeWhile_eq_of_take_eq ht (Nat.lt_succ_self _), Token.blankCount]
  rw [Cursor.skipBlanks, hblanks, look_on _ h.position_le, advance_on]
  rfl

theorem Settled.head?_of_agree (h : c.Settled text) (hagree : text.take n = other.take n)
    (hn : c.skipBlanks.fetched ≤ n) :
    (c.on other).skipBlanks.ahead.head? = c.skipBlanks.ahead.head? := by
  have hlt : c.skipBlanks.position < n := Nat.lt_of_lt_of_le (Nat.le_max_right _ _) hn
  rw [h.skipBlanks_of_agree hagree hn]
  exact Token.head?_eq_of_take_eq (h.skipBlanks.take_ahead hagree hlt) Nat.one_pos

theorem Settled.single_of_agree (h : c.Settled text) (hagree : text.take n = other.take n)
    (hn : c.single.after.fetched ≤ n) : (c.on other).single = c.single.on other := by
  have hany (hm : c.position + (Token.any c.ahead).examined ≤ n) :
      Token.any (c.on other).ahead = Token.any c.ahead :=
    Token.any_eq_of_take_eq (h.take_ahead hagree hm)
  -- How far a miss and a broken literal reach is told by what is fetched, as for a hit.
  have ht := Token.any_tight c.ahead
  cases ha : Token.any c.ahead with
  | hit i taken examined =>
    rw [single_of_hit ha] at hn ⊢
    rw [ha] at hany
    rw [single_of_hit (hany (Nat.le_trans (Nat.le_max_right _ _) hn)), look_on _ h.position_le,
      advance_on]
    rfl
  | miss examined =>
    rw [ha] at ht hany
    cases ht
    have hs : (c.look 1).Settled text :=
      h.look_advance Nat.one_pos (Nat.zero_le 1) (Nat.le_refl 1)
    rw [single_of_miss ha] at hn ⊢
    rw [single_of_miss (hany (Nat.le_trans (Nat.le_max_right _ _) hn)), look_on _ h.position_le]
    exact hs.fail_of_agree hagree hn _
  | broken fault taken =>
    rw [ha] at ht hany
    obtain ⟨-, rfl⟩ := ht
    rw [single_of_broken ha] at hn ⊢
    rw [single_of_broken (hany (Nat.le_trans (Nat.le_max_right _ _) hn)), take_on _ h.position_le]
    exact (h.take (Nat.succ_pos _)).fail_of_agree hagree hn _

theorem Settled.piece_of_agree (h : c.Settled text) (hagree : text.take n = other.take n)
    (hn : c.piece.after.fetched ≤ n) : (c.on other).piece = c.piece.on other := by
  have hs := h.skipBlanks
  have hle := Nat.le_trans c.skipBlanks_le_piece hn
  have hskip := h.skipBlanks_of_agree hagree hle
  have hhead := h.head?_of_agree hagree hle
  cases ha : c.skipBlanks.ahead with
  | nil =>
    rw [ha] at hhead
    rw [piece_of_nil ha, piece_of_nil (List.head?_eq_none_iff.1 hhead), hskip,
      take_on _ hs.position_le]
    rfl
  | cons ch cs =>
    rw [ha] at hhead
    obtain ⟨ds, hd⟩ := List.head?_eq_some_iff.1 hhead
    by_cases hc : ch = ')'
    · subst hc
      rw [piece_of_close ha, piece_of_close hd, hskip, take_on _ hs.position_le]
      rfl
    by_cases ho : ch = '('
    · subst ho
      rw [piece_of_open ha, piece_of_open hd, hskip, take_on _ hs.position_le]
      rfl
    · rw [piece_of_other ha hc ho, Scan.after_map] at hn
      rw [piece_of_other ha hc ho, piece_of_other hd hc ho, hskip, hs.single_of_agree hagree hn,
        Scan.map_on]

theorem Settled.piece_of_agree_found (h : c.Settled text)
    (hagree : text.take n = other.take n) {p : Piece} {after : Cursor}
    (hp : c.piece = .found p after) (hn : after.fetched ≤ n) :
    (c.on other).piece = .found p (after.on other) := by
  rw [h.piece_of_agree hagree (by rw [hp]; exact hn), hp]
  rfl

theorem Settled.readOpen_of_agree (h : c.Settled text) (hagree : text.take n = other.take n)
    (outer : List (List Form)) (items : List Form)
    (hn : (Cursor.readOpen outer items c).after.fetched ≤ n) :
    Cursor.readOpen outer items (c.on other) = (Cursor.readOpen outer items c).on other := by
  -- The induction follows the reader from piece to piece; none is fetched beyond the last.
  fun_induction Cursor.readOpen outer items c with
  | case1 outer items c after hp ih =>
    rw [Cursor.readOpen.eq_def _ _ (c.on _), h.piece_of_agree_found hagree hp
      (Nat.le_trans (fetched_le_readOpen _ _ _) hn)]
    exact ih (h.of_piece hp) hn
  | case2 items c after hp =>
    rw [Cursor.readOpen.eq_def _ _ (c.on _), h.piece_of_agree_found hagree hp hn]
    rfl
  | case3 items c after hp siblings outer ih =>
    rw [Cursor.readOpen.eq_def _ _ (c.on _), h.piece_of_agree_found hagree hp
      (Nat.le_trans (fetched_le_readOpen _ _ _) hn)]
    exact ih (h.of_piece hp) hn
  | case4 outer items c f after hp ih =>
    rw [Cursor.readOpen.eq_def _ _ (c.on _), h.piece_of_agree_found hagree hp
      (Nat.le_trans (fetched_le_readOpen _ _ _) hn)]
    exact ih (h.of_piece hp) hn
  | case5 outer items c comment after hp ih =>
    rw [Cursor.readOpen.eq_def _ _ (c.on _), h.piece_of_agree_found hagree hp
      (Nat.le_trans (fetched_le_readOpen _ _ _) hn)]
    exact ih (h.of_piece hp) hn
  | case6 outer items c after hp =>
    have hs := h.piece.after
    rw [hp] at hs
    rw [Cursor.readOpen.eq_def _ _ (c.on _),
      h.piece_of_agree hagree (by rw [hp]; exact hn), hp]
    exact hs.fail_of_agree hagree hn _
  | case7 outer items c e after hp =>
    rw [Cursor.readOpen.eq_def _ _ (c.on _),
      h.piece_of_agree hagree (by rw [hp]; exact hn), hp]
    rfl

/-- What is next depends only on what has been fetched by then. -/
theorem Settled.next_of_agree (h : c.Settled text) (hagree : text.take n = other.take n)
    (hn : c.next.after.fetched ≤ n) : (c.on other).next = c.next.on other := by
  have hs := h.skipBlanks
  have hle := Nat.le_trans c.skipBlanks_le_next hn
  have hskip := h.skipBlanks_of_agree hagree hle
  have hhead := h.head?_of_agree hagree hle
  cases ha : c.skipBlanks.ahead with
  | nil =>
    rw [ha] at hhead
    rw [next_of_nil ha, next_of_nil (List.head?_eq_none_iff.1 hhead), hskip,
      take_on _ hs.position_le]
    rfl
  | cons ch cs =>
    rw [ha] at hhead
    obtain ⟨ds, hd⟩ := List.head?_eq_some_iff.1 hhead
    by_cases ho : ch = '('
    · subst ho
      rw [next_of_open ha, Scan.after_map] at hn
      rw [next_of_open ha, next_of_open hd, hskip, take_on _ hs.position_le,
        (hs.take Nat.one_pos).readOpen_of_agree hagree [] [] hn, Scan.map_on]
    · rw [next_of_other ha ho] at hn
      rw [next_of_other ha ho, next_of_other hd ho, hskip, hs.single_of_agree hagree hn]

theorem Settled.fetched_of_single (h : c.Settled text) {i : Item} {after : Cursor}
    (hs : c.single = .found i after) :
    after.fetched = after.position + if i.openEnded then 1 else 0 := by
  cases ha : Token.any c.ahead with
  | hit j taken examined =>
    have he := Token.examined_any ha
    have ht := Token.any_proper c.ahead _ _ _ ha
    rw [single_of_hit ha] at hs
    cases hs
    have hf : ((c.look examined).advance taken).fetched = c.position + examined :=
      h.fetched_look_advance (by omega)
    rw [hf, he]
    exact (Nat.add_assoc _ _ _).symm
  | miss examined => rw [single_of_miss ha] at hs; cases hs
  | broken fault taken => rw [single_of_broken ha] at hs; cases hs

theorem piece_eq_closing {c after : Cursor} (h : c.piece = .found .closing after) :
    ∃ cs, c.skipBlanks.ahead = ')' :: cs ∧ after = c.skipBlanks.take 1 := by
  cases ha : c.skipBlanks.ahead with
  | nil => rw [piece_of_nil ha] at h; cases h
  | cons ch cs =>
    by_cases hc : ch = ')'
    · subst hc
      rw [piece_of_close ha] at h
      cases h
      exact ⟨cs, rfl, rfl⟩
    by_cases ho : ch = '('
    · subst ho
      rw [piece_of_open ha] at h
      cases h
    · rw [piece_of_other ha hc ho] at h
      obtain ⟨i, -, hi⟩ := Scan.map_eq_found h
      cases hi

theorem Settled.fetched_of_closing (h : c.Settled text) {after : Cursor}
    (hp : c.piece = .found .closing after) :
    after.fetched = after.position ∧ after.fetched ≤ text.length := by
  obtain ⟨cs, ha, rfl⟩ := piece_eq_closing hp
  have hf := h.skipBlanks.fetched_take Nat.one_pos
  have hlt := h.skipBlanks.position_lt (by rw [ha]; exact List.cons_ne_nil _ _)
  exact ⟨hf, hf ▸ hlt⟩

theorem Settled.fetched_of_readOpen (h : c.Settled text) {outer : List (List Form)}
    {items : List Form} {f : Form} {after : Cursor}
    (hr : Cursor.readOpen outer items c = .found f after) :
    (Item.form f).openEnded = false ∧ after.fetched = after.position ∧
      after.fetched ≤ text.length := by
  fun_induction Cursor.readOpen outer items c with
  | case1 outer items c _ hp ih => exact ih (h.of_piece hp) hr
  | case2 items c _ hp =>
    cases hr
    exact ⟨rfl, h.fetched_of_closing hp⟩
  | case3 items c _ hp siblings outer ih => exact ih (h.of_piece hp) hr
  | case4 outer items c f _ hp ih => exact ih (h.of_piece hp) hr
  | case5 outer items c comment _ hp ih => exact ih (h.of_piece hp) hr
  | case6 => cases hr
  | case7 => cases hr

theorem Settled.fetched_of_next (h : c.Settled text) {i : Item} {after : Cursor}
    (hn : c.next = .found i after) :
    after.fetched = after.position + if i.openEnded then 1 else 0 := by
  cases ha : c.skipBlanks.ahead with
  | nil => rw [next_of_nil ha] at hn; cases hn
  | cons ch cs =>
    by_cases ho : ch = '('
    · subst ho
      rw [next_of_open ha] at hn
      obtain ⟨f, hr, rfl⟩ := Scan.map_eq_found hn
      obtain ⟨hopen, hf, -⟩ := (h.skipBlanks.take Nat.one_pos).fetched_of_readOpen hr
      rw [hopen, hf]
      rfl
    · rw [next_of_other ha ho] at hn
      exact h.skipBlanks.fetched_of_single hn

end

/-- What a reader comes to the last time if it is called `n` more times after the first, whatever
it has come to before: it goes on from where it was left, be that a fault or the end of the text. -/
def call (c : Cursor) : (n : Nat) → Scan Item
  | 0 => c.next
  | n + 1 => c.next.after.call n

theorem fetched_le_call (c : Cursor) (n : Nat) : c.fetched ≤ (c.call n).after.fetched := by
  induction n generalizing c with
  | zero => exact c.fetched_le_next
  | succ n ih => exact Nat.le_trans c.fetched_le_next (ih c.next.after)

theorem call_fetched_le (c : Cursor) {k n : Nat} (h : k ≤ n) :
    (c.call k).after.fetched ≤ (c.call n).after.fetched := by
  induction k generalizing c n with
  | zero =>
    cases n with
    | zero => exact Nat.le_refl _
    | succ n => exact c.next.after.fetched_le_call n
  | succ k ih =>
    cases n with
    | zero => exact absurd h (Nat.not_succ_le_zero k)
    | succ n => exact ih c.next.after (Nat.le_of_succ_le_succ h)

section
variable {text other : List Char} {c : Cursor}

theorem Settled.call (h : c.Settled text) (n : Nat) : (c.call n).Settled text := by
  induction n generalizing c with
  | zero => exact h.next
  | succ n ih => exact ih h.next.after

theorem Settled.fetched_of_call (h : c.Settled text) {n : Nat} {i : Item} {after : Cursor}
    (hc : c.call n = .found i after) :
    after.fetched = after.position + if i.openEnded then 1 else 0 := by
  induction n generalizing c with
  | zero => exact h.fetched_of_next hc
  | succ n ih => exact ih h.next.after hc

theorem Settled.call_of_agree (h : c.Settled text) {n m : Nat}
    (hagree : text.take m = other.take m) (hm : (c.call n).after.fetched ≤ m) :
    (c.on other).call n = (c.call n).on other := by
  induction n generalizing c with
  | zero => exact h.next_of_agree hagree hm
  | succ n ih =>
    have hnext := h.next_of_agree hagree (Nat.le_trans (c.next.after.fetched_le_call n) hm)
    change (c.on other).next.after.call n = _
    rw [hnext, Scan.after_on]
    exact ih h.next.after hm

end

/-- The reader is lazy and local. Each time that it finds something, it has fetched no more than the
characters up to there, and the one behind an item that has no end of its own; and all that it has
come to by then, it comes to in every text that agrees on what it has fetched. -/
theorem call_reads_only_fetched (text : List Char) (n : Nat) :
    (∀ i after, (start text).call n = .found i after →
      after.fetched = after.position + if i.openEnded then 1 else 0) ∧
    (∀ other : List Char,
      other.take ((start text).call n).after.fetched =
        text.take ((start text).call n).after.fetched →
      ∀ k ≤ n, ((start other).call k).reply = ((start text).call k).reply ∧
        ((start other).call k).after.position = ((start text).call k).after.position ∧
        ((start other).call k).after.line = ((start text).call k).after.line ∧
        ((start other).call k).after.fetched = ((start text).call k).after.fetched) := by
  have hs := settled_start text
  refine ⟨fun i after hc => hs.fetched_of_call hc, fun other hagree k hk => ?_⟩
  have hle := (start text).call_fetched_le hk
  have hcall : (start other).call k = ((start text).call k).on other :=
    hs.call_of_agree hagree.symm hle
  have hline : ((start text).call k).after.line =
      1 + (other.take ((start text).call k).after.fetched).count '\n' := by
    rw [(hs.call k).after.line_eq, Token.take_eq_of_le hagree.symm hle]
  rw [hcall, Scan.reply_on, Scan.after_on, hline]
  exact ⟨rfl, rfl, rfl, rfl⟩

/-- A list is read up to its parenthesis and a number up to the blank behind it; what comes then may
be anything. -/
theorem call_reads_only_fetched_number :
    ((start ['(', ')', '7', ' ', 'x']).call 1).after.fetched = 4 ∧
      ((start ['(', ')', '7', ' ', '"']).call 0).reply = .ok (some (.form (.list []))) ∧
      ((start ['(', ')', '7', ' ', '"']).call 1).reply = .ok (some (.form (.int 7))) := by
  have hlist : (start ['(', ')', '7', ' ', 'x']).call 0 =
      .found (.form (.list [])) ⟨['7', ' ', 'x'], 2, 2, 1⟩ := by
    rw [call, next_of_open rfl, readOpen]
    rfl
  have hnumber : (start ['(', ')', '7', ' ', 'x']).call 1 =
      .found (.form (.int 7)) ⟨[' ', 'x'], 3, 4, 1⟩ := by
    change ((start ['(', ')', '7', ' ', 'x']).call 0).after.next = _
    rw [hlist]
    rfl
  obtain ⟨hfetched, hagree⟩ := call_reads_only_fetched ['(', ')', '7', ' ', 'x'] 1
  have hsame := hagree ['(', ')', '7', ' ', '"'] (by rw [hnumber]; rfl)
  have hfirst := (hsame 0 (Nat.zero_le 1)).1
  have hsecond := (hsame 1 (Nat.le_refl 1)).1
  rw [hlist] at hfirst
  rw [hnumber] at hsecond ⊢
  exact ⟨hfetched _ _ hnumber, hfirst, hsecond⟩

end Cursor
end StackLang
