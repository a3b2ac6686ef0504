import StackLang.Proofs.Reader.Place

namespace StackLang

namespace Token

theorem textBody_cons {c : Char} (hq : c ≠ '"') (hs : c ≠ '\\') (cs : List Char) :
    textBody (c :: cs) = (textBody cs).map fun (value, width) => (c :: value, width + 1) := by
  rw [textBody]
  · exact hq
  · exact fun h => absurd h hs
  · exact fun _ _ h => absurd h hs

theorem ne_backslash {c : Char} {cs : List Char} (hn : c = '\\' → cs = [] → False)
    (hc : ∀ d ds, c = '\\' → cs = d :: ds → False) : c ≠ '\\' := by
  intro h
  cases cs with
  | nil => exact hn h rfl
  | cons d ds => exact hc d ds h rfl

theorem textBody_append {cs value : List Char} {width : Nat}
    (h : textBody cs = some (value, width)) (more : List Char) :
    textBody (cs ++ more) = some (value, width) := by
  fun_induction textBody cs generalizing value width with
  | case1 => cases h
  | case2 cs => exact h
  | case3 => cases h
  | case4 c cs ih =>
    obtain ⟨⟨v, w⟩, hv, hw⟩ := Option.map_eq_some_iff.1 h
    rw [List.cons_append, List.cons_append, textBody, ih hv]
    exact congrArg some hw
  | case5 c cs hq hb hn ih =>
    obtain ⟨⟨v, w⟩, hv, hw⟩ := Option.map_eq_some_iff.1 h
    rw [List.cons_append, textBody_cons hq (ne_backslash hb hn), ih hv]
    exact congrArg some hw

theorem textBody_append_line_feed {cs : List Char} (h : textBody cs = none) :
    textBody (cs ++ ['\n']) = none := by
  fun_induction textBody cs with
  | case1 => rfl
  | case2 cs => cases h
  | case3 => rfl
  | case4 c cs ih =>
    rw [List.cons_append, List.cons_append, textBody, ih (Option.map_eq_none_iff.1 h)]
    rfl
  | case5 c cs hq hb hn ih =>
    rw [List.cons_append, textBody_cons hq (ne_backslash hb hn), ih (Option.map_eq_none_iff.1 h)]
    rfl

theorem Stops.append {p : Char → Bool} {cs more : List Char} (h : Stops p cs)
    (hm : Stops p more) : Stops p (cs ++ more) := by
  cases cs with
  | nil => exact hm
  | cons c cs => exact h

theorem stops_line_feed {p : Char → Bool} (h : p '\n' = false) (more : List Char) :
    Stops p ('\n' :: more) := by
  intro c hc
  cases hc
  exact h

theorem head?_append_line_feed {cs : List Char} {c : Char} (h : cs.head? ≠ some c) (hc : c ≠ '\n')
    (more : List Char) : (cs ++ '\n' :: more).head? ≠ some c := by
  cases cs with
  | nil => exact fun he => hc (Option.some.inj he).symm
  | cons d cs => exact h

/-- A run stands for the same at the end of a text and at the end of a line. -/
theorem atom_append_line_feed (run rest more : List Char) :
    Grammar.atom run (rest ++ '\n' :: more).head? = Grammar.atom run rest.head? := by
  cases rest <;> rfl

/-- Whatever the end of the text does not break is recognized before the end of a line too. -/
theorem any_append_line_feed {cs : List Char} (h : ∀ fault taken, any cs ≠ .broken fault taken)
    (more : List Char) : any (cs ++ '\n' :: more) = any cs := by
  cases front cs with
  | comment cs =>
    have hb : (cs ++ '\n' :: more).takeWhile (· ≠ '\n') = cs.takeWhile (· ≠ '\n') :=
      takeWhile_append_of_stops (stops_line_feed rfl more) cs
    change comment (';' :: (cs ++ '\n' :: more)) = comment (';' :: cs)
    rw [comment, comment, hb]
  | text cs =>
    rw [any_text] at h
    rcases hb : textBody cs with _ | r
    · rw [hb] at h
      exact absurd rfl (h _ _)
    · rw [List.cons_append, any_text, any_text, textBody_append hb, hb]
  | @run run rest hrun hne hrest =>
    have hstop := hrest.append (stops_line_feed (p := isSymbolic) rfl more)
    rw [any_run hrun hne hrest, List.append_assoc, any_run hrun hne hstop, atom_append_line_feed]
  | other hs hc hq =>
    have hstop := hs.append (stops_line_feed (p := isSymbolic) rfl more)
    rw [any_invalid hs hc hq, any_invalid hstop (head?_append_line_feed hc (by decide) more)
      (head?_append_line_feed hq (by decide) more)]

theorem any_broken_append_line_feed {cs : List Char} {fault : SyntaxFault} {taken : Nat}
    (h : any cs = .broken fault taken) : any (cs ++ ['\n']) = .broken fault (taken + 1) := by
  cases front cs with
  | comment cs => cases h
  | text cs =>
    rw [any_text] at h
    rcases hb : textBody cs with _ | r
    · rw [hb] at h
      cases h
      rw [List.cons_append, any_text, textBody_append_line_feed hb, List.length_append]
      rfl
    · rw [hb] at h
      cases h
  | run hrun hne hrest =>
    rw [any_run hrun hne hrest] at h
    cases h
  | other hs hc hq =>
    rw [any_invalid hs hc hq] at h
    cases h

theorem blankCount_append {cs : List Char} (h : cs.drop (blankCount cs) ≠ []) (more : List Char) :
    blankCount (cs ++ more) = blankCount cs := by
  have hl : (cs.takeWhile isBlank).length ≠ cs.length := by
    intro he
    rw [blankCount, he, List.drop_length] at h
    exact h rfl
  rw [blankCount, List.takeWhile_append, if_neg hl, blankCount]

end Token

namespace Cursor

variable {text more : List Char} {c : Cursor}

theorem Settled.ahead_on_append (h : c.Settled text) (hp : c.position ≤ text.length)
    (more : List Char) : (c.on (text ++ more)).ahead = c.ahead ++ more := by
  rw [h.ahead_eq]
  exact List.drop_append_of_le_length hp

theorem Settled.line_on_append (h : c.Settled text) (hf : c.fetched ≤ text.length)
    (more : List Char) : (c.on (text ++ more)).line = c.line := by
  rw [h.line_eq]
  change 1 + ((text ++ more).take c.fetched).count '\n' = _
  rw [List.take_append_of_le_length hf]

theorem Settled.skipBlanks_on_append (h : c.Settled text) (ha : c.skipBlanks.ahead ≠ [])
    (more : List Char) :
    (c.on (text ++ more)).skipBlanks = c.skipBlanks.on (text ++ more) := by
  have hp := h.skipBlanks.position_lt ha
  have hle : c.position ≤ text.length := Nat.le_of_lt (Nat.lt_of_le_of_lt (Nat.le_add_right _ _) hp)
  have hb : Token.blankCount (c.on (text ++ more)).ahead = Token.blankCount c.ahead := by
    rw [h.ahead_on_append hle]
    exact Token.blankCount_append ha more
  rw [Cursor.skipBlanks, hb, look_on _ h.position_le, advance_on]
  rfl

theorem Settled.skipBlanks_on_line_end (h : c.Settled text) (ha : c.skipBlanks.ahead = []) :
    (c.on (text ++ ['\n'])).skipBlanks.ahead = [] := by
  rw [ahead_skipBlanks, List.dropWhile_eq_nil_iff] at ha ⊢
  change ∀ ch ∈ (text ++ ['\n']).drop c.position, _
  rw [h.ahead_eq] at ha
  intro ch hch
  rw [List.drop_append, List.mem_append] at hch
  rcases hch with hch | hch
  · exact ha ch hch
  · have hn := List.mem_of_mem_drop hch
    rw [List.mem_singleton] at hn
    rw [hn]
    rfl

end Cursor

/-- What becomes of a scan when the text goes on in a further line. Unless the end of the text
mattered, the scan is the same; and if the further line is empty, nothing is found in it. -/
inductive Scan.Continued {α : Type} (text more : List Char) : Scan α → Scan α → Prop
  | found {value : α} {after : Cursor} {s : Scan α}
      (h : s = .found value (after.on (text ++ '\n' :: more))) :
      Continued text more (.found value after) s
  | absent {after : Cursor} {s : Scan α} (h : more = [] → ∃ after', s = .absent after') :
      Continued text more (.absent after) s
  | invalid {line : Nat} {after : Cursor} {s : Scan α}
      (h : s = .failed ⟨.invalidForm, line⟩ (after.on (text ++ '\n' :: more))) :
      Continued text more (.failed ⟨.invalidForm, line⟩ after) s
  | unterminated {fault : SyntaxFault} {line : Nat} {after : Cursor} {s : Scan α}
      (hn : fault ≠ .invalidForm)
      (h : more = [] → ∃ line' after', s = .failed ⟨fault, line'⟩ after') :
      Continued text more (.failed ⟨fault, line⟩ after) s

theorem Scan.Continued.map {α β : Type} {text more : List Char} {s s' : Scan α}
    (h : s.Continued text more s') (g : α → β) : (s.map g).Continued text more (s'.map g) := by
  cases h with
  | found h =>
    subst h
    exact .found rfl
  | absent h =>
    refine .absent fun hm => ?_
    obtain ⟨after', rfl⟩ := h hm
    exact ⟨after', rfl⟩
  | invalid h =>
    subst h
    exact .invalid rfl
  | unterminated hn h =>
    refine .unterminated hn fun hm => ?_
    obtain ⟨line', after', rfl⟩ := h hm
    exact ⟨line', after', rfl⟩

namespace Cursor

variable {text : List Char} {c : Cursor}

theorem Settled.single_continued (h : c.Settled text) (ha : c.ahead ≠ []) (more : List Char) :
    c.single.Continued text more (c.on (text ++ '\n' :: more)).single := by
  have hahead := h.ahead_on_append (Nat.le_of_lt (h.position_lt ha)) ('\n' :: more)
  have hsettled := h.single ha
  cases hany : Token.any c.ahead with
  | hit i taken examined =>
    have hon := Token.any_append_line_feed (fun _ _ => by rw [hany]; nofun) more
    rw [← hahead, hany] at hon
    rw [single_of_hit hany, single_of_hit hon, look_on _ h.position_le, advance_on]
    exact .found rfl
  | miss examined =>
    have hon := Token.any_append_line_feed (fun _ _ => by rw [hany]; nofun) more
    rw [← hahead, hany] at hon
    rw [single_of_miss hany] at hsettled ⊢
    cases hsettled with
    | unterminated hn => exact absurd rfl hn
    | invalid _ hs hf =>
      rw [single_of_miss hon, look_on _ h.position_le, fail, fail, hs.line_on_append hf]
      exact .invalid rfl
  | broken fault taken =>
    have hfault := Token.any_tight c.ahead
    rw [hany] at hfault
    obtain ⟨rfl, -⟩ := hfault
    rw [single_of_broken hany]
    refine .unterminated (by decide) fun hm => ?_
    subst hm
    have hon := Token.any_broken_append_line_feed hany
    rw [← hahead] at hon
    exact ⟨_, _, single_of_broken hon⟩

theorem Settled.skipBlanks_on_of_cons (h : c.Settled text) {ch : Char} {cs : List Char}
    (ha : c.skipBlanks.ahead = ch :: cs) (more : List Char) :
    (c.on (text ++ more)).skipBlanks = c.skipBlanks.on (text ++ more) ∧
      (c.on (text ++ more)).skipBlanks.ahead = ch :: (cs ++ more) := by
  have hne : c.skipBlanks.ahead ≠ [] := by simp [ha]
  have hs := h.skipBlanks_on_append hne more
  have hp := Nat.le_of_lt (h.skipBlanks.position_lt hne)
  refine ⟨hs, ?_⟩
  rw [hs, h.skipBlanks.ahead_on_append hp, ha, List.cons_append]

theorem Settled.piece_continued (h : c.Settled text) (more : List Char) :
    c.piece.Continued text more (c.on (text ++ '\n' :: more)).piece := by
  have hs := h.skipBlanks
  cases ha : c.skipBlanks.ahead with
  | nil =>
    rw [piece_of_nil ha]
    refine .absent fun hm => ?_
    subst hm
    exact ⟨_, piece_of_nil (h.skipBlanks_on_line_end ha)⟩
  | cons ch cs =>
    obtain ⟨hon, hahead⟩ := h.skipBlanks_on_of_cons ha ('\n' :: more)
    by_cases hc : ch = ')'
    · subst hc
      rw [piece_of_close ha, piece_of_close hahead, hon, take_on _ hs.position_le]
      exact .found rfl
    by_cases ho : ch = '('
    · subst ho
      rw [piece_of_open ha, piece_of_open hahead, hon, take_on _ hs.position_le]
      exact .found rfl
    · rw [piece_of_other ha hc ho, piece_of_other hahead hc ho, hon]
      exact (hs.single_continued (by simp [ha]) more).map _

theorem Settled.piece_on (h : c.Settled text) {p : Piece} {after : Cursor}
    (hp : c.piece = .found p after) (more : List Char) :
    (c.on (text ++ '\n' :: more)).piece = .found p (after.on (text ++ '\n' :: more)) := by
  have hc := h.piece_continued more
  rw [hp] at hc
  cases hc with
  | found h => exact h

theorem Settled.readOpen_continued (h : c.Settled text) (outer : List (List Form))
    (items : List Form) (more : List Char) :
    (Cursor.readOpen outer items c).Continued text more
      (Cursor.readOpen outer items (c.on (text ++ '\n' :: more))) := by
  -- The induction follows the reader from piece to piece; up to a fault the pieces are the same.
  fun_induction Cursor.readOpen outer items c with
  | case1 outer items c after hp ih =>
    rw [Cursor.readOpen.eq_def _ _ (c.on _), h.piece_on hp]
    exact ih (h.of_piece hp)
  | case2 items c after hp =>
    rw [Cursor.readOpen.eq_def _ _ (c.on _), h.piece_on hp]
    exact .found rfl
  | case3 items c after hp siblings outer ih =>
    rw [Cursor.readOpen.eq_def _ _ (c.on _), h.piece_on hp]
    exact ih (h.of_piece hp)
  | case4 outer items c f after hp ih =>
    rw [Cursor.readOpen.eq_def _ _ (c.on _), h.piece_on hp]
    exact ih (h.of_piece hp)
  | case5 outer items c comment after hp ih =>
    rw [Cursor.readOpen.eq_def _ _ (c.on _), h.piece_on hp]
    exact ih (h.of_piece hp)
  | case6 outer items c after hp =>
    refine .unterminated (by decide) fun hm => ?_
    have hc := h.piece_continued more
    rw [hp] at hc
    cases hc with
    | absent ha =>
      obtain ⟨after', hon⟩ := ha hm
      rw [Cursor.readOpen.eq_def _ _ (c.on _), hon]
      exact ⟨_, _, rfl⟩
  | case7 outer items c e after hp =>
    have hc := h.piece_continued more
    rw [hp] at hc
    cases hc with
    | invalid hon =>
      rw [Cursor.readOpen.eq_def _ _ (c.on _), hon]
      exact .invalid rfl
    | unterminated hn hon =>
      refine .unterminated hn fun hm => ?_
      obtain ⟨line', after', hon⟩ := hon hm
      rw [Cursor.readOpen.eq_def _ _ (c.on _), hon]
      exact ⟨_, _, rfl⟩

/-- The next item of a text is the next one too if the text goes on in a further line. -/
theorem Settled.next_continued (h : c.Settled text) (more : List Char) :
    c.next.Continued text more (c.on (text ++ '\n' :: more)).next := by
  have hs := h.skipBlanks
  cases ha : c.skipBlanks.ahead with
  | nil =>
    rw [next_of_nil ha]
    refine .absent fun hm => ?_
    subst hm
    exact ⟨_, next_of_nil (h.skipBlanks_on_line_end ha)⟩
  | cons ch cs =>
    obtain ⟨hon, hahead⟩ := h.skipBlanks_on_of_cons ha ('\n' :: more)
    by_cases ho : ch = '('
    · subst ho
      rw [next_of_open ha, next_of_open hahead, hon, take_on _ hs.position_le]
      exact ((hs.take Nat.one_pos).readOpen_continued [] [] more).map _
    · rw [next_of_other ha ho, next_of_other hahead ho, hon]
      exact hs.single_continued (by simp [ha]) more

end Cursor

/-- The error of a text when a line end is put behind the text: if the text should have gone on,
that is noticed in the line after. -/
def SyntaxError.lineEnded (e : SyntaxError) : SyntaxError :=
  if e.fault = .invalidForm then e else { e with line := e.line + 1 }

namespace Course

/-- In a text with a line end put behind it the same items are read, each up to the same place, and
the same fault is met. -/
theorem ofCursor_line_end {text : List Char} {c : Cursor} (h : c.Settled text) :
    (ofCursor (c.on (text ++ ['\n']))).steps =
        (ofCursor c).steps.map (Prod.map id (Cursor.on (text ++ ['\n']))) ∧
      (ofCursor (c.on (text ++ ['\n']))).error? =
        (ofCursor c).error?.map SyntaxError.lineEnded := by
  fun_induction ofCursor c with
  | case1 c i after hn rest ih =>
    have hs := h.next
    have hc := h.next_continued []
    rw [hn] at hs hc
    cases hs with
    | found hs hf =>
      cases hc with
      | found hc =>
        obtain ⟨hsteps, herror⟩ := ih hs
        rw [ofCursor_of_found hc]
        exact ⟨congrArg _ hsteps, herror⟩
  | case2 c after hn =>
    have hc := h.next_continued []
    rw [hn] at hc
    cases hc with
    | absent hc =>
      obtain ⟨after', hc⟩ := hc rfl
      rw [ofCursor_of_absent hc]
      exact ⟨rfl, rfl⟩
  | case3 c e after hn =>
    have hs := h.next
    have hc := h.next_continued []
    rw [hn] at hs hc
    cases hc with
    | invalid hc =>
      rw [ofCursor_of_failed hc]
      exact ⟨rfl, rfl⟩
    | @unterminated fault line _ _ hfault hc =>
      obtain ⟨line', after', hc⟩ := hc rfl
      -- Both faults are on the last line, and the longer text has one line more.
      have hs' := (h.on (text ++ ['\n'])).next
      rw [hc] at hs'
      have hline := hs.line_of_unterminated hfault
      have hline' := hs'.line_of_unterminated hfault
      rw [List.count_append, List.count_singleton_self] at hline'
      have he : SyntaxError.lineEnded ⟨fault, line⟩ = ⟨fault, line'⟩ := by
        rw [SyntaxError.lineEnded, if_neg hfault, hline, hline', Nat.add_assoc]
      rw [ofCursor_of_failed hc]
      exact ⟨rfl, congrArg some he.symm⟩

theorem forms_line_end (text : List Char) :
    (ofText (text ++ ['\n'])).forms = (ofText text).forms := by
  have hs : (ofText (text ++ ['\n'])).steps = _ :=
    (ofCursor_line_end (Cursor.settled_start text)).1
  rw [forms, items, hs, List.map_map]
  rfl

theorem error?_line_end (text : List Char) :
    (ofText (text ++ ['\n'])).error? = (ofText text).error?.map SyntaxError.lineEnded :=
  (ofCursor_line_end (Cursor.settled_start text)).2

theorem map_fst_formSteps (c : Course) : c.formSteps.map Prod.fst = c.forms := by
  rw [formSteps, forms, items, List.map_filterMap, List.filterMap_map]
  congr 1
  funext step
  obtain ⟨i, after⟩ := step
  cases i <;> rfl

theorem mem_steps_of_formSteps {c : Course} {step : Form × Cursor} (h : step ∈ c.formSteps) :
    ∃ i, (i, step.2) ∈ c.steps := by
  obtain ⟨⟨i, after⟩, hm, hi⟩ := List.mem_filterMap.1 h
  obtain ⟨f, -, rfl⟩ := Option.map_eq_some_iff.1 hi
  exact ⟨i, hm⟩

theorem formSteps_ascending (text : List Char) :
    (ofText text).formSteps.Pairwise (·.2.fetched ≤ ·.2.fetched) := by
  refine List.pairwise_filterMap.2 ?_
  refine (steps_ascending (Cursor.settled_start text)).2.imp fun hle step hs step' hs' => ?_
  obtain ⟨f, -, rfl⟩ := Option.map_eq_some_iff.1 hs
  obtain ⟨f', -, rfl⟩ := Option.map_eq_some_iff.1 hs'
  exact hle

theorem fetched_le_of_formSteps {text : List Char}
    (h : text = [] ∨ ∃ front, text = front ++ ['\n']) {step : Form × Cursor}
    (hs : step ∈ (ofText text).formSteps) : step.2.fetched ≤ text.length := by
  obtain ⟨i, hi⟩ := mem_steps_of_formSteps hs
  rcases h with rfl | ⟨front, rfl⟩
  · rw [ofText, ofCursor_of_absent (Cursor.next_of_nil rfl)] at hi
    cases hi
  · have hsteps : (ofText (front ++ ['\n'])).steps = _ :=
      (ofCursor_line_end (Cursor.settled_start front)).1
    rw [hsteps] at hi
    obtain ⟨earlier, hm, he⟩ := List.mem_map.1 hi
    have hf := ((steps_ascending (Cursor.settled_start front)).1 earlier hm).2
    have hc : earlier.2.on (front ++ ['\n']) = step.2 := congrArg Prod.snd he
    rw [← hc, List.length_append]
    exact hf

end Course
end StackLang
