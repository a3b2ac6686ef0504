import StackLang.Proofs.Reader.Fault
import StackLang.Proofs.Reader.Layout

namespace StackLang

namespace Text

/-- Whether the last line has an end. -/
def Ended (cs : List Char) : Prop := cs = [] ∨ ∃ front, cs = front ++ ['\n']

namespace Ended

variable {cs ds : List Char}

theorem of_append (h : Ended (cs ++ ds)) : Ended ds := by
  rcases List.eq_nil_or_concat ds with rfl | ⟨front, c, rfl⟩
  · exact .inl rfl
  · rcases h with h | ⟨front', h⟩
    · simp at h
    · rw [List.concat_eq_append, ← List.append_assoc] at h
      rw [List.concat_eq_append, (List.append_inj' h rfl).2]
      exact .inr ⟨front, rfl⟩

theorem drop (h : Ended cs) (n : Nat) : Ended (cs.drop n) :=
  @of_append (cs.take n) _ (by rwa [List.take_append_drop])

theorem tail {c : Char} (h : Ended (c :: cs)) : Ended cs := h.drop 1

theorem line_feed_mem (h : Ended cs) (hne : cs ≠ []) : '\n' ∈ cs := by
  obtain ⟨front, rfl⟩ := h.resolve_left hne
  simp

end Ended
end Text

namespace Grammar
open Token Text.Ended

theorem map_fst_before_ne_nil (f : Form) (r : Except SyntaxFault (List Form × List Char)) :
    (before f r).map Prod.fst ≠ .ok [] := by
  cases r <;> nofun

theorem map_fst_read_filler {cs : List Char} (h : Filler cs) :
    (read false cs).map Prod.fst = .ok [] := by
  have hr := read_filler h false []
  rw [List.append_nil] at hr
  rw [hr, read_nil]
  rfl

/-- Where whole lines hold no form there are only blanks and comments. -/
theorem filler_of_read {cs : List Char} (he : Text.Ended cs)
    (h : (read false cs).map Prod.fst = .ok []) : Filler cs := by
  induction hn : cs.length using Nat.strongRecOn generalizing cs with
  | ind n ih =>
    subst hn
    -- Anything but a blank or a comment in front would have been read as a form or be a fault.
    cases front cs with
    | comment cs =>
      obtain ⟨body, rest, hcs, hbody⟩ :=
        List.eq_append_cons_of_mem (he.tail.line_feed_mem fun hnil => by
          simpa [hnil] using he.line_feed_mem)
      subst hcs
      rw [read_comment, afterComment_append hbody] at h
      have hrest : Text.Ended rest := (@of_append body _ he.tail).tail
      exact .comment hbody (ih _ (by simp; omega) hrest h rfl)
    | text cs =>
      rw [read_text] at h
      cases hl : literal false cs with
      | none => rw [hl] at h; cases h
      | some r =>
        rw [hl] at h
        exact absurd h (map_fst_before_ne_nil _ _)
    | run hrun hne hrest =>
      rw [read_run hrun hne hrest] at h
      exact absurd h (map_fst_before_ne_nil _ _)
    | other hs hc hq =>
      cases cs with
      | nil => exact .nil
      | cons c cs =>
        by_cases hb : isBlank c = true
        · rw [read_blank hb] at h
          exact .blank hb (ih _ (Nat.lt_succ_self _) he.tail h rfl)
        by_cases ho : c = '('
        · subst ho
          rw [read_list] at h
          cases hl : read true cs with
          | error => rw [hl] at h; cases h
          | ok r =>
            rw [hl] at h
            exact absurd h (map_fst_before_ne_nil _ _)
        · rw [read_invalid (by simpa using hb) (hs c rfl) (by simpa using hc) ho
            (by simpa using hq) (by simp)] at h
          cases h

theorem filler_iff_read {cs : List Char} (he : Text.Ended cs) :
    Filler cs ↔ (read false cs).map Prod.fst = .ok [] :=
  ⟨map_fst_read_filler, filler_of_read he⟩

theorem filler_append {cs ds : List Char} (he : Text.Ended cs) :
    Filler (cs ++ ds) ↔ Filler cs ∧ Filler ds := by
  constructor
  · intro h
    generalize htext : cs ++ ds = text at h
    induction h generalizing cs with
    | nil =>
      obtain ⟨rfl, rfl⟩ := List.append_eq_nil_iff.1 htext
      exact ⟨.nil, .nil⟩
    | @blank c rest hc hf ih =>
      rcases List.append_eq_cons_iff.1 htext with ⟨rfl, rfl⟩ | ⟨cs, rfl, rfl⟩
      · exact ⟨.nil, .blank hc hf⟩
      · obtain ⟨hcs, hds⟩ := ih he.tail rfl
        exact ⟨.blank hc hcs, hds⟩
    | @comment body rest hb hf ih =>
      rcases List.append_eq_cons_iff.1 htext with ⟨rfl, rfl⟩ | ⟨cs, rfl, hsplit⟩
      · exact ⟨.nil, .comment hb hf⟩
      -- The line feed behind the comment is still in the first part, which ends with one.
      have hmem : '\n' ∈ cs := he.tail.line_feed_mem fun hnil => by
        subst hnil
        simpa using he.line_feed_mem
      rcases List.append_eq_append_iff.1 hsplit with ⟨mid, rfl, hmid⟩ | ⟨mid, rfl, -⟩
      · rcases List.cons_eq_append_iff.1 hmid with ⟨rfl, -⟩ | ⟨mid, rfl, rfl⟩
        · rw [List.append_nil] at hmem
          exact absurd hmem hb
        · obtain ⟨hcs, hds⟩ := ih (@of_append body _ he.tail).tail rfl
          exact ⟨.comment hb hcs, hds⟩
      · exact absurd (List.mem_append_left mid hmem) hb
  · rintro ⟨hcs, hds⟩
    induction hcs with
    | nil => exact hds
    | blank hc _ ih => exact .blank hc (ih he.tail)
    | @comment body rest hb _ ih =>
      have hrest : Text.Ended rest := (@of_append body _ he.tail).tail
      rw [List.cons_append, List.append_assoc, List.cons_append]
      exact .comment hb (ih hrest)

end Grammar

namespace Cursor

variable {text : List Char} {c : Cursor} {k : Nat}

/-- Whatever is found in whole lines is found without looking behind them. -/
theorem Settled.fetched_le_of_next (h : c.Settled text) (he : Text.Ended text) {i : Item}
    {after : Cursor} (hn : c.next = .found i after) : after.fetched ≤ text.length := by
  rcases he with rfl | ⟨front, rfl⟩
  · have ha : c.skipBlanks.ahead = [] := h.skipBlanks.ahead_eq.trans List.drop_nil
    rw [next_of_nil ha] at hn
    cases hn
  · have hfront := h.on front
    have hs := hfront.next
    have hc := hfront.next_continued []
    have hon : (c.on front).on (front ++ ['\n']) = c := h.on_eq
    rw [hon, hn] at hc
    generalize (c.on front).next = s at hs hc
    cases hc with
    | found hc =>
      cases hs with
      | found hs hf =>
        cases hc
        rw [List.length_append]
        exact hf
    | absent hc =>
      obtain ⟨after', hc⟩ := hc rfl
      cases hc
    | invalid hc => cases hc
    | unterminated hne hc =>
      obtain ⟨line', after', hc⟩ := hc rfl
      cases hc

/-- What is found in the first lines of a text is what is found in the text, as far as no more than
these is fetched for it. -/
theorem Settled.next_take_iff (h : c.Settled text) (he : Text.Ended (text.take k)) {i : Item}
    {after' : Cursor} : (c.on (text.take k)).next = .found i after' ↔
      ∃ after, c.next = .found i after ∧ after.fetched ≤ k ∧ after' = after.on (text.take k) := by
  have hagree : text.take k = (text.take k).take k := by rw [List.take_take, Nat.min_self]
  constructor
  · intro hn
    have hfront := h.on (text.take k)
    have hf : after'.fetched ≤ k :=
      Nat.le_trans (hfront.fetched_le_of_next he hn) (List.length_take_le k text)
    have hon : (c.on (text.take k)).on text = c := h.on_eq
    have hnext := hfront.next_of_agree hagree.symm (n := k) (by rw [hn]; exact hf)
    rw [hon, hn] at hnext
    refine ⟨after'.on text, hnext, hf, ?_⟩
    exact (hfront.of_next hn).on_eq.symm
  · rintro ⟨after, hn, hf, rfl⟩
    have hnext := h.next_of_agree hagree (n := k) (by rw [hn]; exact hf)
    rw [hnext, hn]
    rfl

end Cursor

namespace Course
open Text

variable {text : List Char} {c : Cursor} {k : Nat}

theorem formSteps_of_form {f : Form} {after : Cursor} (h : c.next = .found (.form f) after) :
    (ofCursor c).formSteps = (f, after) :: (ofCursor after).formSteps := by
  rw [ofCursor_of_found h]
  rfl

theorem formSteps_of_comment {remark : String} {after : Cursor}
    (h : c.next = .found (.comment remark) after) :
    (ofCursor c).formSteps = (ofCursor after).formSteps := by
  rw [ofCursor_of_found h]
  rfl

theorem formSteps_eq_nil (h : ∀ i after, c.next ≠ .found i after) :
    (ofCursor c).formSteps = [] := by
  cases hn : c.next with
  | found i after => exact absurd hn (h i after)
  | absent after => rw [ofCursor_of_absent hn]; rfl
  | failed e after => rw [ofCursor_of_failed hn]; rfl

theorem settled_of_formSteps (h : c.Settled text) :
    ∀ step ∈ (ofCursor c).formSteps, step.2.Settled text ∧ c.fetched ≤ step.2.fetched := by
  fun_induction ofCursor c with
  | case1 c i after hn rest ih =>
    have hle := c.fetched_le_next
    rw [hn] at hle
    have hafter := h.of_next hn
    intro step hstep
    have hrest : step ∈ (ofCursor after).formSteps →
        step.2.Settled text ∧ c.fetched ≤ step.2.fetched := fun hm =>
      ⟨(ih hafter step hm).1, Nat.le_trans hle (ih hafter step hm).2⟩
    cases i with
    | form f =>
      rcases List.mem_cons.1 hstep with rfl | hm
      · exact ⟨hafter, hle⟩
      · exact hrest hm
    | comment remark => exact hrest hstep
  | case2 => exact List.forall_mem_nil _
  | case3 => exact List.forall_mem_nil _

theorem fetched_le_final_of_formSteps (c : Cursor) :
    ∀ step ∈ (ofCursor c).formSteps, step.2.fetched ≤ (ofCursor c).final.fetched := by
  fun_induction ofCursor c with
  | case1 c i after hn rest ih =>
    intro step hstep
    cases i with
    | form f =>
      rcases List.mem_cons.1 hstep with rfl | hm
      · exact fetched_le_final after
      · exact ih step hm
    | comment remark => exact ih step hstep
  | case2 => exact List.forall_mem_nil _
  | case3 => exact List.forall_mem_nil _

theorem fetched_le_formSteps (h : c.Settled text) :
    ∀ step ∈ (ofCursor c).formSteps, c.next.after.fetched ≤ step.2.fetched := by
  intro step hstep
  cases hn : c.next with
  | found i after =>
    have hrest := settled_of_formSteps (h.of_next hn) step
    cases i with
    | form f =>
      rw [formSteps_of_form hn] at hstep
      rcases List.mem_cons.1 hstep with rfl | hm
      · exact Nat.le_refl _
      · exact (hrest hm).2
    | comment remark =>
      rw [formSteps_of_comment hn] at hstep
      exact (hrest hstep).2
  | absent after =>
    rw [formSteps_eq_nil (by simp [hn])] at hstep
    cases hstep
  | failed e after =>
    rw [formSteps_eq_nil (by simp [hn])] at hstep
    cases hstep

theorem formSteps_take_of_lt (h : c.Settled text) (he : Ended (text.take k))
    (hlt : ∀ i after, c.next = .found i after → k < after.fetched) :
    (ofCursor (c.on (text.take k))).formSteps =
      ((ofCursor c).formSteps.filter (·.2.fetched ≤ k)).map
        (Prod.map id (Cursor.on (text.take k))) := by
  have hfront : (ofCursor (c.on (text.take k))).formSteps = [] := by
    refine formSteps_eq_nil fun i after' hn => ?_
    obtain ⟨after, hnext, hf, -⟩ := (h.next_take_iff he).1 hn
    exact absurd (hlt i after hnext) (Nat.not_lt.2 hf)
  have hnone : (ofCursor c).formSteps.filter (·.2.fetched ≤ k) = [] := by
    refine List.filter_eq_nil_iff.2 fun step hstep => ?_
    have hle := fetched_le_formSteps h step hstep
    cases hn : c.next with
    | found i after =>
      have hk := hlt i after hn
      rw [hn] at hle
      exact fun hc => absurd (Nat.lt_of_lt_of_le hk hle) (Nat.not_lt.2 (of_decide_eq_true hc))
    | absent after =>
      rw [formSteps_eq_nil (by simp [hn])] at hstep
      cases hstep
    | failed e after =>
      rw [formSteps_eq_nil (by simp [hn])] at hstep
      cases hstep
  rw [hfront, hnone]
  rfl

/-- The forms that are complete in the first lines of a text are those that are read before more
than these is fetched. -/
theorem formSteps_take (h : c.Settled text) (he : Ended (text.take k)) :
    (ofCursor (c.on (text.take k))).formSteps =
      ((ofCursor c).formSteps.filter (·.2.fetched ≤ k)).map
        (Prod.map id (Cursor.on (text.take k))) := by
  fun_induction ofCursor c with
  | case1 c i after hn rest ih =>
    by_cases hf : after.fetched ≤ k
    · have hon := (h.next_take_iff he).2 ⟨after, hn, hf, rfl⟩
      have hrest := ih (h.of_next hn)
      cases i with
      | form f =>
        rw [formSteps_of_form hon, hrest]
        change _ = ((((f, after) :: rest.formSteps).filter _).map _)
        rw [List.filter_cons_of_pos (by simpa using hf)]
        rfl
      | comment remark =>
        rw [formSteps_of_comment hon, hrest]
        rfl
    · -- What is not in these lines is not found in them, and nothing behind it either.
      have hlt := formSteps_take_of_lt h he (fun j after' hn' => by
        rw [hn] at hn'
        cases hn'
        exact Nat.lt_of_not_le hf)
      rw [ofCursor_of_found hn] at hlt
      exact hlt
  | case2 c after hn =>
    have hlt := formSteps_take_of_lt h he (by simp [hn])
    rw [ofCursor_of_absent hn] at hlt
    exact hlt
  | case3 c e after hn =>
    have hlt := formSteps_take_of_lt h he (by simp [hn])
    rw [ofCursor_of_failed hn] at hlt
    exact hlt

theorem formSteps_ofText_take (text : List Char) (he : Ended (text.take k)) :
    (ofText (text.take k)).formSteps = ((ofText text).formSteps.filter (·.2.fetched ≤ k)).map
      (Prod.map id (Cursor.on (text.take k))) :=
  formSteps_take (Cursor.settled_start text) he

theorem length_forms (c : Course) : c.forms.length = c.formSteps.length := by
  rw [← map_fst_formSteps, List.length_map]

theorem length_forms_take (text : List Char) (he : Ended (text.take k)) :
    (ofText (text.take k)).forms.length =
      (ofText text).formSteps.countP (·.2.fetched ≤ k) := by
  rw [length_forms, formSteps_ofText_take text he, List.length_map, List.countP_eq_length_filter]

theorem stopsEarly_take (text : List Char) (hk : k ≤ text.length) :
    (ofText (text.take k)).stopsEarly = true ↔ (ofText text).final.fetched ≤ k := by
  have hlength : (text.take k).length = k := List.length_take_of_le hk
  have hagree : text.take k = (text.take k).take k := by rw [List.take_take, Nat.min_self]
  constructor
  · intro hs
    have hf := (fetched_final (Cursor.settled_start (text.take k))).2 hs
    rw [hlength] at hf
    have hfinal : (ofText text).final = (ofText (text.take k)).final.on text :=
      (ofCursor_of_agree (Cursor.settled_start (text.take k)) hagree.symm hf).2
    rw [hfinal]
    exact hf
  · intro hf
    have hs := (fetched_final (Cursor.settled_start text)).1 (Nat.le_trans hf hk)
    have he := (ofCursor_of_agree (Cursor.settled_start text) hagree hf).1
    have herror : (ofText (text.take k)).error? = (ofText text).error? := he
    rw [stopsEarly, herror]
    exact hs

/-- What is left of a text behind the last form that is complete. -/
def remainder (text : List Char) : List Char :=
  text.drop (((ofText text).formSteps.getLast?.map (·.2.position)).getD 0)

theorem ended_remainder (he : Ended text) : Ended (remainder text) := he.drop _

theorem error?_nil : (ofText []).error? = none := by
  rw [ofText, ofCursor_of_absent (Cursor.next_of_nil rfl)]

theorem exists_behind_forms_of_nil (h : c.Settled text) (hnil : (ofCursor c).formSteps = []) :
    ∃ d : Cursor, d.Settled text ∧
      d.position = ((ofCursor c).formSteps.getLast?.map (·.2.position)).getD c.position ∧
      (ofCursor d).forms = [] ∧ (ofCursor d).error? = (ofCursor c).error? := by
  refine ⟨c, h, by rw [hnil]; rfl, ?_, rfl⟩
  rw [← map_fst_formSteps, hnil]
  rfl

/-- There is a place behind the last form, from which on the text is read as it is from the start,
except that no form is found. -/
theorem exists_behind_forms (h : c.Settled text) :
    ∃ d : Cursor, d.Settled text ∧
      d.position = ((ofCursor c).formSteps.getLast?.map (·.2.position)).getD c.position ∧
      (ofCursor d).forms = [] ∧ (ofCursor d).error? = (ofCursor c).error? := by
  fun_induction ofCursor c with
  | case1 c i after hn rest ih =>
    obtain ⟨d, hd, hp, hforms, herror⟩ := ih (h.of_next hn)
    cases i with
    | form f =>
      refine ⟨d, hd, ?_, hforms, herror⟩
      change _ = ((((f, after) :: rest.formSteps).getLast?.map _).getD _)
      rw [hp, List.getLast?_cons]
      cases rest.formSteps.getLast? <;> rfl
    | comment remark =>
      -- A comment with no form behind it belongs to what is left.
      cases hl : rest.formSteps.getLast? with
      | none =>
        have hnil := List.getLast?_eq_none_iff.1 hl
        have hc := exists_behind_forms_of_nil h (by rw [formSteps_of_comment hn]; exact hnil)
        rw [ofCursor_of_found hn] at hc
        exact hc
      | some step =>
        refine ⟨d, hd, ?_, hforms, herror⟩
        change _ = (rest.formSteps.getLast?.map _).getD _
        change d.position = (rest.formSteps.getLast?.map _).getD _ at hp
        rw [hp, hl]
        rfl
  | case2 c after hn =>
    have hc := exists_behind_forms_of_nil h (formSteps_eq_nil (by simp [hn]))
    rw [ofCursor_of_absent hn] at hc
    exact hc
  | case3 c e after hn =>
    have hc := exists_behind_forms_of_nil h (formSteps_eq_nil (by simp [hn]))
    rw [ofCursor_of_failed hn] at hc
    exact hc

/-- In whole lines, nothing but blanks and comments stands behind the last form unless the text ends
too early or is at fault. -/
theorem filler_remainder (he : Ended text) :
    Filler (remainder text) ↔ (ofText text).error? = none := by
  obtain ⟨d, hd, hp, hforms, herror⟩ := exists_behind_forms (Cursor.settled_start text)
  have hr : remainder text = d.ahead := by
    rw [hd.ahead_eq, hp]
    rfl
  have hout := outcome_ofCursor d
  rw [hr, Grammar.filler_iff_read (hr ▸ ended_remainder he), ← hout, outcome, herror, hforms]
  change _ ↔ (ofCursor (.start text)).error? = none
  cases (ofCursor (.start text)).error? with
  | none => exact iff_of_true rfl rfl
  | some e => exact iff_of_false nofun nofun

theorem remainder_append {front more : List Char} (he : Ended front)
    (hlength : (ofText front).forms.length = (ofText (front ++ more)).forms.length) :
    remainder (front ++ more) = remainder front ++ more := by
  have htake : (front ++ more).take front.length = front := List.take_left
  have hsteps := @formSteps_ofText_take front.length (front ++ more)
  rw [htake] at hsteps
  have hall : (ofText (front ++ more)).formSteps.filter (·.2.fetched ≤ front.length) =
      (ofText (front ++ more)).formSteps := by
    rw [length_forms, length_forms, hsteps he, List.length_map] at hlength
    exact List.filter_sublist.eq_of_length hlength
  have hlast : (ofText front).formSteps.getLast?.map (·.2.position) =
      (ofText (front ++ more)).formSteps.getLast?.map (·.2.position) := by
    rw [hsteps he, hall, List.getLast?_map, Option.map_map]
    rfl
  have hp : ((ofText (front ++ more)).formSteps.getLast?.map (·.2.position)).getD 0 ≤
      front.length := by
    cases hs : (ofText (front ++ more)).formSteps.getLast? with
    | none => exact Nat.zero_le _
    | some step =>
      have hm := List.mem_of_getLast? hs
      have hf := List.filter_eq_self.1 hall step hm
      exact Nat.le_trans (settled_of_formSteps (Cursor.settled_start _) step hm).1.position_le
        (of_decide_eq_true hf)
  rw [remainder, remainder, hlast, List.drop_append_of_le_length hp]

theorem forms_of_filler {cs : List Char} (h : Filler cs) : (ofText cs).forms = [] := by
  have hout := outcome_ofCursor (.start cs)
  rw [Cursor.start, Grammar.map_fst_read_filler h, outcome] at hout
  change (ofText cs).forms = []
  split at hout
  · exact Except.ok.inj hout
  · cases hout

theorem forms_append_filler {front more : List Char} (he : Ended front)
    (hr : Filler (remainder front)) (hm : Filler more) :
    (ofText (front ++ more)).forms = (ofText front).forms := by
  have herror := (filler_remainder he).1 hr
  rcases he with rfl | ⟨front, rfl⟩
  · rw [List.nil_append, forms_of_filler hm, forms_of_filler .nil]
  · have hnone : (ofText front).error? = none := by
      rw [error?_line_end] at herror
      exact Option.map_eq_none_iff.1 herror
    rw [List.append_assoc, List.singleton_append, forms_line hnone, forms_of_filler hm,
      List.append_nil, forms_line_end]

end Course
end StackLang
