import StackLang.Proofs.Buffered.Nesting

namespace StackLang

namespace Cursor

theorem next_of_ahead {c : Cursor} {ch : Char} {cs : List Char}
    (h : c.skipBlanks.ahead = ch :: cs) : c.next = c.skipBlanks.item := by
  unfold next
  dsimp only
  rw [h]

end Cursor

namespace Buffered

section
variable {σ : Type} [CharSource σ] {text : List Char} {d : Feed σ text} {p f : Nat}

/-- The next item of a text, and the scan for it. -/
inductive Parsed {text : List Char} (d : Feed σ text) (start : Nat) :
    Result σ (Option Item) → Scan Item → Prop
  | found {i : Item} {p f : Nat} : start < p → p ≤ f →
      Parsed d start (.ok (some i) (.place d p f)) (.found i (d.cursor p f))
  | absent {p f : Nat} : p ≤ f →
      Parsed d start (.ok none (.place d p f)) (.absent (d.cursor p f))
  | failed {e : SyntaxError} {p f : Nat} : p ≤ f →
      Parsed d start (.error (.error e) (.place d p f)) (.failed e (d.cursor p f))

theorem parse_agree (h : p ≤ f) :
    Parsed d p (parse (.place d p f)) (d.cursor p f).next := by
  obtain ⟨q, hq⟩ : ∃ q, p + Token.blankCount (text.drop p) = q := ⟨_, rfl⟩
  obtain ⟨g, hg⟩ : ∃ g, max f (q + 1) = g := ⟨_, rfl⟩
  have hblanks := blanks_place (d := d) h hq
  rw [hg] at hblanks
  have hpq : p ≤ q := hq ▸ Nat.le_add_right _ _
  have hqg : q < g := hg ▸ Nat.le_max_right _ _
  have hahead := ahead_skipBlanks_to (d := d) h hq hg
  -- Behind the blanks the reader asks first whether the text has ended.
  cases hd : text.drop q with
  | nil =>
    rw [hd] at hahead
    have hend := lookahead_success (d := d) none hqg (getElem?_of_drop hd)
    have hparse : parse (.place d p f) = .ok none (.place d (q + 1) g) :=
      (bind_ok hblanks).trans (bind_ok hend)
    rw [Cursor.next_of_nil hahead, take_skipBlanks_to h hq hg, hparse]
    exact .absent hqg
  | cons ch cs =>
    rw [hd] at hahead
    have hchar : text[q]? = some ch := getElem?_of_drop hd
    have hmore := lookahead_failure (d := d) none hqg (by rw [hchar]; simp)
    have hparse : parse (.place d p f) =
        (form >>= fun a => pure a.item? : ReaderM σ (Option Item)) (.place d q g) :=
      (bind_ok hblanks).trans (bind_ok hmore)
    have hagree : Agree d q (form (.place d q g)) ((d.cursor q g).item.map some) :=
      form_agree (Nat.le_of_lt hqg)
    rw [Cursor.next_of_ahead hahead, skipBlanks_to h hq hg, hparse]
    generalize hx : form (.place d q g) = x at hagree
    generalize (d.cursor q g).item = s at hagree ⊢
    cases s with
    | found i c =>
      cases hagree with
      | found hp hi hf =>
        rw [bind_ok hx]
        exact .found (Nat.lt_of_le_of_lt hpq (hi rfl)) hf
    | absent c =>
      cases hagree with
      | nothing hf =>
        rw [bind_ok hx]
        exact .absent hf
    | failed e c =>
      cases hagree with
      | failed hf =>
        rw [bind_error hx]
        exact .failed hf

/-- What reading up to the next form comes to, and the course that reading takes from a place. -/
inductive Advances {text : List Char} (d : Feed σ text) (start : Nat) (course : Course) :
    Result σ (Option Form) → Prop
  | form {g : Form} {p f : Nat} : text.length - p < text.length - start → p ≤ f →
      course.formSteps = (g, d.cursor p f) :: (Course.ofCursor (d.cursor p f)).formSteps →
      course.error? = (Course.ofCursor (d.cursor p f)).error? →
      course.final = (Course.ofCursor (d.cursor p f)).final →
      Advances d start course (.ok (some g) (.place d p f))
  | ended {p f : Nat} : p ≤ f → course.formSteps = [] → course.error? = none →
      course.final = d.cursor p f → Advances d start course (.ok none (.place d p f))
  | failed {e : SyntaxError} {p f : Nat} : p ≤ f → course.formSteps = [] →
      course.error? = some e → course.final = d.cursor p f →
      Advances d start course (.error (.error e) (.place d p f))

theorem Advances.behind_comment {start next : Nat} {course : Course} {text' : String}
    {after : Cursor} {x : Result σ (Option Form)} (h : Advances d next course x)
    (hstart : start ≤ next) :
    Advances d start { course with steps := (.comment text', after) :: course.steps } x := by
  cases h with
  | form hp hf hsteps he hfinal =>
    exact .form (Nat.lt_of_lt_of_le hp (Nat.sub_le_sub_left hstart _)) hf hsteps he hfinal
  | ended hf hsteps he hfinal => exact .ended hf hsteps he hfinal
  | failed hf hsteps he hfinal => exact .failed hf hsteps he hfinal

section
variable {r t : Reader σ}

theorem nextForm_of_form {g : Form} (h : parse r = .ok (some (.form g)) t) :
    nextForm r = .ok (some g) t := by
  rw [nextForm]
  exact bind_ok h

theorem nextForm_of_comment {s : String} (h : parse r = .ok (some (.comment s)) t)
    (hlt : t.unread < r.unread) : nextForm r = nextForm t := by
  rw [nextForm]
  exact (bind_ok h).trans (onward_eq hlt)

theorem nextForm_of_none (h : parse r = .ok none t) : nextForm r = .ok none t := by
  rw [nextForm]
  exact bind_ok h

theorem nextForm_of_error {e : Failure} (h : parse r = .error e t) : nextForm r = .error e t := by
  rw [nextForm]
  exact bind_error h

end

theorem nextForm_advances {c : Cursor} (h : p ≤ f) (hc : c = d.cursor p f) :
    Advances d p (Course.ofCursor c) (nextForm (.place d p f)) := by
  have hparsed : Parsed d p (parse (.place d p f)) c.next := hc ▸ parse_agree h
  generalize hx : parse (.place d p f) = x at hparsed
  -- The course goes on behind a comment, which is where the reader calls itself.
  fun_induction Course.ofCursor c generalizing p f x with
  | case1 c i after hn rest =>
    rename_i ih
    have hahead := Cursor.length_lt_of_next hn
    rw [hn] at hparsed
    cases hparsed with
    | @found _ q g hp hf =>
      have hlength : text.length - q < text.length - p := by
        rw [← List.length_drop, ← List.length_drop]
        rw [hc] at hahead
        exact hahead
      cases i with
      | form i =>
        rw [nextForm_of_form hx]
        exact .form hlength hf rfl rfl rfl
      | comment s =>
        have hlt : (Reader.place d q g).unread < (Reader.place d p f).unread := by
          rwa [unread_place h, unread_place hf]
        rw [nextForm_of_comment hx hlt]
        exact (ih hf rfl _ rfl (parse_agree hf)).behind_comment (Nat.le_of_lt hp)
  | case2 c after hn =>
    rw [hn] at hparsed
    cases hparsed with
    | absent hf =>
      rw [nextForm_of_none hx]
      exact .ended hf rfl rfl rfl
  | case3 c e after hn =>
    rw [hn] at hparsed
    cases hparsed with
    | failed hf =>
      rw [nextForm_of_error hx]
      exact .failed hf rfl rfl rfl

section
variable {r t : Reader σ} (forms : List Form)

theorem load_of_form {g : Form} (h : nextForm r = .ok (some g) t) (hlt : t.unread < r.unread) :
    load forms r = load (forms ++ [g]) t := by
  rw [load]
  exact (bind_ok h).trans (onward_eq hlt)

theorem load_of_none (h : nextForm r = .ok none t) : load forms r = .ok forms t := by
  rw [load]
  exact bind_ok h

theorem load_of_error {e : Failure} (h : nextForm r = .error e t) :
    load forms r = .error e t := by
  rw [load]
  exact bind_error h

end

/-- Loading comes to the forms that are read from there on, or to the fault that stops them. -/
theorem load_course (h : p ≤ f) (forms : List Form) :
    ∃ t, load forms (.place d p f) = match (Course.ofCursor (d.cursor p f)).error? with
      | none => .ok (forms ++ (Course.ofCursor (d.cursor p f)).formSteps.map Prod.fst) t
      | some e => .error (.error e) t := by
  induction hn : text.length - p using Nat.strong_induction_on generalizing p f forms with
  | _ n ih =>
  subst hn
  have hnext : Advances d p _ (nextForm (.place d p f)) := nextForm_advances h rfl
  generalize hx : nextForm (.place d p f) = x at hnext
  cases hnext with
  | @form i q g hlength hf hsteps he =>
    have hlt : (Reader.place d q g).unread < (Reader.place d p f).unread := by
      rwa [unread_place h, unread_place hf]
    obtain ⟨t, ht⟩ := ih _ hlength hf (forms ++ [i]) rfl
    refine ⟨t, ?_⟩
    rw [load_of_form forms hx hlt, ht, he, hsteps, List.map_cons, List.append_assoc,
      List.singleton_append]
  | ended _ hsteps he =>
    rw [he, load_of_none forms hx, hsteps, List.map_nil, List.append_nil]
    exact ⟨_, rfl⟩
  | failed _ _ he =>
    rw [he, load_of_error forms hx]
    exact ⟨_, rfl⟩

end

/-- Another text is read as by itself, and the reader is left as it was. -/
theorem readText_eq {σ : Type} (text : List Char) (r : Reader σ) :
    readText text r = match StackLang.readText (String.ofList text) with
      | .ok forms => .ok forms r
      | .error e => .error (.error e) r := by
  have hstart : (Feed.start text).cursor 0 0 = .start text := rfl
  obtain ⟨t, ht⟩ := @load_course _ _ _ (Feed.start text) 0 0 (Nat.le_refl 0) []
  unfold readText StackLang.readText Course.ofText
  rw [String.toList_ofList, fresh_eq_place, ht, hstart, Course.map_fst_formSteps]
  dsimp only
  cases (Course.ofCursor (.start text)).error? <;> rfl

end Buffered
end StackLang
