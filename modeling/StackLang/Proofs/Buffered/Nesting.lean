import StackLang.Proofs.Buffered.Choice

namespace StackLang

theorem Scan.map_map {α β γ : Type} (g : α → β) (k : β → γ) (s : Scan α) :
    (s.map g).map k = s.map (k ∘ g) := by
  cases s <;> rfl

namespace Cursor

/-- Reading goes on behind a list in the list around it, if there is one. -/
def behindList (outer : List (List Form)) (list : Form) (after : Cursor) : Scan Form :=
  match outer with
  | [] => .found list after
  | siblings :: outer => readOpen outer (list :: siblings) after

section
variable {c after : Cursor} (outer : List (List Form)) (items : List Form)

theorem readOpen_of_opening (h : c.piece = .found .opening after) :
    readOpen outer items c = readOpen (items :: outer) [] after := by
  rw [readOpen, h]

theorem readOpen_of_closing (h : c.piece = .found .closing after) :
    readOpen outer items c = behindList outer (.ofReversed items) after := by
  rw [readOpen, h]
  cases outer <;> rfl

theorem readOpen_of_item {i : Item} (h : c.piece = .found (.item i) after) :
    readOpen outer items c = readOpen outer (i.form?.toList ++ items) after := by
  rw [readOpen, h]
  cases i <;> rfl

theorem readOpen_of_absent (h : c.piece = .absent after) :
    readOpen outer items c = after.fail .unterminatedList := by
  rw [readOpen, h]

theorem readOpen_of_failed {e : SyntaxError} (h : c.piece = .failed e after) :
    readOpen outer items c = .failed e after := by
  rw [readOpen, h]

end

section
variable {c : Cursor} {cs : List Char}

theorem list_of_opening (h : c.ahead = '(' :: cs) : c.list = readOpen [] [] (c.take 1) := by
  unfold list
  rw [h]
  rfl

theorem list_of_head?_ne (h : c.ahead.head? ≠ some '(') : c.list = .absent (c.look 1) := by
  unfold list
  split
  · next hc => exact absurd (congrArg List.head? hc) h
  · rfl

theorem item_of_opening (h : c.skipBlanks.ahead = '(' :: cs) :
    c.item = (readOpen [] [] (c.skipBlanks.take 1)).map .form := by
  rw [← list_of_opening h]
  unfold item
  dsimp only
  rw [h]
  rfl

theorem item_of_head?_ne (h : c.skipBlanks.ahead.head? ≠ some '(') :
    c.item = c.skipBlanks.single := by
  unfold item
  dsimp only
  split
  · next hc => exact absurd (congrArg List.head? hc) h
  · rfl

end
end Cursor

namespace Buffered

section
variable {σ : Type} [CharSource σ] {text : List Char} {d : Feed σ text} {p f : Nat}

theorem lookahead_success (c : Option Char) (h : p < f) (hc : text[p]? = c) :
    lookahead c (.place d p f) = .ok ⟨true, none, none⟩ (.place d (p + 1) f) := by
  rw [lookahead_place c (Nat.le_of_lt h), if_pos hc, Nat.max_eq_left h]

theorem lookahead_failure (c : Option Char) (h : p < f) (hc : text[p]? ≠ c) :
    lookahead c (.place d p f) = .ok .nothing (.place d p f) := by
  rw [lookahead_place c (Nat.le_of_lt h), if_neg hc, Nat.max_eq_left h]

theorem list_of_open (h : p ≤ f) (ho : text[p]? = some '(') :
    list (.place d p f) =
      ((fun forms => .found (.form (.list forms))) <$> items [] : ReaderM σ Finding)
        (.place d (p + 1) (max f (p + 1))) := by
  have hguard := unread_place_lt (d := d) h (Nat.lt_succ_self p) (Nat.le_max_right f (p + 1))
    (List.getElem?_eq_some_iff.1 ho).1
  rw [list]
  cases hi : items [] (.place d (p + 1) (max f (p + 1))) with
  | ok forms t =>
    rw [map_ok hi]
    exact recognizer_found (recognizer_with h ho (bind_ok ((onward_eq hguard).trans hi))) rfl rfl
  | error e t =>
    rw [map_error hi]
    exact recognizer_error (recognizer_with h ho (bind_error ((onward_eq hguard).trans hi)))

theorem comment_of_other (h : p < f) (hc : text[p]? ≠ some ';') :
    comment (.place d p f) = .ok .nothing (.place d p f) := by
  unfold comment
  rw [recognizer_without ';' _ (Nat.le_of_lt h) hc, Nat.max_eq_left h]

section
variable {q : Nat} (h : p ≤ f) (hq : p + Token.blankCount (text.drop p) = q)
include h hq

theorem form_of_open (ho : text[q]? = some '(') :
    form (.place d p f) =
      ((fun forms => .found (.form (.list forms))) <$> items [] : ReaderM σ Finding)
        (.place d (q + 1) (max f (q + 1))) := by
  have hblanks := blanks_place (d := d) h hq
  have hpq : p ≤ q := hq ▸ Nat.le_add_right _ _
  have hqg : q < max f (q + 1) := Nat.le_max_right _ _
  have hguard : (Reader.place d q (max f (q + 1))).unread ≤ (Reader.place d p f).unread :=
    unread_place_le h hpq (Nat.le_of_lt hqg)
  have hcomment := comment_of_other (d := d) hqg (by rw [ho]; decide)
  have hlist := list_of_open (d := d) (Nat.le_of_lt hqg) ho
  rw [Nat.max_eq_left hqg] at hlist
  rw [form]
  cases hi : items [] (.place d (q + 1) (max f (q + 1))) with
  | ok forms t =>
    rw [map_ok hi] at hlist ⊢
    refine recognizer_found ((bind_ok hblanks).trans ((bind_ok ((firstOf_nothing hcomment).trans
      (firstOf_found ((onward_eq hguard).trans hlist) rfl))).trans ?_)) rfl rfl
    rfl
  | error e t =>
    rw [map_error hi] at hlist ⊢
    exact recognizer_error ((bind_ok hblanks).trans (bind_error ((firstOf_nothing hcomment).trans
      (firstOf_error ((onward_eq hguard).trans hlist)))))

variable (forms : List Form)

theorem items_of_close (hc : text[q]? = some ')') :
    items forms (.place d p f) = .ok forms (.place d (q + 1) (max f (q + 1))) := by
  have hblanks := blanks_place (d := d) h hq
  have hqg : q < max f (q + 1) := Nat.le_max_right _ _
  rw [items]
  exact (bind_ok hblanks).trans (bind_ok (lookahead_success (some ')') hqg hc))

theorem items_of_end (hn : text[q]? = none) :
    items forms (.place d p f) =
      raise .unterminatedList (.place d (q + 1) (max f (q + 1))) := by
  have hblanks := blanks_place (d := d) h hq
  have hqg : q < max f (q + 1) := Nat.le_max_right _ _
  have hclose := lookahead_failure (d := d) (some ')') hqg (by rw [hn]; decide)
  rw [items]
  refine (bind_ok hblanks).trans ((bind_ok hclose).trans ?_)
  exact bind_ok (lookahead_success none hqg hn)

/-- Before any other character an item is read, and then the ones behind it. -/
theorem items_of_item (hn : text[q]? ≠ none) (hc : text[q]? ≠ some ')') :
    items forms (.place d p f) =
      (do
        let a ← (form : ReaderM σ Finding)
        onward (·.unread < (Reader.place d p f).unread) fun t _h =>
          items (forms ++ (a.item?.bind Item.form?).toList) t) (.place d q (max f (q + 1))) := by
  have hblanks := blanks_place (d := d) h hq
  have hpq : p ≤ q := hq ▸ Nat.le_add_right _ _
  have hqg : q < max f (q + 1) := Nat.le_max_right _ _
  have hguard : (Reader.place d q (max f (q + 1))).unread ≤ (Reader.place d p f).unread :=
    unread_place_le h hpq (Nat.le_of_lt hqg)
  have hclose := lookahead_failure (d := d) (some ')') hqg hc
  have hnone := lookahead_failure (d := d) none hqg hn
  rw [items]
  refine (bind_ok hblanks).trans ((bind_ok hclose).trans ((bind_ok hnone).trans ?_))
  cases hf : form (.place d q (max f (q + 1))) with
  | ok a t =>
    rw [bind_ok hf]
    exact bind_ok ((onward_eq hguard).trans hf)
  | error e t =>
    rw [bind_error hf]
    exact bind_error ((onward_eq hguard).trans hf)

end

/-- What reading the items of a list comes to, and what reading on in the open lists comes to: the
list is closed at the same place, or the same fault is met, whatever lists are open around it. -/
inductive Closes {text : List Char} (d : Feed σ text) (start : Nat) (reversed : List Form)
    (c : Cursor) : Result σ (List Form) → Prop
  | closed {forms : List Form} {p f : Nat} : start < p → p ≤ f →
      (∀ outer, c.readOpen outer reversed =
        Cursor.behindList outer (.list forms) (d.cursor p f)) →
      Closes d start reversed c (.ok forms (.place d p f))
  | failed {e : SyntaxError} {p f : Nat} : p ≤ f →
      (∀ outer, c.readOpen outer reversed = .failed e (d.cursor p f)) →
      Closes d start reversed c (.error (.error e) (.place d p f))

theorem Closes.of_eq {start next : Nat} {reversed more : List Form} {c after : Cursor}
    {x : Result σ (List Form)} (h : Closes d next more after x) (hstart : start ≤ next)
    (hread : ∀ outer, c.readOpen outer reversed = after.readOpen outer more) :
    Closes d start reversed c x := by
  cases h with
  | closed hp hf hc =>
    exact .closed (Nat.lt_of_le_of_lt hstart hp) hf fun outer => (hread outer).trans (hc outer)
  | failed hf hc => exact .failed hf fun outer => (hread outer).trans (hc outer)

theorem blankCount_behind {q : Nat} (hq : p + Token.blankCount (text.drop p) = q) :
    q + Token.blankCount (text.drop q) = q := by
  rw [← hq, ← List.drop_drop, Token.blankCount_drop_blankCount]
  rfl

theorem head?_ahead_place (d : Feed σ text) (p f : Nat) :
    (d.cursor p f).ahead.head? = text[p]? :=
  List.head?_drop

theorem take_place (h : p ≤ f) :
    (d.cursor p f).take 1 = d.cursor (p + 1) (max f (p + 1)) := by
  rw [Cursor.take, look_place h, advance_place]

section
variable {q g : Nat} (h : p ≤ f) (hq : p + Token.blankCount (text.drop p) = q)
  (hg : max f (q + 1) = g)
include h hq hg

theorem skipBlanks_to : (d.cursor p f).skipBlanks = d.cursor q g := by
  rw [skipBlanks_place h hq, hg]

theorem ahead_skipBlanks_to : (d.cursor p f).skipBlanks.ahead = text.drop q := by
  rw [skipBlanks_to h hq hg]
  rfl

theorem take_skipBlanks_to : (d.cursor p f).skipBlanks.take 1 = d.cursor (q + 1) g := by
  have hqg : q < g := hg ▸ Nat.le_max_right _ _
  rw [skipBlanks_to h hq hg, take_place (Nat.le_of_lt hqg), Nat.max_eq_left hqg]

variable {ch : Char} (hchar : text[q]? = some ch) (hclose : ch ≠ ')') {forms : List Form}
include hchar hclose

theorem closes_of_item {i : Item} {adjustment? : Option Int} {r s : Nat} (hr : q < r) (hs : r ≤ s)
    (hform : form (.place d q g) = .ok ⟨true, some i, adjustment?⟩ (.place d r s))
    (hread : ∀ outer, (d.cursor p f).readOpen outer forms.reverse =
      (d.cursor r s).readOpen outer (i.form?.toList ++ forms.reverse))
    (hnext : Closes d r (forms ++ i.form?.toList).reverse (d.cursor r s)
      (items (forms ++ i.form?.toList) (.place d r s))) :
    Closes d p forms.reverse (d.cursor p f) (items forms (.place d p f)) := by
  have hlength := (List.getElem?_eq_some_iff.1 hchar).1
  have hitem := items_of_item (d := d) h hq forms (by simp [hchar]) (by simpa [hchar] using hclose)
  have hlt : (Reader.place d r s).unread < (Reader.place d p f).unread :=
    unread_place_lt h (by omega) hs (by omega)
  have hreverse : (forms ++ i.form?.toList).reverse = i.form?.toList ++ forms.reverse := by
    cases i <;> simp [Item.form?]
  rw [hg] at hitem
  rw [hitem, bind_ok hform, onward_eq hlt]
  refine hnext.of_eq (by omega) fun outer => ?_
  rw [hread outer, hreverse]

theorem closes_of_error {e : SyntaxError} {r s : Nat} (hs : r ≤ s)
    (hform : form (.place d q g) = .error (.error e) (.place d r s))
    (hread : ∀ outer, (d.cursor p f).readOpen outer forms.reverse =
      .failed e (d.cursor r s)) :
    Closes d p forms.reverse (d.cursor p f) (items forms (.place d p f)) := by
  have hitem := items_of_item (d := d) h hq forms (by simp [hchar]) (by simpa [hchar] using hclose)
  rw [hg] at hitem
  rw [hitem, bind_error hform]
  exact .failed hs hread

end

section
variable {q g : Nat} (h : p ≤ f) (hq : p + Token.blankCount (text.drop p) = q)
  (hg : max f (q + 1) = g) {forms : List Form}
  (hnext : ∀ r s (more : List Form), q < r → r ≤ s →
    Closes d r more.reverse (d.cursor r s) (items more (.place d r s)))
include h hq hg hnext

theorem closes_of_open (hchar : text[q]? = some '(') :
    Closes d p forms.reverse (d.cursor p f) (items forms (.place d p f)) := by
  obtain ⟨cs, hcs⟩ := exists_drop_eq_cons hchar
  have hqg : q < g := hg ▸ Nat.le_max_right _ _
  have hpiece := Cursor.piece_of_open ((ahead_skipBlanks_to (d := d) h hq hg).trans hcs)
  rw [take_skipBlanks_to h hq hg] at hpiece
  have hform := form_of_open (d := d) (Nat.le_of_lt hqg) (blankCount_behind hq) hchar
  rw [Nat.max_eq_left hqg] at hform
  have hinner := hnext (q + 1) g [] (Nat.lt_succ_self q) hqg
  generalize hx : items [] (.place d (q + 1) g) = x at hinner
  cases hinner with
  | closed hr hs hc =>
    rw [map_ok hx] at hform
    have hqr := Nat.lt_of_succ_lt hr
    refine closes_of_item h hq hg hchar (by decide) hqr hs hform (fun outer => ?_)
      (hnext _ _ _ hqr hs)
    rw [Cursor.readOpen_of_opening _ _ hpiece]
    exact hc _
  | failed hs hc =>
    rw [map_error hx] at hform
    refine closes_of_error h hq hg hchar (by decide) hs hform fun outer => ?_
    rw [Cursor.readOpen_of_opening _ _ hpiece]
    exact hc _

theorem closes_of_single {ch : Char} (hchar : text[q]? = some ch) (hclose : ch ≠ ')')
    (hopen : ch ≠ '(') :
    Closes d p forms.reverse (d.cursor p f) (items forms (.place d p f)) := by
  obtain ⟨cs, hcs⟩ := exists_drop_eq_cons hchar
  have hqg : q < g := hg ▸ Nat.le_max_right _ _
  have hpiece :=
    Cursor.piece_of_other ((ahead_skipBlanks_to (d := d) h hq hg).trans hcs) hclose hopen
  rw [skipBlanks_to h hq hg] at hpiece
  have hagree := form_agree_single (d := d) (Nat.le_of_lt hqg) (blankCount_behind hq)
    (by simpa [hchar] using hopen)
  rw [Nat.max_eq_left hqg] at hagree
  generalize hx : form (.place d q g) = x at hagree
  generalize hs : (d.cursor q g).single = s at hagree hpiece
  cases s with
  | found i c =>
    cases hagree with
    | found hp hi hf =>
      exact closes_of_item h hq hg hchar hclose (hi rfl) hf hx
        (fun outer => Cursor.readOpen_of_item _ _ hpiece) (hnext _ _ _ (hi rfl) hf)
  | absent c => exact absurd hs (Cursor.single_ne_absent _ _)
  | failed e c =>
    cases hagree with
    | failed hf =>
      exact closes_of_error h hq hg hchar hclose hf hx fun outer =>
        Cursor.readOpen_of_failed _ _ hpiece

end

theorem items_closes (h : p ≤ f) (forms : List Form) :
    Closes d p forms.reverse (d.cursor p f) (items forms (.place d p f)) := by
  -- By induction on the characters left: behind every item, and inside a list, there are fewer.
  induction hn : text.length - p using Nat.strong_induction_on generalizing p f forms with
  | _ n ih =>
  subst hn
  obtain ⟨q, hq⟩ : ∃ q, p + Token.blankCount (text.drop p) = q := ⟨_, rfl⟩
  obtain ⟨g, hg⟩ : ∃ g, max f (q + 1) = g := ⟨_, rfl⟩
  have hpq : p ≤ q := hq ▸ Nat.le_add_right _ _
  have hqg : q < g := hg ▸ Nat.le_max_right _ _
  have hahead := ahead_skipBlanks_to (d := d) h hq hg
  have htake := take_skipBlanks_to (d := d) h hq hg
  cases hd : text.drop q with
  | nil =>
    have hchar := getElem?_of_drop hd
    rw [hd] at hahead
    rw [items_of_end h hq _ hchar, hg]
    refine .failed hqg fun outer => ?_
    rw [Cursor.readOpen_of_absent _ _ (Cursor.piece_of_nil hahead), htake]
    rfl
  | cons ch cs =>
    have hchar : text[q]? = some ch := getElem?_of_drop hd
    have hlength : q < text.length := (List.getElem?_eq_some_iff.1 hchar).1
    have hnext (r s : Nat) (more : List Form) (hr : q < r) (hs : r ≤ s) :
        Closes d r more.reverse (d.cursor r s) (items more (.place d r s)) :=
      ih _ (by omega) hs more rfl
    rw [hd] at hahead
    by_cases hclose : ch = ')'
    · subst hclose
      rw [items_of_close h hq _ hchar, hg]
      refine .closed (Nat.lt_succ_of_le hpq) hqg fun outer => ?_
      rw [Cursor.readOpen_of_closing _ _ (Cursor.piece_of_close hahead), htake,
        Form.ofReversed, List.reverse_reverse]
    by_cases hopen : ch = '('
    · subst hopen
      exact closes_of_open h hq hg hnext hchar
    · exact closes_of_single h hq hg hnext hchar hclose hopen

theorem Closes.agree {start next : Nat} {c : Cursor} {r : Reader σ}
    (h : Closes d next [] c (items [] r)) (hle : start ≤ next) :
    Agree d start
      (((fun forms => .found (.form (.list forms))) <$> items [] : ReaderM σ Finding) r)
      ((c.readOpen [] []).map (some ∘ .form)) := by
  generalize hx : items [] r = x at h
  cases h with
  | closed hp hf hc =>
    rw [map_ok hx, hc []]
    exact .found (by omega) (fun _ => by omega) hf
  | failed hf hc =>
    rw [map_error hx, hc []]
    exact .failed hf

theorem list_agree (h : p ≤ f) :
    Agree d p (list (.place d p f))
      ((d.cursor p f).list.map (some ∘ .form)) := by
  by_cases ho : text[p]? = some '('
  · obtain ⟨cs, hcs⟩ := exists_drop_eq_cons ho
    rw [list_of_open h ho, Cursor.list_of_opening hcs, take_place h]
    exact (items_closes (Nat.le_max_right f (p + 1)) []).agree (Nat.le_succ p)
  · have hahead : (d.cursor p f).ahead.head? ≠ some '(' := by
      rwa [head?_ahead_place]
    rw [list_of_other h ho, Cursor.list_of_head?_ne hahead, look_place h]
    exact .nothing (by omega)

theorem form_agree (h : p ≤ f) :
    Agree d p (form (.place d p f)) ((d.cursor p f).item.map some) := by
  obtain ⟨q, hq⟩ : ∃ q, p + Token.blankCount (text.drop p) = q := ⟨_, rfl⟩
  have hskip := skipBlanks_place (d := d) h hq
  by_cases ho : text[q]? = some '('
  · obtain ⟨cs, hcs⟩ := exists_drop_eq_cons ho
    have hahead : (d.cursor p f).skipBlanks.ahead = '(' :: cs := by
      rw [hskip]
      exact hcs
    have hpq : p ≤ q + 1 := by omega
    have hqg : q < max f (q + 1) := Nat.le_max_right _ _
    rw [form_of_open h hq ho, Cursor.item_of_opening hahead, hskip, take_place (Nat.le_of_lt hqg),
      Nat.max_eq_left hqg, Scan.map_map]
    exact (items_closes hqg []).agree hpq
  · have hahead : (d.cursor p f).skipBlanks.ahead.head? ≠ some '(' := by
      rwa [hskip, head?_ahead_place]
    rw [Cursor.item_of_head?_ne hahead, hskip]
    exact form_agree_single h hq ho

end
end Buffered
end StackLang
