import StackLang.Proofs.Reader.Fetching
import StackLang.Proofs.Reader.Lines

namespace StackLang

def Form.isNumber : Form → Bool
  | .int _ | .float _ => true
  | .symbol _ | .text _ | .list _ => false

theorem Item.openEnded_of_isNumber {i : Item} (h : i.form?.any Form.isNumber = true) :
    i.openEnded = true := by
  cases i with
  | comment remark => cases h
  | form f =>
    cases f with
    | int | float => rfl
    | symbol | text | list => cases h

def Course.endsInNumber (course : Course) : Bool :=
  course.steps.any fun (i, after) => after.ahead.isEmpty && i.form?.any Form.isNumber

namespace Grammar
open Token

theorem read_dropWhile_append (inside : Bool) (cs more : List Char) :
    read inside (cs.dropWhile isBlank ++ more) = read inside (cs ++ more) := by
  induction cs with
  | nil => rfl
  | cons c cs ih =>
    by_cases hc : isBlank c = true
    · rw [List.dropWhile_cons_of_pos hc, ih, List.cons_append, read_blank hc]
    · rw [List.dropWhile_cons_of_neg hc]

/-- A comment on the last line is all that is left of a text. -/
theorem read_last_comment {body : List Char} (h : '\n' ∉ body) :
    read false (';' :: body) = .ok ([], []) := by
  have hbody : ∀ c ∈ body, decide (c ≠ '\n') = true := by
    intro c hc
    rw [decide_eq_true_iff]
    rintro rfl
    exact h hc
  have hafter : afterComment body = [] := by
    rw [afterComment, List.dropWhile_eq_nil_iff.2 hbody]
    rfl
  rw [read_comment, hafter, read_nil]
  rfl

/-- At the end of a text a run is a number or a symbol. -/
theorem atom_none_cases (run : List Char) :
    (atom run none).isNumber = true ∨ atom run none = .symbol (String.ofList run) := by
  have hends : endsNumber none = true := rfl
  cases hf : float? run with
  | some x =>
    have ha : atom run none = .float x := by rw [atom, if_pos hends, hf]
    exact .inl (ha ▸ rfl)
  | none =>
    cases hv : Decimal.value? run with
    | some n =>
      have ha : atom run none = .int n := by rw [atom, if_pos hends, hf, hv]
      exact .inl (ha ▸ rfl)
    | none =>
      have ha : atom run none = .symbol (String.ofList run) := by rw [atom, if_pos hends, hf, hv]
      exact .inr ha

/-- In front of a comment a run is always a symbol. -/
theorem atom_semicolon (run : List Char) : atom run (some ';') = .symbol (String.ofList run) := by
  rw [atom, if_neg (by decide)]

theorem read_last_run {run : List Char} (hrun : ∀ c ∈ run, isSymbolic c = true) (hne : run ≠ []) :
    read false run = .ok ([atom run none], []) := by
  have hr := @read_run run [] hrun hne nofun false
  rw [List.append_nil, read_nil] at hr
  exact hr

theorem read_run_comment {run body : List Char} (hrun : ∀ c ∈ run, isSymbolic c = true)
    (hne : run ≠ []) (h : '\n' ∉ body) :
    read false (run ++ ';' :: body) = .ok ([.symbol (String.ofList run)], []) := by
  have hstop : Stops isSymbolic (';' :: body) := by
    intro c hc
    cases hc
    rfl
  rw [read_run hrun hne hstop, read_last_comment h, List.head?_cons, atom_semicolon]
  rfl

end Grammar

namespace Token

/-- What only the end of the text ends: a comment, or a run of symbol characters. -/
inductive Last : List Char → Item → Prop
  | comment {body : List Char} (h : '\n' ∉ body) :
      Last (';' :: body) (.comment (String.ofList body))
  | run {run : List Char} (hrun : ∀ c ∈ run, isSymbolic c = true) (hne : run ≠ []) :
      Last run (.form (Grammar.atom run none))

/-- What is recognized is known before the end of the text, unless it is the last thing there. -/
theorem any_last {cs : List Char} {i : Item} {taken examined : Nat}
    (h : any cs = .hit i taken examined) : examined ≤ cs.length ∨ Last cs i := by
  cases front cs with
  | comment cs =>
    obtain ⟨body, rest, rfl, hbody, hrest⟩ := run_cases (fun c => decide (c ≠ '\n')) cs
    have hw : (body ++ rest).takeWhile (· ≠ '\n') = body := takeWhile_run hbody hrest
    change comment (';' :: (body ++ rest)) = _ at h
    rw [comment, hw] at h
    cases h
    cases rest with
    | nil =>
      rw [List.append_nil]
      exact .inr (.comment fun hn => by simpa using hbody '\n' hn)
    | cons c rest =>
      refine .inl ?_
      simp only [List.length_cons, List.length_append]
      omega
  | text cs =>
    rw [any_text] at h
    rcases hb : textBody cs with _ | ⟨value, width⟩ <;> rw [hb] at h <;> cases h
    exact .inl (Nat.succ_le_succ (textBody_width_le hb))
  | @run run rest hrun hne hrest =>
    rw [any_run hrun hne hrest] at h
    cases h
    cases rest with
    | nil =>
      rw [List.append_nil]
      exact .inr (.run hrun hne)
    | cons c rest =>
      refine .inl ?_
      simp only [List.length_append, List.length_cons]
      omega
  | other hs hc hq =>
    rw [any_invalid hs hc hq] at h
    cases h

end Token

namespace Cursor

variable {text : List Char} {c : Cursor}

theorem Settled.single_last (h : c.Settled text) (ha : c.ahead ≠ []) {i : Item} {after : Cursor}
    (hs : c.single = .found i after) : after.fetched ≤ text.length ∨ Token.Last c.ahead i := by
  have hp := h.position_lt ha
  have hl := h.length_ahead
  cases hany : Token.any c.ahead with
  | hit j taken examined =>
    have hlast := Token.any_last hany
    have hpos := Token.any_proper _ _ _ _ hany
    have hexamined := Token.examined_any hany
    rw [single_of_hit hany] at hs
    cases hs
    have hf : ((c.look examined).advance taken).fetched = c.position + examined :=
      h.fetched_look_advance (by omega)
    exact hlast.imp_left fun he => by omega
  | miss examined => rw [single_of_miss hany] at hs; cases hs
  | broken fault taken => rw [single_of_broken hany] at hs; cases hs

theorem Settled.next_last (h : c.Settled text) {i : Item} {after : Cursor}
    (hn : c.next = .found i after) :
    after.fetched ≤ text.length ∨ Token.Last c.skipBlanks.ahead i := by
  cases ha : c.skipBlanks.ahead with
  | nil => rw [next_of_nil ha] at hn; cases hn
  | cons ch cs =>
    by_cases ho : ch = '('
    · subst ho
      rw [next_of_open ha] at hn
      obtain ⟨f, hr, -⟩ := Scan.map_eq_found hn
      exact .inl ((h.skipBlanks.take Nat.one_pos).fetched_of_readOpen hr).2.2
    · rw [next_of_other ha ho] at hn
      rw [← ha]
      exact h.skipBlanks.single_last (by simp [ha]) hn

/-- A number that is known before the end of the text has something behind it. -/
theorem Settled.number_of_next (h : c.Settled text) {i : Item} {after : Cursor}
    (hn : c.next = .found i after) (hf : after.fetched ≤ text.length) :
    after.ahead ≠ [] ∨ i.form?.any Form.isNumber = false := by
  have hopen := h.fetched_of_next hn
  cases hnumber : i.form?.any Form.isNumber with
  | false => exact .inr rfl
  | true =>
    rw [if_pos (Item.openEnded_of_isNumber hnumber)] at hopen
    refine .inl ?_
    rw [(h.of_next hn).ahead_eq, Ne, List.drop_eq_nil_iff]
    omega

theorem Settled.outcome_on_append (h : c.Settled text) (hp : c.position ≤ text.length)
    (more : List Char) : (Course.ofCursor (c.on (text ++ more))).outcome =
      (Grammar.read false (c.skipBlanks.ahead ++ more)).map Prod.fst := by
  rw [Course.outcome_ofCursor, h.ahead_on_append hp, ahead_skipBlanks,
    Grammar.read_dropWhile_append]

end Cursor

/-- The forms that a text has with a comment right behind it, next to those it has by itself. Where
the text ends in a number, a symbol of the same characters takes its place. -/
inductive Commented (text : List Char) (forms : List Form) : Bool → List Form → Prop
  | same : Commented text forms false forms
  | number {front : List Form} {number : Form} {name : String}
      (hforms : forms = front ++ [number]) (hnumber : number.isNumber = true)
      (hname : readText name = .ok [number]) (hend : name.toList <:+ text) :
      Commented text forms true (front ++ [.symbol name])

theorem Commented.cons {text : List Char} {forms after : List Form} {inNumber : Bool}
    (h : Commented text forms inNumber after) (f : Form) :
    Commented text (f :: forms) inNumber (f :: after) := by
  cases h with
  | same => exact .same
  | @number front number name hforms hnumber hname hend =>
    have hcons : f :: forms = (f :: front) ++ [number] := congrArg (f :: ·) hforms
    exact .number hcons hnumber hname hend

theorem Commented.eq_iff {text : List Char} {forms after : List Form} {inNumber : Bool}
    (h : Commented text forms inNumber after) : after = forms ↔ inNumber = false := by
  cases h with
  | same => exact iff_of_true rfl rfl
  | @number front number name hforms hnumber _ _ =>
    refine iff_of_false ?_ nofun
    rw [hforms]
    intro h
    cases List.append_cancel_left h
    cases hnumber

namespace Course

variable {text body : List Char} {c : Cursor}

theorem endsInNumber_cons {i : Item} {after final : Cursor} {steps : List (Item × Cursor)}
    {error? : Option SyntaxError}
    (h : after.ahead ≠ [] ∨ i.form?.any Form.isNumber = false) :
    (Course.mk ((i, after) :: steps) error? final).endsInNumber =
      (Course.mk steps error? final).endsInNumber := by
  have hfirst : (after.ahead.isEmpty && i.form?.any Form.isNumber) = false := by
    rcases h with h | h
    · simp [h]
    · simp [h]
  simp [endsInNumber, hfirst]

theorem endsInNumber_singleton {i : Item} {after final : Cursor} {error? : Option SyntaxError}
    (h : after.ahead = []) :
    (Course.mk [(i, after)] error? final).endsInNumber = i.form?.any Form.isNumber := by
  simp [endsInNumber, h]

theorem outcome_eq_ok {course : Course} {forms : List Form} :
    course.outcome = .ok forms ↔ course.error? = none ∧ course.forms = forms := by
  unfold outcome
  cases course.error? <;> simp

/-- The last item of a text, which only the end of the text ends, in front of a comment. -/
theorem commented_last (h : c.Settled text) (hp : c.position ≤ text.length) {i : Item}
    {after final : Cursor} (hlast : Token.Last c.skipBlanks.ahead i) (hend : after.ahead = [])
    (hbody : '\n' ∉ body) :
    ∃ forms, (ofCursor (c.on (text ++ ';' :: body))).outcome = .ok forms ∧
      Commented text (Course.mk [(i, after)] none final).forms
        (Course.mk [(i, after)] none final).endsInNumber forms := by
  have hsuffix : c.skipBlanks.ahead <:+ text := by
    rw [h.skipBlanks.ahead_eq]
    exact List.drop_suffix _ _
  rw [h.outcome_on_append hp, endsInNumber_singleton hend]
  generalize c.skipBlanks.ahead = cs at hlast hsuffix
  cases hlast with
  | @comment remark hremark =>
    have hn : '\n' ∉ remark ++ ';' :: body := by simp [hremark, hbody]
    rw [List.cons_append, Grammar.read_last_comment hn]
    exact ⟨[], rfl, .same⟩
  | run hrun hne =>
    rw [Grammar.read_run_comment hrun hne hbody]
    refine ⟨[.symbol (String.ofList cs)], rfl, ?_⟩
    change Commented text [Grammar.atom cs none] (Grammar.atom cs none).isNumber _
    rcases Grammar.atom_none_cases cs with hnumber | hsymbol
    · have hname : readText (String.ofList cs) = .ok [Grammar.atom cs none] :=
        readText_eq_ok (Grammar.read_last_run hrun hne)
      have halone : [Grammar.atom cs none] = [] ++ [Grammar.atom cs none] := rfl
      rw [hnumber]
      exact .number halone hnumber hname (by rwa [String.toList_ofList])
    · rw [hsymbol]
      exact .same

/-- A comment behind a text is read as a comment, and what is in front of it as before. -/
theorem commented_ofCursor (h : c.Settled text) (hf : c.fetched ≤ text.length)
    (he : (ofCursor c).error? = none) (hbody : '\n' ∉ body) :
    ∃ forms, (ofCursor (c.on (text ++ ';' :: body))).outcome = .ok forms ∧
      Commented text (ofCursor c).forms (ofCursor c).endsInNumber forms := by
  fun_induction ofCursor c with
  | case1 c i after hn rest ih =>
    have hs := h.of_next hn
    by_cases hfetched : after.fetched ≤ text.length
    · have hagree : text.take text.length = (text ++ ';' :: body).take text.length := by
        rw [List.take_length, List.take_left]
      have hon := h.next_of_agree hagree (by rw [hn]; exact hfetched)
      rw [hn] at hon
      rw [ofCursor_of_found hon]
      obtain ⟨forms, ho, hc⟩ := ih hs hfetched he
      rw [endsInNumber_cons (h.number_of_next hn hfetched)]
      cases i with
      | form f =>
        rw [outcome_cons_form, ho]
        exact ⟨f :: forms, rfl, hc.cons f⟩
      | comment remark => exact ⟨forms, ho, hc⟩
    · have hlast := (h.next_last hn).resolve_left hfetched
      have hend : after.ahead = [] := hs.ahead_eq_nil (Nat.lt_of_not_le hfetched)
      have hrest : rest = ⟨[], none, after.skipBlanks.take 1⟩ :=
        ofCursor_of_absent (Cursor.next_of_nil (by rw [Cursor.ahead_skipBlanks, hend]; rfl))
      rw [hrest]
      exact commented_last h (Nat.le_trans h.position_le hf) hlast hend hbody
  | case2 c after hn =>
    rw [h.outcome_on_append (Nat.le_trans h.position_le hf), Cursor.skipBlanks_of_absent hn,
      List.nil_append, Grammar.read_last_comment hbody]
    exact ⟨[], rfl, .same⟩
  | case3 c e after hn => cases he

end Course

theorem readText_comment {text : String} {forms : List Form} (h : readText text = .ok forms)
    {body : String} (hbody : '\n' ∉ body.toList) :
    ∃ after, readText (text ++ ";" ++ body) = .ok after ∧
      Commented text.toList forms (Course.ofText text.toList).endsInNumber after := by
  obtain ⟨he, rfl⟩ := readText_eq_ok_iff.1 h
  obtain ⟨after, ho, hc⟩ :=
    Course.commented_ofCursor (Cursor.settled_start text.toList) (Nat.zero_le _) he hbody
  have htext : (text ++ ";" ++ body).toList = text.toList ++ ';' :: body.toList := by simp
  refine ⟨after, ?_, hc⟩
  rw [readText_eq_ok_iff, htext]
  exact Course.outcome_eq_ok.1 ho

theorem readText_line {text : String} {forms : List Form} (h : readText text = .ok forms)
    (more : String) : readText (text ++ "\n" ++ more) =
      ((readText more).map (forms ++ ·)).mapError (.behind (text.toList ++ ['\n'])) := by
  obtain ⟨he, rfl⟩ := readText_eq_ok_iff.1 h
  have htext : (text ++ "\n" ++ more).toList = text.toList ++ '\n' :: more.toList := by simp
  rw [readText, htext, Course.error?_line he, Course.forms_line he, readText]
  cases (Course.ofText more.toList).error? <;> rfl

/-- A comment may stand in front of a line end. Behind a text that is read without fault it changes
nothing, neither the forms nor a fault and its line, unless the text ends right behind a number and
no fault follows; then that number, and nothing else, becomes a symbol. -/
theorem readText_comment_behind {text : String} {forms : List Form}
    (h : readText text = .ok forms) {body : String} (hbody : '\n' ∉ body.toList) (more : String) :
    (readText (text ++ ";" ++ body ++ "\n" ++ more) = readText (text ++ "\n" ++ more) ↔
      (Course.ofText text.toList).endsInNumber = false ∨ ∃ e, readText more = .error e) ∧
    ((Course.ofText text.toList).endsInNumber = true →
      ∃ front number name, forms = front ++ [number] ∧ number.isNumber = true ∧
        readText name = .ok [number] ∧ name.toList <:+ text.toList ∧
        ∀ below, readText more = .ok below →
          readText (text ++ ";" ++ body ++ "\n" ++ more) =
            .ok (front ++ .symbol name :: below)) := by
  obtain ⟨after, hafter, hc⟩ := readText_comment h hbody
  have hlines : SyntaxError.behind ((text ++ ";" ++ body).toList ++ ['\n']) =
      .behind (text.toList ++ ['\n']) := by
    have hcount : body.toList.count '\n' = 0 := List.count_eq_zero.2 hbody
    funext e
    simp [SyntaxError.behind, List.count_append, hcount]
  -- Both texts are read line by line; the lines below are the same and as far down in both.
  have hplain := readText_line h more
  have hcomment := readText_line hafter more
  rw [hlines] at hcomment
  constructor
  · rw [hplain, hcomment]
    cases hm : readText more with
    | error e => exact iff_of_true rfl (.inr ⟨e, rfl⟩)
    | ok below =>
      have hforms : after ++ below = forms ++ below ↔ after = forms := List.append_left_inj below
      rw [← hc.eq_iff, ← hforms]
      constructor
      · exact fun he => .inl (Except.ok.inj he)
      · rintro (he | ⟨e, he⟩)
        · exact congrArg Except.ok he
        · cases he
  · intro hends
    rw [hends] at hc
    cases hc with
    | @number front number name hforms hnumber hname hend =>
      refine ⟨front, number, name, hforms, hnumber, hname, hend, fun below hm => ?_⟩
      rw [hcomment, hm]
      change Except.ok (front ++ [.symbol name] ++ below) = _
      rw [List.append_assoc]
      rfl

/-- A blank behind a number keeps a comment away from it. -/
theorem readText_comment_behind_blank :
    readText ("5 " ++ ";" ++ "(" ++ "\n" ++ "y") = readText ("5 " ++ "\n" ++ "y") ∧
      readText ("5" ++ ";" ++ "(" ++ "\n" ++ "y") ≠ readText ("5" ++ "\n" ++ "y") := by
  have hblank : Course.ofText "5 ".toList =
      ⟨[(.form (.int 5), ⟨[' '], 1, 2, 1⟩)], none, ⟨[], 3, 3, 1⟩⟩ := by
    rw [Course.ofText, Course.ofCursor_of_found rfl, Course.ofCursor_of_absent rfl]
    rfl
  have hnumber : Course.ofText "5".toList =
      ⟨[(.form (.int 5), ⟨[], 1, 2, 1⟩)], none, ⟨[], 2, 2, 1⟩⟩ := by
    rw [Course.ofText, Course.ofCursor_of_found rfl, Course.ofCursor_of_absent rfl]
    rfl
  have hread : readText "5 " = .ok [.int 5] := by
    rw [readText_eq_ok_iff, hblank]
    exact ⟨rfl, rfl⟩
  have hread' : readText "5" = .ok [.int 5] := by
    rw [readText_eq_ok_iff, hnumber]
    exact ⟨rfl, rfl⟩
  have hmore : readText "y" = .ok [.symbol "y"] := by
    rw [readText_eq_ok_iff, Course.ofText, Course.ofCursor_of_found rfl,
      Course.ofCursor_of_absent rfl]
    exact ⟨rfl, rfl⟩
  have hbody : '\n' ∉ "(".toList := by decide
  have hsame := (readText_comment_behind hread hbody "y").1
  have hchanged := (readText_comment_behind hread' hbody "y").1
  refine ⟨hsame.2 (.inl (by rw [hblank]; rfl)), fun he => ?_⟩
  rcases hchanged.1 he with hf | ⟨e, herror⟩
  · rw [hnumber] at hf
    cases hf
  · rw [hmore] at herror
    cases herror

/-- A number that is read as one in front of a line end, but not in front of a comment. -/
theorem readText_number_comment :
    readText "5" = .ok [.int 5] ∧ readText ("5" ++ "\n" ++ "") = .ok [.int 5] ∧
      readText ("5" ++ ";" ++ "c" ++ "\n" ++ "") = .ok [.symbol "5"] := by
  refine ⟨?_, ?_, ?_⟩
  · rw [readText_eq_ok_iff, Course.ofText, Course.ofCursor_of_found rfl,
      Course.ofCursor_of_absent rfl]
    exact ⟨rfl, rfl⟩
  · rw [readText_eq_ok_iff, Course.ofText, Course.ofCursor_of_found rfl,
      Course.ofCursor_of_absent rfl]
    exact ⟨rfl, rfl⟩
  · rw [readText_eq_ok_iff, Course.ofText, Course.ofCursor_of_found rfl,
      Course.ofCursor_of_found rfl, Course.ofCursor_of_absent rfl]
    exact ⟨rfl, rfl⟩

end StackLang
