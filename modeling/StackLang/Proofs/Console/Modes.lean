import StackLang.Proofs.Console.Reading
import StackLang.Proofs.Reader.LineEnd
import StackLang.Proofs.Session.Notes

namespace StackLang.Console

namespace Output

def isPrompt : Output → Bool
  | .prompt _ => true
  | _ => false

def isErr : Output → Bool
  | .err _ => true
  | _ => false

end Output

def spoken (outputs : List Output) : List Output := outputs.filter (!·.isPrompt)

theorem spoken_append (os more : List Output) : spoken (os ++ more) = spoken os ++ spoken more :=
  List.filter_append ..

theorem spoken_prompts {notices : List Notice} (h : ∀ notice ∈ notices, ∃ p, notice = .prompt p) :
    spoken (notices.map .ofNotice) = [] := by
  rw [spoken, List.filter_eq_nil_iff]
  intro o ho
  obtain ⟨notice, hn, rfl⟩ := List.mem_map.1 ho
  obtain ⟨p, rfl⟩ := h notice hn
  exact nofun

theorem spoken_pull_of_le {source : LineSource} (he : source.ended = false) {n : Nat}
    (hn : n ≤ source.delivered.length) : spoken ((source.pull n).1.map .ofNotice) = [] :=
  spoken_prompts (LineSource.pull_of_le he hn).2.2

theorem spoken_pull_of_lt {source : LineSource} (he : source.ended = false) {n : Nat}
    (hn : source.delivered.length < n) :
    spoken ((source.pull n).1.map .ofNotice) = [.out "\n"] := by
  obtain ⟨prompts, hp, ha⟩ := LineSource.pull_of_lt he hn
  rw [hp, List.map_append, spoken_append, spoken_prompts ha]
  rfl

theorem answer_fst (s : Session) (f : Form) :
    (answer s f).1 =
      (Session.respond f s).2.trace.events.toList.map (fun e => Output.err e.line) ++
        (Session.respond f s).1.toList.map (.out <| · ++ "\n") := rfl

theorem spoken_answer (s : Session) (f : Form) : spoken (answer s f).1 = (answer s f).1 := by
  rw [answer_fst, spoken, List.filter_append, List.filter_map, List.filter_map]
  simp [Function.comp_def, Output.isPrompt]

/-- Between prompts, forms are answered as they are without them. A line end follows if the text has
been fetched to its end. -/
theorem converse_eq {text : List Char} (final : Cursor) {steps : List (Form × Cursor)}
    (hsteps : ∀ step ∈ steps, step.2.fetched ≤ text.length)
    (hascending : steps.Pairwise (·.2.fetched ≤ ·.2.fetched)) (s : Session) {source : LineSource}
    {fetched : Nat} (he : source.ended = false) (hd : source.delivered = text.drop fetched)
    (hf : fetched ≤ text.length) (hfirst : ∀ step ∈ steps, fetched ≤ step.2.fetched) :
    spoken (converse s source fetched final steps).1 = (answerAll s (steps.map Prod.fst)).1 ++
        (if final.fetched ≤ text.length then [] else [.out "\n"]) ∧
      (converse s source fetched final steps).2 = (answerAll s (steps.map Prod.fst)).2 := by
  -- What the source delivers next is always what the reader has not fetched yet.
  induction steps generalizing s source fetched with
  | nil =>
    have hstart : source.startForm.ended = false := he
    have hlength : source.startForm.delivered.length = text.length - fetched :=
      (congrArg List.length hd).trans List.length_drop
    refine ⟨?_, rfl⟩
    change spoken ((source.startForm.pull (final.fetched - fetched)).1.map .ofNotice) = _
    by_cases hn : final.fetched ≤ text.length
    · rw [if_pos hn, spoken_pull_of_le hstart (by omega)]
      rfl
    · rw [if_neg hn, spoken_pull_of_lt hstart (by omega)]
      rfl
  | cons step steps ih =>
    obtain ⟨hthis, hlater⟩ := List.forall_mem_cons.1 hsteps
    obtain ⟨hfrom, -⟩ := List.forall_mem_cons.1 hfirst
    obtain ⟨hnext, hascending⟩ := List.pairwise_cons.1 hascending
    have hstart : source.startForm.ended = false := he
    have hdelivered : source.startForm.delivered = text.drop fetched := hd
    have hpull : step.2.fetched - fetched ≤ source.startForm.delivered.length := by
      rw [hdelivered, List.length_drop]
      omega
    obtain ⟨he', hd', -⟩ := LineSource.pull_of_le hstart hpull
    rw [hdelivered, List.drop_drop, Nat.add_sub_cancel' hfrom] at hd'
    obtain ⟨hspoken, hsession⟩ := ih hlater hascending (answer s step.1).2 he' hd' hthis hnext
    rw [converse_cons, List.map_cons, answerAll_cons]
    refine ⟨?_, hsession⟩
    dsimp only
    rw [spoken_append, spoken_append, spoken_pull_of_le hstart hpull, spoken_answer, hspoken,
      List.nil_append, List.append_assoc]

/-- How an error in a text is reported in a dialogue. -/
def reported (text : List Char) (e : SyntaxError) : SyntaxError :=
  if text ≠ [] ∧ text.getLast? ≠ some '\n' ∧ e.fault ≠ .invalidForm then
    { e with line := e.line + 1 }
  else e

theorem course_lineEnded (text : List Char) :
    (Course.ofText (Text.lineEnded text)).forms = (Course.ofText text).forms ∧
      (Course.ofText (Text.lineEnded text)).error? =
        (Course.ofText text).error?.map (reported text) := by
  by_cases h : text ≠ [] ∧ text.getLast? ≠ some '\n'
  · have hr : reported text = SyntaxError.lineEnded := by
      funext e
      by_cases hf : e.fault = .invalidForm
      · rw [reported, if_neg (by simp [hf]), SyntaxError.lineEnded, if_pos hf]
      · rw [reported, if_pos ⟨h.1, h.2, hf⟩, SyntaxError.lineEnded, if_neg hf]
    rw [Text.lineEnded, if_pos h, hr]
    exact ⟨Course.forms_line_end text, Course.error?_line_end text⟩
  · have hr : reported text = id := by
      funext e
      rw [reported, if_neg fun hc => h ⟨hc.1, hc.2.1⟩]
      rfl
    rw [Text.lineEnded, if_neg h, hr, Option.map_id]
    exact ⟨rfl, rfl⟩

theorem stopsEarly_lineEnded (text : List Char) :
    (Course.ofText (Text.lineEnded text)).stopsEarly = (Course.ofText text).stopsEarly := by
  have hf (e : SyntaxError) : (reported text e).fault = e.fault := by
    rw [reported]
    split <;> rfl
  rw [Course.stopsEarly, (course_lineEnded text).2, Course.stopsEarly]
  cases (Course.ofText text).error? with
  | none => rfl
  | some e => exact congrArg (fun fault => decide (fault = .invalidForm)) (hf e)

theorem spoken_interact (s : Session) {t : List Char} (ht : '\r' ∉ t) :
    spoken (interact s t).1 = .out banner :: (answerAll s (Course.ofText t).forms).1 ++
        (if (Course.ofText t).stopsEarly then [] else [.out "\n"]) ++
        (Course.ofText t).error?.toList.map (fun e => .err ((reported t e).message ++ "\n")) ∧
      (interact s t).2 = (answerAll s (Course.ofText t).forms).2 := by
  obtain ⟨hforms, herror⟩ := course_lineEnded t
  have hearly := stopsEarly_lineEnded t
  have hfinal := Course.fetched_final (Cursor.settled_start (Text.lineEnded t))
  rw [← Course.ofText, hearly] at hfinal
  have he : (LineSource.ofText t).ended = false := rfl
  have hd : (LineSource.ofText t).delivered = (Text.lineEnded t).drop 0 :=
    LineSource.delivered_ofText t
  -- The dialogue reads the text with its last line ended, which has the same forms.
  obtain ⟨hspoken, hsession⟩ := converse_eq (Course.ofText (Text.lineEnded t)).final
    (fun _ hs => Course.fetched_le_of_formSteps (Text.lineEnded_cases t) hs)
    (Course.formSteps_ascending (Text.lineEnded t)) s he hd (Nat.zero_le _)
    fun _ _ => Nat.zero_le _
  rw [Course.map_fst_formSteps, hforms] at hspoken hsession
  rw [interact_eq_converse, Text.unifyNewlines_eq_self ht]
  refine ⟨?_, hsession⟩
  dsimp only
  rw [spoken_append, herror]
  change .out banner :: spoken _ ++ spoken _ = _
  rw [hspoken]
  simp only [hfinal]
  congr 1
  cases (Course.ofText t).error? <;> rfl

theorem filter_isErr_answer (s : Session) (f : Form) :
    (answer s f).1.filter (!·.isErr) =
      (Session.respond f s).1.toList.map (.out <| · ++ "\n") := by
  rw [answer_fst, List.filter_append, List.filter_map, List.filter_map]
  simp [Function.comp_def, Output.isErr]

/-- Forms are answered as they are by a session that serves one after the other, whatever that
session notes. -/
theorem answerAll_eq (forms : List Form) {s s' : Session} (h : s.registry = s'.registry) :
    (answerAll s forms).1.filter (!·.isErr) =
        (forms.mapM Session.respond s').1.reduceOption.map (.out <| · ++ "\n") ∧
      (answerAll s forms).2.registry = (forms.mapM Session.respond s').2.registry := by
  induction forms generalizing s s' with
  | nil => exact ⟨rfl, h⟩
  | cons f forms ih =>
    obtain ⟨hresponse, hregistry⟩ := Session.respond_congr f h
    obtain ⟨hlater, hleft⟩ := @ih (answer s f).2 (Session.respond f s').2 hregistry
    rw [answerAll_cons, StateT.mapM_cons]
    refine ⟨?_, hleft⟩
    dsimp only
    rw [List.filter_append, filter_isErr_answer, hlater, hresponse]
    cases (Session.respond f s').1 <;> rfl

theorem isErr_answerAll (forms : List Form) {s : Session} (h : s.trace = .start false) :
    ∀ o ∈ (answerAll s forms).1, o.isErr = false := by
  induction forms generalizing s with
  | nil => exact List.forall_mem_nil _
  | cons f forms ih =>
    have ht : (Session.respond f s).2.trace = .start false :=
      Session.trace_respond f h
    intro o ho
    rw [answerAll_cons] at ho
    rcases List.mem_append.1 ho with ho | ho
    · rw [answer_fst, ht] at ho
      obtain ⟨response, -, rfl⟩ := List.mem_map.1 ho
      rfl
    · refine @ih (answer s f).2 ?_ o ho
      change Trace.start (Session.respond f s).2.trace.enabled = _
      rw [ht]
      rfl

theorem runText_eq (s : Session) {t : List Char} (ht : '\r' ∉ t) :
    runText s t = (⟨(answerAll s (Course.ofText t).forms).1,
      (Course.ofText t).error?.elim (.status 0) (.message ·.message)⟩,
      (answerAll s (Course.ofText t).forms).2) := by
  rw [runText_eq_answerAll, Text.unifyNewlines_eq_self ht]

/-- A text is answered in the same way as a file and in a dialogue, whatever session it is given to.
In a file, each of the forms before the first fault has its response written, and the fault is the
exit message. In a dialogue the same is written, apart from a greeting, prompts and a line end where
the input ends; the same session is left; and the same fault is reported, on the next line if the
text should have gone on and its last line had no end. -/
theorem file_eq_dialogue (s : Session) {t : List Char} (ht : '\r' ∉ t) :
    readText (String.ofList t) =
      (Course.ofText t).error?.elim (.ok (Course.ofText t).forms) .error ∧
    (runText s t).1.outputs.filter (!·.isErr) =
      (((Course.ofText t).forms.mapM Session.respond).run s).1.reduceOption.map
        (.out <| · ++ "\n") ∧
    (s.trace = .start false → ∀ o ∈ (runText s t).1.outputs, o.isErr = false) ∧
    (runText s t).1.exit = (Course.ofText t).error?.elim (.status 0) (.message ·.message) ∧
    (runText s t).2.registry =
      (((Course.ofText t).forms.mapM Session.respond).run s).2.registry ∧
    (interact s t).1.filter (!·.isPrompt) = .out banner :: (runText s t).1.outputs ++
      (if (Course.ofText t).stopsEarly then [] else [.out "\n"]) ++
      (Course.ofText t).error?.toList.map (fun e => .err ((reported t e).message ++ "\n")) ∧
    (interact s t).2 = (runText s t).2 := by
  obtain ⟨hanswers, hregistry⟩ :=
    answerAll_eq (Course.ofText t).forms (rfl : s.registry = s.registry)
  obtain ⟨hspoken, hsession⟩ := spoken_interact s ht
  rw [runText_eq s ht]
  refine ⟨?_, hanswers, isErr_answerAll _, rfl, hregistry, hspoken, hsession⟩
  rw [readText, String.toList_ofList]
  cases (Course.ofText t).error? <;> rfl

/-- A list without an end, in the second line or, in a dialogue, noticed in the third. -/
theorem file_eq_dialogue_open_list :
    (runText (.start true false) ['7', '\n', '(']).1.exit =
        .message "Parse error on line 2: Unterminated list." ∧
      (interact (.start true false) ['7', '\n', '(']).1.filter (!·.isPrompt) =
        [.out banner, .out "7\n", .out "\n",
          .err "Parse error on line 3: Unterminated list.\n"] := by
  have hfirst : (Cursor.start ['7', '\n', '(']).next =
      .found (.form (.int 7)) ⟨['\n', '('], 1, 2, 2⟩ := rfl
  have hsecond : Cursor.next ⟨['\n', '('], 1, 2, 2⟩ =
      .failed ⟨.unterminatedList, 2⟩ ⟨[], 4, 4, 2⟩ := by
    rw [Cursor.next_of_open rfl, Cursor.readOpen]
    rfl
  have hcourse : Course.ofText ['7', '\n', '('] =
      ⟨[(.form (.int 7), ⟨['\n', '('], 1, 2, 2⟩)], some ⟨.unterminatedList, 2⟩, ⟨[], 4, 4, 2⟩⟩ := by
    rw [Course.ofText, Course.ofCursor_of_found hfirst, Course.ofCursor_of_failed hsecond]
  obtain ⟨-, hout, herr, hexit, -, hspoken, -⟩ :=
    file_eq_dialogue (.start true false) (t := ['7', '\n', '(']) (by decide)
  rw [List.filter_eq_self.2 (by simpa using herr rfl), hcourse] at hout
  rw [hcourse] at hexit
  rw [hout, hcourse] at hspoken
  exact ⟨hexit, hspoken⟩

end StackLang.Console
