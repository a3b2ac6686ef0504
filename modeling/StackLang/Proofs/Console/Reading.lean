import StackLang.Console.Dialogue
import StackLang.Proofs.Buffered.Loading
import StackLang.Proofs.Console.Prompting

namespace StackLang.Console
open Buffered

section
variable {σ : Type} [CharSource σ] (start : σ → σ) (written : σ → List Output)

/-- The answers to forms with what the source writes to get them, if the source is asked for the
characters up to the places behind the forms and, in the end, up to a last place. -/
def answersTo (final : Cursor) (s : Session) (source : σ) (fetched : Nat) :
    List (Form × Cursor) → List Output × Session
  | [] => (written (CharSource.skip (start source) (final.fetched - fetched)), s)
  | (f, after) :: steps =>
    let source := CharSource.skip (start source) (after.fetched - fetched)
    let (now, s) := answer s f
    let (later, s) := answersTo final s source after.fetched steps
    (written source ++ now ++ later, s)

theorem answersTo_cons (final : Cursor) (s : Session) (source : σ) (fetched : Nat)
    (step : Form × Cursor) (steps : List (Form × Cursor)) :
    answersTo start written final s source fetched (step :: steps) =
      let source := CharSource.skip (start source) (step.2.fetched - fetched)
      let later :=
        answersTo start written final (answer s step.1).2 source step.2.fetched steps
      (written source ++ (answer s step.1).1 ++ later.1, later.2) := rfl

variable {start written}

section
variable {s : Session} {r t : Reader σ}

theorem answerForms_of_none (h : nextForm { r with source := start r.source } = .ok none t) :
    answerForms start written s r = (written t.source, none, s) := by
  rw [answerForms, h]

theorem answerForms_of_form {f : Form}
    (h : nextForm { r with source := start r.source } = .ok (some f) t)
    (hlt : t.unread < r.unread) :
    answerForms start written s r =
      (written t.source ++ (answer s f).1 ++ (answerForms start written (answer s f).2 t).1,
        (answerForms start written (answer s f).2 t).2) := by
  rw [answerForms, h]
  exact dif_pos hlt

theorem answerForms_of_error {e : Failure}
    (h : nextForm { r with source := start r.source } = .error e t) :
    answerForms start written s r = (written t.source, some e, s) := by
  rw [answerForms, h]

end

variable (start written) {text : List Char}

/-- The same characters from a source that has been told that a form starts. -/
def Feed.told (d : Feed σ text)
    (hstart : ∀ source, CharSource.remaining (start source) = CharSource.remaining source) :
    Feed σ text where
  base := d.base
  source := start d.source
  remaining_eq := (hstart d.source).trans d.remaining_eq

/-- The loop, which reads no further than it has to, comes to the answers to the forms of the text
with the places behind them. -/
theorem answerForms_eq
    (hstart : ∀ source, CharSource.remaining (start source) = CharSource.remaining source)
    (s : Session) (d : Feed σ text) {p : Nat} (h : p ≤ d.base) :
    answerForms start written s (.place d p d.base) =
      let course := Course.ofCursor (.place text p d.base)
      let answers := answersTo start written course.final s d.source d.base course.formSteps
      (answers.1, course.error?.map .error, answers.2) := by
  induction hn : text.length - p using Nat.strong_induction_on generalizing s d p with
  | _ n ih =>
  subst hn
  obtain ⟨r, hr⟩ : ∃ r : Reader σ,
      r = { Reader.place d p d.base with source := start (Reader.place d p d.base).source } :=
    ⟨_, rfl⟩
  have htold : r = .place (Feed.told start d hstart) p d.base := by
    rw [hr, place_base]
    exact (place_base (Feed.told start d hstart) p).symm
  have hcursor : (Feed.told start d hstart).cursor p d.base = .place text p d.base :=
    congrArg (Cursor.place text p) (Nat.max_self _)
  have hnext : Advances (Feed.told start d hstart) p (Course.ofCursor (.place text p d.base))
      (nextForm r) := htold ▸ nextForm_advances h hcursor.symm
  generalize hx : nextForm r = x at hnext
  rw [hr] at hx
  cases hnext with
  -- What has been fetched for a form is gone from the source; the loop goes on from what is left.
  | @form i q g hlength hg hsteps he hfinal =>
    have hlt : (Reader.place (Feed.told start d hstart) q g).unread <
        (Reader.place d p d.base).unread := by
      rwa [unread_place h, unread_place hg]
    have hq : q ≤ ((Feed.told start d hstart).advance g).base :=
      Nat.le_trans hg (Nat.le_max_right _ _)
    have hlater := ih _ hlength (answer s i).2 ((Feed.told start d hstart).advance g) hq rfl
    rw [← place_advance] at hlater
    rw [answerForms_of_form hx hlt, hlater]
    dsimp only
    rw [he, hfinal, hsteps]
    rfl
  | ended hg hsteps he hfinal =>
    rw [answerForms_of_none hx]
    dsimp only
    rw [he, hfinal, hsteps]
    rfl
  | failed hg hsteps he hfinal =>
    rw [answerForms_of_error hx]
    dsimp only
    rw [he, hfinal, hsteps]
    rfl

theorem answerForms_fresh
    (hstart : ∀ source, CharSource.remaining (start source) = CharSource.remaining source)
    (s : Session) (source : σ) :
    answerForms start written s (.fresh source) =
      let course := Course.ofText (CharSource.remaining source)
      let answers := answersTo start written course.final s source 0 course.formSteps
      (answers.1, course.error?.map .error, answers.2) :=
  answerForms_eq start written hstart s (.start source) (Nat.le_refl 0)

end

theorem bind_syntaxError? (error? : Option SyntaxError) :
    (error?.map Failure.error).bind Failure.syntaxError? = error? := by
  cases error? <;> rfl

def answerAll (s : Session) : List Form → List Output × Session
  | [] => ([], s)
  | f :: fs =>
    let (now, s) := answer s f
    let (later, s) := answerAll s fs
    (now ++ later, s)

theorem answerAll_cons (s : Session) (f : Form) (fs : List Form) :
    answerAll s (f :: fs) =
      ((answer s f).1 ++ (answerAll (answer s f).2 fs).1, (answerAll (answer s f).2 fs).2) := rfl

theorem answersTo_text (final : Cursor) (steps : List (Form × Cursor)) (s : Session)
    (source : List Char) (fetched : Nat) :
    answersTo id (fun _ => []) final s source fetched steps =
      answerAll s (steps.map Prod.fst) := by
  induction steps generalizing s source fetched with
  | nil => rfl
  | cons step steps ih =>
    rw [answersTo_cons, List.map_cons, answerAll_cons]
    dsimp only
    rw [ih]
    rfl

theorem runText_eq_answerAll (s : Session) (text : List Char) :
    runText s text =
      let course := Course.ofText (Text.unifyNewlines text)
      let answers := answerAll s course.forms
      (⟨answers.1, course.error?.elim (.status 0) (.message ·.message)⟩, answers.2) := by
  have hforms := answerForms_fresh id (fun _ => []) (fun _ => rfl) s (Text.unifyNewlines text)
  unfold runText
  rw [hforms]
  dsimp only
  rw [bind_syntaxError?, answersTo_text, Course.map_fst_formSteps]
  rfl

/-- The answers to forms with what the line source writes in between. -/
def converse (s : Session) (source : LineSource) (fetched : Nat) (final : Cursor) :
    List (Form × Cursor) → List Output × Session
  | [] =>
    let (notices, _) := source.startForm.pull (final.fetched - fetched)
    (notices.map .ofNotice, s)
  | (f, after) :: steps =>
    let (notices, source) := source.startForm.pull (after.fetched - fetched)
    let (now, s) := answer s f
    let (later, s) := converse s source after.fetched final steps
    (notices.map .ofNotice ++ now ++ later, s)

theorem converse_cons (s : Session) (source : LineSource) (fetched : Nat) (final : Cursor)
    (step : Form × Cursor) (steps : List (Form × Cursor)) :
    converse s source fetched final (step :: steps) =
      let pulled := source.startForm.pull (step.2.fetched - fetched)
      let later := converse (answer s step.1).2 pulled.2 step.2.fetched final steps
      (pulled.1.map .ofNotice ++ (answer s step.1).1 ++ later.1, later.2) := rfl

theorem skip_terminal (t : Terminal) (n : Nat) :
    CharSource.skip t n = ⟨(t.lines.pull n).2, t.written ++ (t.lines.pull n).1⟩ := by
  induction n generalizing t with
  | zero => exact congrArg (Terminal.mk t.lines) (List.append_nil _).symm
  | succ n ih =>
    have hskip : CharSource.skip t (n + 1) = CharSource.skip t.next.2 n := rfl
    rw [hskip, ih]
    exact congrArg (Terminal.mk _) (List.append_assoc ..)

theorem answersTo_terminal (final : Cursor) (steps : List (Form × Cursor)) (s : Session)
    (t : Terminal) (fetched : Nat) :
    answersTo Terminal.startForm (·.written.map .ofNotice) final s t fetched steps =
      converse s t.lines fetched final steps := by
  induction steps generalizing s t fetched with
  | nil =>
    rw [answersTo, skip_terminal]
    rfl
  | cons step steps ih =>
    rw [answersTo_cons, skip_terminal, converse_cons]
    dsimp only
    rw [ih]
    rfl

/-- In a dialogue, lines are fetched as they are needed for the next form. -/
theorem interact_eq_converse (s : Session) (stdin : List Char) :
    interact s stdin =
      let course := Course.ofText (Text.lineEnded (Text.unifyNewlines stdin))
      let talk := converse s (.ofText (Text.unifyNewlines stdin)) 0 course.final course.formSteps
      (.out banner :: talk.1 ++ course.error?.toList.map (.err <| ·.message ++ "\n"), talk.2) := by
  have hforms := answerForms_fresh Terminal.startForm (·.written.map .ofNotice) (fun _ => rfl) s
    (.ofText (Text.unifyNewlines stdin))
  have hremaining : CharSource.remaining (Terminal.ofText (Text.unifyNewlines stdin)) =
      Text.lineEnded (Text.unifyNewlines stdin) := LineSource.delivered_ofText _
  unfold interact
  dsimp only
  rw [hforms, hremaining]
  dsimp only
  rw [bind_syntaxError?, answersTo_terminal]
  rfl

end StackLang.Console
