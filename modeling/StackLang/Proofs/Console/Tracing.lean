import StackLang.Console
import StackLang.Proofs.Console.Modes
import StackLang.Proofs.Session.Depth

namespace StackLang.Console

/-- A line of the trace. -/
def Output.isNote : Output → Bool
  | .err text => "[DEBUG] ".toList.isPrefixOf text.toList
  | _ => false

def unnoted (outputs : List Output) : List Output := outputs.filter (!·.isNote)

def Outcome.untraced (o : Outcome) : Outcome := ⟨unnoted o.outputs, o.exit⟩

/-- The arguments of a command line without the options that ask for a trace. -/
def withoutDebug : List String → List String
  | [] => []
  | arg :: args =>
    if arg = "--debug" then withoutDebug args
    else if arg = "--prelude" then arg :: withoutDebug args
    else arg :: args

theorem isNote_line (e : Event) : (Output.err e.line).isNote = true := by
  rw [Output.isNote, List.isPrefixOf_iff_prefix, Event.line, Event.lineOf, String.toList_append,
    String.toList_append, List.append_assoc]
  exact List.prefix_append ..

theorem isNote_report (e : SyntaxError) : (Output.err (e.message ++ "\n")).isNote = false := by
  have he : e.message = "Parse error on line " ++ e.line.repr ++ ": " ++ e.fault.message := rfl
  have hn : "[DEBUG] ".toList = '[' :: "DEBUG] ".toList := rfl
  have hr : "Parse error on line ".toList = 'P' :: "arse error on line ".toList := rfl
  rw [Output.isNote, he, String.toList_append, String.toList_append, String.toList_append,
    String.toList_append, hn, hr, List.cons_append, List.cons_append, List.cons_append,
    List.cons_append, List.isPrefixOf_cons_cons]
  rfl

theorem unnoted_append (os more : List Output) :
    unnoted (os ++ more) = unnoted os ++ unnoted more :=
  List.filter_append ..

theorem unnoted_eq_self {os : List Output} (h : ∀ o ∈ os, o.isNote = false) : unnoted os = os :=
  List.filter_eq_self.2 fun o ho => by rw [h o ho]; rfl

theorem unnoted_notices (notices : List Notice) :
    unnoted (notices.map .ofNotice) = notices.map .ofNotice := by
  apply unnoted_eq_self
  intro o ho
  obtain ⟨notice, -, rfl⟩ := List.mem_map.1 ho
  cases notice <;> rfl

theorem unnoted_trace (events : List Event) :
    unnoted (events.map fun e => .err e.line) = [] := by
  rw [unnoted, List.filter_eq_nil_iff]
  intro o ho
  obtain ⟨e, -, rfl⟩ := List.mem_map.1 ho
  simp [isNote_line e]

theorem answer_untraced (s : Session) (f : Form) :
    answer s.untraced f = (answer s f).map unnoted Session.untraced := by
  have hout (response : Option String) :
      unnoted (response.toList.map (.out <| · ++ "\n")) =
        response.toList.map (.out <| · ++ "\n") := by
    cases response <;> rfl
  have hfst : (answer s.untraced f).1 = unnoted (answer s f).1 := by
    rw [answer_fst, answer_fst, unnoted_append, unnoted_trace, hout, s.respond_untraced f]
    rfl
  have hsnd : (answer s.untraced f).2 = (answer s f).2.untraced := by
    rw [answer, answer, s.respond_untraced f]
    rfl
  exact Prod.ext hfst hsnd

theorem answerAll_untraced (forms : List Form) (s : Session) :
    answerAll s.untraced forms = (answerAll s forms).map unnoted Session.untraced := by
  induction forms generalizing s with
  | nil => rfl
  | cons f forms ih =>
    have hlater := ih (answer s f).2
    have hnow := answer_untraced s f
    rw [answerAll_cons, answerAll_cons, hnow]
    simp only [Prod.map, unnoted_append] at hlater ⊢
    rw [hlater]

theorem converse_untraced (final : Cursor) (steps : List (Form × Cursor)) (s : Session)
    (source : LineSource) (fetched : Nat) :
    converse s.untraced source fetched final steps =
      (converse s source fetched final steps).map unnoted Session.untraced := by
  induction steps generalizing s source fetched with
  | nil => exact Prod.ext (unnoted_notices _).symm rfl
  | cons step steps ih =>
    have hnow := answer_untraced s step.1
    rw [converse_cons, converse_cons, hnow]
    simp only [Prod.map, unnoted_append, unnoted_notices, ih]

theorem runText_untraced (s : Session) (text : List Char) :
    runText s.untraced text = (runText s text).map Outcome.untraced Session.untraced := by
  rw [runText_eq_answerAll, runText_eq_answerAll]
  dsimp only
  rw [answerAll_untraced]
  rfl

theorem interact_untraced (s : Session) (stdin : List Char) :
    interact s.untraced stdin = (interact s stdin).map unnoted Session.untraced := by
  have herror (error? : Option SyntaxError) :
      unnoted (error?.toList.map (.err <| ·.message ++ "\n")) =
        error?.toList.map (.err <| ·.message ++ "\n") := by
    apply unnoted_eq_self
    intro o ho
    obtain ⟨e, -, rfl⟩ := List.mem_map.1 ho
    -- A fault is reported where notes go, too, but starts differently.
    exact isNote_report e
  have hbanner (os : List Output) : unnoted (.out banner :: os) = .out banner :: unnoted os := rfl
  rw [interact_eq_converse, interact_eq_converse]
  dsimp only
  rw [converse_untraced]
  simp only [Prod.map, unnoted_append, herror, hbanner]

theorem parse_withoutDebug (o : Options) (args : List String) :
    Options.parse { o with traced := false } (withoutDebug args) =
      (Options.parse o args).map ({ · with traced := false }) id := by
  induction args generalizing o with
  | nil => rfl
  | cons arg args ih =>
    by_cases hd : arg = "--debug"
    · simp only [withoutDebug, Options.parse, if_pos hd]
      exact ih { o with traced := true }
    · by_cases hp : arg = "--prelude"
      · simp only [withoutDebug, Options.parse, if_neg hd, if_pos hp]
        exact ih { o with withPrelude := true }
      · simp only [withoutDebug, Options.parse, if_neg hd, if_neg hp]
        rfl

theorem run_withoutDebug (program : String) (args : List String) (stdin : String)
    (contents : String → Except FileError String) :
    run program (withoutDebug args) stdin contents =
      (run program args stdin contents).map Outcome.untraced := by
  have hparse : Options.none.parse (withoutDebug args) = _ := parse_withoutDebug .none args
  have hstart (o : Options) : Session.start o.withPrelude false =
    (Session.start o.withPrelude o.traced).untraced := rfl
  have hfile (s : Session) (text : List Char) :
      (runText s.untraced text).1 = Outcome.untraced (runText s text).1 := by
    rw [runText_untraced]
    rfl
  unfold run
  rw [hparse]
  obtain ⟨options, rest⟩ := Options.none.parse args
  simp only [Prod.map, id, hstart]
  cases Mode.ofArguments rest with
  | interactive =>
    dsimp only
    rw [interact_untraced]
    rfl
  | file name =>
    dsimp only
    split
    · rw [hfile]
      rfl
    · cases contents name with
      | ok text => exact congrArg Except.ok (hfile _ _)
      | error e => rfl
  | usage => rfl

theorem stdout_of_isNote {o : Output} (h : o.isNote = true) : o.stdout = "" := by
  cases o with
  | err text => rfl
  | prompt p => cases h
  | out text => cases h

theorem Outcome.stdout_untraced (o : Outcome) : o.untraced.stdout = o.stdout := by
  obtain ⟨os, exit⟩ := o
  change String.join ((unnoted os).map Output.stdout) = String.join (os.map Output.stdout)
  induction os with
  | nil => rfl
  | cons w os ih =>
    rw [List.map_cons, String.join_cons, ← ih]
    cases hw : w.isNote with
    | true =>
      rw [stdout_of_isNote hw, String.empty_append, unnoted,
        List.filter_cons_of_neg (by simp [hw])]
      rfl
    | false =>
      rw [unnoted, List.filter_cons_of_pos (by simp [hw]), List.map_cons, String.join_cons]
      rfl

theorem all_unnoted (os : List Output) : (unnoted os).all (!·.isNote) = true :=
  List.all_eq_true.2 fun _ ho => (List.mem_filter.1 ho).2

/-- A text with a line feed is shown as it is, and the note about it goes on in a line that does not
start as notes do. -/
theorem note_over_two_lines :
    ∃ traced plain : Outcome,
      run "pfx" ["--debug", "run", "-"] "(f \"a\nb\")\n" (fun _ => .error .notFound) = .ok traced ∧
      run "pfx" ["run", "-"] "(f \"a\nb\")\n" (fun _ => .error .notFound) = .ok plain ∧
      plain.stderr = "" ∧
      ∃ line ∈ Text.lines traced.stderr.toList, ¬"[DEBUG]".toList <+: line := by
  refine ⟨_, _, rfl, rfl, ?_, ?_⟩
  · rw [runText_eq_answerAll]
    decide +kernel
  · rw [runText_eq_answerAll]
    decide +kernel

/-- A trace adds notes to the error output and changes nothing else. Without one, operations, code
and programs have the same results and errors and leave the same stacks; sessions give the same
replies and remember the same programs; and texts and dialogues are answered with the same output in
the same order, apart from the notes, of which there are none then. Reading, and taking forms for
code or for requests, has no access to a trace. A printer has to go as deep as what a note shows is
nested. That is no deeper than the code and the stack are, or what a session is asked for and
remembers; but however deep the printer can go, there is code that runs to its end with a note that
is too deep for it. -/
theorem tracing_adds_notes_only :
    (∀ (m : Machine) (b : Builtin), m.untraced.apply b = (m.apply b).mapState Machine.untraced) ∧
    (∀ (m : Machine) (code : List Command),
      m.untraced.evaluate code = (m.evaluate code).mapState Machine.untraced) ∧
    (∀ (p : Program) (style : ArgumentStyle) (arguments : List Int) (trace : Trace),
      p.apply style arguments .off = (p.apply style arguments trace).mapState fun _ => .off) ∧
    (∀ (v : Validation) (s : Session) (steps : List Session.Step),
      steps.mapM (Session.Step.take v) s.untraced =
        (steps.mapM (Session.Step.take v) s).map id Session.untraced) ∧
    (∀ (s : Session) (text : List Char),
      runText s.untraced text = (runText s text).map Outcome.untraced Session.untraced) ∧
    (∀ (s : Session) (stdin : List Char),
      interact s.untraced stdin = (interact s stdin).map unnoted Session.untraced) ∧
    (∀ (program : String) (args : List String) (stdin : String)
      (contents : String → Except FileError String),
      run program (withoutDebug args) stdin contents =
        (run program args stdin contents).map Outcome.untraced) ∧
    (∀ o : Outcome, o.untraced.stdout = o.stdout ∧ o.untraced.exit = o.exit ∧
      o.untraced.outputs.all (!·.isNote) = true) ∧
    (∀ (m : Machine) (b : Builtin), m.trace.AddsWithin m.stack.depth (m.apply b).left.trace) ∧
    (∀ (m : Machine) (code : List Command),
      m.trace.AddsWithin (max (Command.depthAll code) m.stack.depth)
        (m.evaluate code).left.trace) ∧
    (∀ (p : Program) (style : ArgumentStyle) (arguments : List Int) (trace : Trace),
      trace.AddsWithin (Command.block p.body).depth (p.apply style arguments trace).left) ∧
    (∀ (v : Validation) (s : Session) (steps : List Session.Step),
      s.trace.AddsWithin (max s.registry.depth (Session.Step.depthAll steps))
        (steps.mapM (Session.Step.take v) s).2.trace) ∧
    (∀ (limit : Nat) (c : Command),
      c.charsWithin? limit = if c.depth ≤ limit then some c.chars else none) ∧
    ∀ limit : Nat, ∃ code, Machine.evaluate ⟨[], .off⟩ code = .ok () ⟨[.int 1], .off⟩ ∧
      ∃ trace, Machine.evaluate ⟨[], .start true⟩ code = .ok () ⟨[.int 1], trace⟩ ∧
        ∃ c s, .evaluated c s ∈ trace.events.toList ∧ c.charsWithin? limit = none :=
  ⟨Machine.apply_untraced, Machine.evaluate_untraced, Program.apply_untraced,
    fun v s steps => Session.steps_untraced v steps s, runText_untraced, interact_untraced,
    run_withoutDebug, fun o => ⟨o.stdout_untraced, rfl, all_unnoted o.outputs⟩,
    fun m b => m.apply_addsWithin b (Nat.le_refl _),
    fun m _ => m.evaluate_addsWithin (Nat.le_max_left _ _) (Nat.le_max_right _ _),
    fun _ => Program.apply_addsWithin (Nat.le_refl _),
    fun v s steps => Session.steps_addsWithin v steps s, Command.charsWithin?_eq,
    exists_code_too_deep⟩

end StackLang.Console
