import StackLang.Proofs.Machine.Record
import StackLang.Proofs.Session.Safety

namespace StackLang

namespace Event

def entry? : Event → Option Entry
  | .evaluated c s => some (c, s)
  | _ => none

def isReturned : Event → Bool
  | .returned .. => true
  | _ => false

def isFailed : Event → Bool
  | .failed .. => true
  | _ => false

end Event

theorem filterMap_entry?_noted (entries : List Entry) :
    (noted entries).filterMap Event.entry? = entries := by
  rw [noted, List.filterMap_map]
  exact List.filterMap_some

theorem exists_of_mem_noted {entries : List Entry} {event : Event} (h : event ∈ noted entries) :
    ∃ c s, event = .evaluated c s := by
  obtain ⟨⟨c, s⟩, -, rfl⟩ := List.mem_map.1 h
  exact ⟨c, s, rfl⟩

theorem Program.apply_of_records {p : Program} {arguments : List Int}
    (h : arguments.length = p.arity) {entries : List Entry} {r : StackRun}
    (hr : Records (arguments.map .int) p.body entries r) (style : ArgumentStyle) (trace : Trace) :
    p.apply style arguments trace = match r.result with
      | .ok n => .ok n (trace.recordAll (noted entries ++ [.returned p arguments style n]))
      | .error e => .error (.evaluation e) (trace.recordAll (noted entries)) := by
  unfold apply
  rw [if_pos h, Machine.evaluate_of_records hr]
  cases r with
  | error e s => rfl
  | ok _ s =>
    dsimp only [StackRun.withTrace, StackRun.result]
    cases s.result with
    | error e => rfl
    | ok n =>
      dsimp only
      rw [Trace.recordAll_append]
      rfl

namespace Session

/-- What is noted of a call behind its own line, given the program of that name if there is one. -/
inductive CallNoted (items : List Form) (name : String) (arguments : List Int) :
    Option Program → String → List Event → Prop
  | unknown : CallNoted items name arguments none (Error.request (.programNotFound name)).answer
      [.failed items (.request (.programNotFound name))]
  | miscounted {p : Program} (h : arguments.length ≠ p.arity) :
    CallNoted items name arguments (some p)
      (Error.request (.wrongNumberOfArgs p.arity arguments.length)).answer
      [.failed items (.request (.wrongNumberOfArgs p.arity arguments.length))]
  /-- The first command that fails leaves no note of its own. -/
  | aborted {p : Program} {entries : List Entry} {e : EvaluationError} {s : Stack}
    (h : arguments.length = p.arity)
    (hr : Records (arguments.map .int) p.body entries (.error e s)) :
    CallNoted items name arguments (some p) (Error.evaluation e).answer
      (noted entries ++ [.failed items (.evaluation e)])
  /-- All commands are carried out, but no number is on top of the stack. -/
  | numberless {p : Program} {entries : List Entry} {e : EvaluationError} {s : Stack}
    (h : arguments.length = p.arity) (hr : Records (arguments.map .int) p.body entries (.ok () s))
    (hs : s.result = .error e) :
    CallNoted items name arguments (some p) (Error.evaluation e).answer
      (noted entries ++ [.failed items (.evaluation e)])
  | returned {p : Program} {entries : List Entry} {n : Int} {s : Stack}
    (h : arguments.length = p.arity)
    (hr : Records (arguments.map .int) p.body entries (.ok () (.int n :: s))) :
    CallNoted items name arguments (some p) (String.ofList (Decimal.numeral n))
      (noted entries ++ [.returned p arguments .tuple n])

/-- What is noted while a list is interpreted, given what is registered, and how it is answered. -/
inductive Noted (registry : Registry) (items : List Form) : Option String → List Event → Prop
  | rejected {e : Error} (h : Request.ofForms items = .error e) :
    Noted registry items (some e.answer) [.request items false, .failed items e]
  | definition {name : String} {p : Program}
    (h : Request.ofForms items = .ok (.definition name p)) :
    Noted registry items none [.request items false, .definition name p.arity]
  | call {name : String} {arguments : List Int} {answer : String} {events : List Event}
    (h : Request.ofForms items = .ok (.call name arguments))
    (hc : CallNoted items name arguments (registry.find? name) answer events) :
    Noted registry items (some answer) (.request items false :: .call name arguments :: events)

theorem exists_callNoted (items : List Form) (name : String) (arguments : List Int) (s : Session) :
    ∃ answer events, CallNoted items name arguments (s.registry.find? name) answer events ∧
      ((∃ n t, call .tuple name arguments s = .ok n t ∧
          answer = String.ofList (Decimal.numeral n) ∧ t.trace = s.trace.recordAll events) ∨
        ∃ e t, call .tuple name arguments s = .error e t ∧ answer = e.answer ∧
          t.trace.record (.failed items e) = s.trace.recordAll events) := by
  unfold call
  cases s.registry.find? name with
  | none => exact ⟨_, _, .unknown, .inr ⟨_, _, rfl, rfl, rfl⟩⟩
  | some p =>
    by_cases h : (arguments.length : Int) = p.arity
    · -- What the body has left tells how the call ends.
      obtain ⟨entries, r, hr, -⟩ := Machine.evaluate_recorded ⟨arguments.map .int, s.trace⟩ p.body
      have happly := Program.apply_of_records h hr .tuple s.trace
      dsimp only
      rw [happly]
      cases r with
      | error e t =>
        refine ⟨_, _, .aborted h hr, .inr ⟨_, _, rfl, rfl, ?_⟩⟩
        rw [Trace.recordAll_append]
        rfl
      | ok _ t =>
        rcases t with _ | ⟨n | body, t⟩
        · refine ⟨_, _, .numberless h hr rfl, .inr ⟨_, _, rfl, rfl, ?_⟩⟩
          rw [Trace.recordAll_append]
          rfl
        · exact ⟨_, _, .returned h hr, .inl ⟨_, _, rfl, rfl, rfl⟩⟩
        · refine ⟨_, _, .numberless h hr rfl, .inr ⟨_, _, rfl, rfl, ?_⟩⟩
          rw [Trace.recordAll_append]
          rfl
    · have happly : p.apply .tuple arguments s.trace =
          .error (.request (.wrongNumberOfArgs p.arity arguments.length)) s.trace := if_neg h
      dsimp only
      rw [happly]
      exact ⟨_, _, .miscounted h, .inr ⟨_, _, rfl, rfl, rfl⟩⟩

theorem exists_noted (items : List Form) (s : Session) :
    ∃ events, Noted s.registry items (interpret items s).1 events ∧
      (interpret items s).2.trace = s.trace.recordAll events := by
  unfold interpret
  cases h : Request.ofForms items with
  | error e => exact ⟨_, .rejected h, rfl⟩
  | ok r =>
    cases r with
    | definition name p => exact ⟨_, .definition h, rfl⟩
    | call name arguments =>
      dsimp only
      rw [serve_call]
      obtain ⟨answer, events, hnoted, ⟨n, t, hc, rfl, ht⟩ | ⟨e, t, hc, rfl, ht⟩⟩ :=
        exists_callNoted items name arguments
          ((s.record (.request items false)).record (.call name arguments))
      · rw [hc]
        exact ⟨_, .call h hnoted, ht⟩
      · rw [hc]
        exact ⟨_, .call h hnoted, ht⟩

/-- How the notes of a request end. In front of the end there are neither returns nor failures. -/
inductive Ends (items : List Form) : Option String → List Event → Prop
  | silent : Ends items none []
  | failed (e : Error) : Ends items (some e.answer) [.failed items e]
  | returned (p : Program) (arguments : List Int) (n : Int) :
    Ends items (some (String.ofList (Decimal.numeral n))) [.returned p arguments .tuple n]

theorem CallNoted.split {items : List Form} {name : String} {arguments : List Int}
    {entry : Option Program} {answer : String} {events : List Event}
    (h : CallNoted items name arguments entry answer events) :
    ∃ entries ending, events = noted entries ++ ending ∧ Ends items (some answer) ending ∧
      Chained (arguments.map .int) entries ∧
      ∀ n, answer = String.ofList (Decimal.numeral n) →
        ∃ s, stackAfter (arguments.map .int) entries = .int n :: s := by
  cases h with
  | unknown => exact ⟨[], _, rfl, .failed _, trivial, fun n hn => absurd hn (answer_ne_numeral _ n)⟩
  | miscounted h =>
    exact ⟨[], _, rfl, .failed _, trivial, fun n hn => absurd hn (answer_ne_numeral _ n)⟩
  | aborted h hr =>
    exact ⟨_, _, rfl, .failed _, hr.chained.1, fun n hn => absurd hn (answer_ne_numeral _ n)⟩
  | numberless h hr hs =>
    exact ⟨_, _, rfl, .failed _, hr.chained.1, fun n hn => absurd hn (answer_ne_numeral _ n)⟩
  | @returned p entries m s h hr =>
    refine ⟨_, _, rfl, .returned p arguments m, hr.chained.1, fun n hn => ?_⟩
    rw [← hr.chained.2 _ rfl, numeral_injective hn]
    exact ⟨s, rfl⟩

theorem Ends.closed {items : List Form} {answer : Option String} {ending : List Event}
    (h : Ends items answer ending) {front : List Event}
    (hfront : ∀ event ∈ front, event.isFailed = false ∧ event.isReturned = false) :
    (∀ event ∈ (front ++ ending).dropLast, event.isFailed = false ∧ event.isReturned = false) ∧
    ((∃ e : Error, answer = some e.answer) ↔
      ∃ e, (front ++ ending).getLast? = some (.failed items e)) ∧
    ((∃ n, answer = some (String.ofList (Decimal.numeral n))) ↔
      ∃ p arguments n, (front ++ ending).getLast? = some (.returned p arguments .tuple n)) := by
  cases h with
  | silent =>
    rw [List.append_nil]
    refine ⟨fun event he => hfront event (List.dropLast_subset front he), ?_, ?_⟩
    · refine iff_of_false nofun fun ⟨e, he⟩ => ?_
      cases (hfront _ (List.mem_of_getLast? he)).1
    · refine iff_of_false nofun fun ⟨p, arguments, n, he⟩ => ?_
      cases (hfront _ (List.mem_of_getLast? he)).2
  | failed e =>
    rw [List.dropLast_concat, List.getLast?_concat]
    refine ⟨hfront, iff_of_true ⟨e, rfl⟩ ⟨e, rfl⟩, iff_of_false ?_ nofun⟩
    rintro ⟨n, hn⟩
    exact answer_ne_numeral e n (Option.some.inj hn)
  | returned p arguments n =>
    rw [List.dropLast_concat, List.getLast?_concat]
    refine ⟨hfront, iff_of_false ?_ nofun, iff_of_true ⟨n, rfl⟩ ⟨p, arguments, n, rfl⟩⟩
    rintro ⟨e, he⟩
    exact answer_ne_numeral e n (Option.some.inj he).symm

namespace Noted

variable {registry : Registry} {items : List Form} {answer : Option String} {events : List Event}

theorem split (h : Noted registry items answer events) :
    ∃ front ending, events = front ++ ending ∧ Ends items answer ending ∧
      ∀ event ∈ front, event.isFailed = false ∧ event.isReturned = false := by
  cases h with
  | rejected h => exact ⟨[_], _, rfl, .failed _, List.forall_mem_singleton.2 ⟨rfl, rfl⟩⟩
  | @definition name p h =>
    refine ⟨[.request items false, .definition name p.arity], [], rfl, .silent, ?_⟩
    exact List.forall_mem_cons.2 ⟨⟨rfl, rfl⟩, List.forall_mem_singleton.2 ⟨rfl, rfl⟩⟩
  | @call name arguments answer events h hc =>
    obtain ⟨entries, ending, rfl, hends, -, -⟩ := hc.split
    refine ⟨.request items false :: .call name arguments :: noted entries, ending, rfl, hends, ?_⟩
    refine List.forall_mem_cons.2 ⟨⟨rfl, rfl⟩, List.forall_mem_cons.2 ⟨⟨rfl, rfl⟩, ?_⟩⟩
    intro event he
    obtain ⟨c, s, rfl⟩ := exists_of_mem_noted he
    exact ⟨rfl, rfl⟩

theorem filterMap_entry?_ending {ending : List Event} (h : Ends items answer ending) :
    ending.filterMap Event.entry? = [] := by
  cases h <;> rfl

theorem entries (h : Noted registry items answer events) {name : String} {arguments : List Int}
    (hc : Request.ofForms items = .ok (.call name arguments)) :
    Chained (arguments.map .int) (events.filterMap Event.entry?) ∧
    ∀ n, answer = some (String.ofList (Decimal.numeral n)) →
      ∃ below, stackAfter (arguments.map .int) (events.filterMap Event.entry?) =
        .int n :: below := by
  cases h with
  | rejected h => cases h.symm.trans hc
  | definition h => cases h.symm.trans hc
  | call h hcall =>
    cases h.symm.trans hc
    obtain ⟨entries, ending, rfl, hends, hchained, htop⟩ := hcall.split
    have hentries : (noted entries ++ ending).filterMap Event.entry? = entries := by
      rw [List.filterMap_append, filterMap_entry?_noted, filterMap_entry?_ending hends,
        List.append_nil]
    change Chained _ ((noted entries ++ ending).filterMap Event.entry?) ∧
      ∀ n, _ → ∃ below, stackAfter _ ((noted entries ++ ending).filterMap Event.entry?) = _
    rw [hentries]
    exact ⟨hchained, fun n hn => htop n (Option.some.inj hn)⟩

end Noted

/-- The record of a request, if notes are taken. It tells that the list is about to be taken for a
request; of a definition then the name, and of a call the name and arguments and after these all
commands that have been carried out, each with the stack right after it, up to the first failure. In
the end it tells what has been returned, if a number has, or that the request has failed, if the
answer is an error; and nothing comes after that. Each command of a call starts from the stack that
the one before it has left, and what is returned is on top of the last of these stacks. -/
theorem interpret_traced (registry : Registry) (earlier : Array Event) (items : List Form) :
    ∃ answer session events, interpret items ⟨registry, ⟨true, earlier⟩⟩ = (answer, session) ∧
      session.trace.log = Trace.log ⟨true, earlier⟩ ++ String.join (events.map Event.line) ∧
      Noted registry items answer events ∧
      (∀ event ∈ events.dropLast, event.isFailed = false ∧ event.isReturned = false) ∧
      ((∃ e : Error, answer = some e.answer) ↔ ∃ e, events.getLast? = some (.failed items e)) ∧
      ((∃ n, answer = some (String.ofList (Decimal.numeral n))) ↔
        ∃ p arguments n, events.getLast? = some (.returned p arguments .tuple n)) ∧
      ∀ name arguments, Request.ofForms items = .ok (.call name arguments) →
        Chained (arguments.map .int) (events.filterMap Event.entry?) ∧
        ∀ n c s, answer = some (String.ofList (Decimal.numeral n)) →
          (events.filterMap Event.entry?).getLast? = some (c, s) →
            ∃ below, s = .int n :: below := by
  obtain ⟨events, hnoted, htrace⟩ := exists_noted items ⟨registry, ⟨true, earlier⟩⟩
  have hevents := (@Trace.recordAll_of_enabled ⟨true, earlier⟩ rfl events).2
  rw [← htrace] at hevents
  have hlog : (interpret items ⟨registry, ⟨true, earlier⟩⟩).2.trace.log =
      Trace.log ⟨true, earlier⟩ ++ String.join (events.map Event.line) := by
    rw [Trace.log, hevents, List.map_append, String.join_append, Trace.log]
  obtain ⟨front, ending, hsplit, hends, hfront⟩ := hnoted.split
  obtain ⟨hlast, hfailed, hreturned⟩ := hends.closed hfront
  rw [← hsplit] at hlast hfailed hreturned
  refine ⟨_, _, events, rfl, hlog, hnoted, hlast, hfailed, hreturned, fun name arguments hc => ?_⟩
  obtain ⟨hchained, htop⟩ := hnoted.entries hc
  refine ⟨hchained, fun n c s hn hs => ?_⟩
  rw [← stackAfter_of_getLast? _ hs]
  exact htop n hn

/-- A program that doubles a number by running a block. -/
theorem interpret_traced_doubling :
    ∃ (session : Session) (events : List Event),
      interpret [.symbol "f", .int 4] ⟨Registry.empty.insert "f" ⟨1,
          [.block [.int 2, .builtin (.primitive .mul)], .builtin .exec]⟩, ⟨true, #[]⟩⟩ =
        (some "8", session) ∧
      session.trace.log =
        "[DEBUG] CALL: parse_request(List(Symbol('f'), Integer(4)))\n" ++
        "[DEBUG] CALL: f [4]\n" ++
        "[DEBUG] EVAL: (2 mul) => [4 (2 mul)]\n" ++
        "[DEBUG] EVAL: exec => [4]\n" ++
        "[DEBUG] EVAL: 2 => [4 2]\n" ++
        "[DEBUG] EVAL: mul => [8]\n" ++
        "[DEBUG] RETN: apply(Program(1, [ExecutableSequence([Integer(2), " ++
        "BuiltIn(<Opcode.MUL: 'mul'>)]), BuiltIn(<Opcode.EXEC: 'exec'>)]), (4,)) -> 8\n" ∧
      Chained [.int 4] (events.filterMap Event.entry?) ∧
      ∃ p arguments n, events.getLast? = some (.returned p arguments .tuple n) := by
  obtain ⟨answer, session, events, hinterpret, -, -, -, -, hreturned, hcall⟩ :=
    interpret_traced (Registry.empty.insert "f" ⟨1,
      [.block [.int 2, .builtin (.primitive .mul)], .builtin .exec]⟩) #[] [.symbol "f", .int 4]
  have hanswer : answer = some "8" := by
    rw [show answer = _ from (congrArg Prod.fst hinterpret).symm]
    decide +kernel
  refine ⟨session, events, by rw [hinterpret, hanswer], ?_, (hcall "f" [4] rfl).1,
    hreturned.1 ⟨8, hanswer⟩⟩
  rw [show session = _ from (congrArg Prod.snd hinterpret).symm]
  decide +kernel

end Session
end StackLang
