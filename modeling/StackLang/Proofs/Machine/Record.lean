import StackLang.Proofs.Machine.Recursion

namespace StackLang

/-- A command that has been carried out, and the stack right after it. -/
abbrev Entry := Command × Stack

/-- The recursive meaning of code, with all commands that are carried out on the way. -/
inductive Records : Stack → List Command → List Entry → StackRun → Prop where
  | done (s : Stack) : Records s [] [] (.ok () s)
  | push {s : Stack} {v : Value} {rest : List Command} {entries : List Entry} {r : StackRun} :
    Records (v :: s) rest entries r →
      Records s (v.toCommand :: rest) ((v.toCommand, v :: s) :: entries) r
  | apply {s t : Stack} {p : Primitive} {rest : List Command} {entries : List Entry}
      {r : StackRun} :
    p.apply s = .ok () t → Records t rest entries r →
      Records s (.builtin (.primitive p) :: rest) ((.builtin (.primitive p), t) :: entries) r
  | applyFails {s t : Stack} {p : Primitive} {rest : List Command} {e : EvaluationError} :
    p.apply s = .error e t → Records s (.builtin (.primitive p) :: rest) [] (.error e t)
  | exec {s t u : Stack} {body rest : List Command} {inner entries : List Entry} {r : StackRun} :
    Stack.popBlock s = .ok body t → Records t body inner (.ok () u) → Records u rest entries r →
      Records s (.builtin .exec :: rest) ((.builtin .exec, t) :: (inner ++ entries)) r
  | execAborts {s t u : Stack} {body rest : List Command} {inner : List Entry}
    {e : EvaluationError} : Stack.popBlock s = .ok body t → Records t body inner (.error e u) →
      Records s (.builtin .exec :: rest) ((.builtin .exec, t) :: inner) (.error e u)
  | execFails {s t : Stack} {rest : List Command} {e : EvaluationError} :
    Stack.popBlock s = .error e t → Records s (.builtin .exec :: rest) [] (.error e t)

theorem Folds.exists_records {s : Stack} {code : List Command} {r : StackRun}
    (h : Folds s code r) : ∃ entries, Records s code entries r := by
  induction h with
  | done s => exact ⟨_, .done s⟩
  | push _ ih =>
    obtain ⟨_, h⟩ := ih
    exact ⟨_, .push h⟩
  | apply hp _ ih =>
    obtain ⟨_, h⟩ := ih
    exact ⟨_, .apply hp h⟩
  | applyFails hp => exact ⟨_, .applyFails hp⟩
  | exec hb _ _ ihb ihr =>
    obtain ⟨_, hbody⟩ := ihb
    obtain ⟨_, hrest⟩ := ihr
    exact ⟨_, .exec hb hbody hrest⟩
  | execAborts hb _ ih =>
    obtain ⟨_, h⟩ := ih
    exact ⟨_, .execAborts hb h⟩
  | execFails hb => exact ⟨_, .execFails hb⟩

def stackAfter (s : Stack) (entries : List Entry) : Stack :=
  entries.foldl (fun _ entry => entry.2) s

/-- Each entry carries out its command on the stack that the entry before it has left. -/
def Chained : Stack → List Entry → Prop
  | _, [] => True
  | s, (c, t) :: entries => (∃ calls, c.perform s = .ok calls t) ∧ Chained t entries

theorem chained_append {s : Stack} {entries more : List Entry} :
    Chained s (entries ++ more) ↔ Chained s entries ∧ Chained (stackAfter s entries) more := by
  induction entries generalizing s with
  | nil => exact (and_iff_right trivial).symm
  | cons entry entries ih => rw [List.cons_append, Chained, Chained, ih, and_assoc]; rfl

theorem stackAfter_append (s : Stack) (entries more : List Entry) :
    stackAfter s (entries ++ more) = stackAfter (stackAfter s entries) more :=
  List.foldl_append

theorem stackAfter_of_getLast? (s : Stack) {entries : List Entry} {c : Command} {t : Stack}
    (h : entries.getLast? = some (c, t)) : stackAfter s entries = t := by
  obtain ⟨front, rfl⟩ := List.getLast?_eq_some_iff.1 h
  rw [stackAfter_append]
  rfl

namespace Records

variable {s : Stack} {code : List Command} {entries : List Entry}

theorem chained {r : StackRun} (h : Records s code entries r) :
    Chained s entries ∧ ∀ u, r = .ok () u → u = stackAfter s entries := by
  induction h with
  | done s =>
    refine ⟨trivial, fun u hu => ?_⟩
    cases hu
    rfl
  | @push s v rest entries r _ ih => exact ⟨⟨⟨[], Command.perform_toCommand v s⟩, ih.1⟩, ih.2⟩
  | @apply s t p rest entries r hp _ ih =>
    exact ⟨⟨⟨_, Command.perform_of_apply hp⟩, ih.1⟩, ih.2⟩
  | applyFails => exact ⟨trivial, nofun⟩
  | @exec s t u body rest inner entries r hb _ _ ihb ihr =>
    have hinner := ihb.2 u rfl
    have hboth := chained_append.2 ⟨ihb.1, hinner ▸ ihr.1⟩
    refine ⟨⟨⟨_, Command.perform_of_popBlock hb⟩, hboth⟩, fun w hw => ?_⟩
    change w = stackAfter t (inner ++ entries)
    rw [stackAfter_append, ← hinner]
    exact ihr.2 w hw
  | @execAborts s t u body rest inner e hb _ ih =>
    exact ⟨⟨⟨_, Command.perform_of_popBlock hb⟩, ih.1⟩, nofun⟩
  | execFails => exact ⟨trivial, nofun⟩

theorem fails {e : EvaluationError} {u : Stack} (h : Records s code entries (.error e u)) :
    ∃ c : Command, c.perform (stackAfter s entries) = .error e u := by
  generalize hr : EStateM.Result.error e u = r at h
  induction h with
  | done => cases hr
  | push _ ih => exact ih hr
  | apply _ _ ih => exact ih hr
  | @applyFails s t p rest e' hp =>
    cases hr
    exact ⟨.builtin (.primitive p), Command.perform_of_apply_error hp⟩
  | @exec s t u' body rest inner entries r hb hbody _ _ ihr =>
    obtain ⟨c, hc⟩ := ihr hr
    refine ⟨c, ?_⟩
    change c.perform (stackAfter t (inner ++ entries)) = _
    rwa [stackAfter_append, ← hbody.chained.2 u' rfl]
  | execAborts _ _ ih => exact ih hr
  | @execFails s t rest e' hb =>
    cases hr
    exact ⟨.builtin .exec, Command.perform_of_popBlock_error hb⟩

end Records

namespace Trace

def recordAll (t : Trace) (events : List Event) : Trace := events.foldl record t

theorem recordAll_append (t : Trace) (events more : List Event) :
    t.recordAll (events ++ more) = (t.recordAll events).recordAll more :=
  List.foldl_append

theorem recordAll_of_enabled {t : Trace} (h : t.enabled = true) (events : List Event) :
    (t.recordAll events).enabled = true ∧
      (t.recordAll events).events.toList = t.events.toList ++ events := by
  induction events generalizing t with
  | nil => exact ⟨h, (List.append_nil _).symm⟩
  | cons e events ih =>
    have hrecord : t.record e = { t with events := t.events.push e } := if_pos h
    obtain ⟨henabled, hevents⟩ := @ih (t.record e) (by rw [hrecord]; exact h)
    refine ⟨henabled, hevents.trans ?_⟩
    rw [hrecord, Array.toList_push, List.append_assoc]
    rfl

end Trace

def noted (entries : List Entry) : List Event := entries.map fun (c, t) => .evaluated c t

def StackRun.withTrace (trace : Trace) : StackRun → Run
  | .ok _ s => .ok () ⟨s, trace⟩
  | .error e s => .error e ⟨s, trace⟩

namespace Machine

/-- The machine notes what it does, entry by entry. -/
theorem evaluate_of_records {s : Stack} {code : List Command} {entries : List Entry} {r : StackRun}
    (h : Records s code entries r) (trace : Trace) :
    evaluate ⟨s, trace⟩ code = r.withTrace (trace.recordAll (noted entries)) := by
  induction h generalizing trace with
  | done s => rw [evaluate, run_exhausted, run_nil]; rfl
  | @push s v rest entries r _ ih =>
    rw [evaluate, run_of_perform_ok (Command.perform_toCommand v s)]
    exact ih _
  | @apply s t p rest entries r hp _ ih =>
    rw [evaluate, run_of_perform_ok (Command.perform_of_apply hp)]
    exact ih _
  | @applyFails s t p rest e hp =>
    rw [evaluate, run_of_perform_error (Command.perform_of_apply_error hp)]
    rfl
  | @exec s t u body rest inner entries r hb _ _ ihb ihr =>
    -- The block lies on top of the rest; its entries are noted before those of the rest.
    rw [evaluate, run_of_perform_ok (Command.perform_of_popBlock hb), run_append]
    change ((evaluate _ body).andThen fun m => m.evaluate rest) = _
    rw [evaluated, ihb]
    refine (ihr _).trans ?_
    rw [← Trace.recordAll_append, noted, noted, ← List.map_append]
    rfl
  | @execAborts s t u body rest inner e hb _ ih =>
    rw [evaluate, run_of_perform_ok (Command.perform_of_popBlock hb), run_append]
    change ((evaluate _ body).andThen _) = _
    rw [evaluated, ih]
    rfl
  | @execFails s t rest e hb =>
    rw [evaluate, run_of_perform_error (Command.perform_of_popBlock_error hb)]
    rfl

/-- Every run is recorded, from its first entry to its last. -/
theorem evaluate_recorded (m : Machine) (code : List Command) :
    ∃ entries r, Records m.stack code entries r ∧
      m.evaluate code = r.withTrace (m.trace.recordAll (noted entries)) := by
  obtain ⟨entries, h⟩ := (folds_evaluate m code).exists_records
  exact ⟨entries, _, h, evaluate_of_records h m.trace⟩

end Machine
end StackLang
